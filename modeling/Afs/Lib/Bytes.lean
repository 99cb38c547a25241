import Mathlib.Algebra.Ring.Nat

/-!
# `Lib.Bytes` — little-endian integers and the FNV-1a hash

Fixed-width integers as little-endian byte lists, with both round trips. The FNV-1a hash of a byte list: each of its
steps can be undone, so two lists of one length that differ in a single place have different hashes
(`fnv_set_ne`).
-/

namespace Bytes

open List

variable {bytes : List UInt8} {hash hash' : UInt64} {byte byte' : UInt8}

/-! ## Little-endian integers -/

/-- The first `n` base-256 digits of a number. -/
def leDigits : Nat → Nat → List UInt8
  | 0, _ => []
  | n + 1, x => UInt8.ofNat (x % 256) :: leDigits n (x / 256)

/-- The number with the given base-256 digits. -/
def leNat : List UInt8 → Nat
  | [] => 0
  | b :: rest => b.toNat + 256 * leNat rest

@[simp] theorem length_leDigits (n x : Nat) : (leDigits n x).length = n := by
  induction n generalizing x with
  | zero => rfl
  | succ n ih => rw [leDigits, length_cons, ih]

theorem leNat_leDigits (n x : Nat) : leNat (leDigits n x) = x % 256 ^ n := by
  induction n generalizing x with
  | zero => simp [leDigits, leNat, Nat.mod_one]
  | succ n ih =>
    have hdigit : (UInt8.ofNat (x % 256)).toNat = x % 256 := by simp
    rw [leDigits, leNat, ih, hdigit, Nat.pow_succ, Nat.mul_comm (256 ^ n), Nat.mod_mul]

theorem leNat_lt (bytes : List UInt8) : leNat bytes < 256 ^ bytes.length := by
  induction bytes with
  | nil => simp [leNat]
  | cons b rest ih =>
    have hb := b.toNat_lt
    rw [leNat, length_cons, Nat.pow_succ]
    omega

theorem leDigits_leNat (bytes : List UInt8) : leDigits bytes.length (leNat bytes) = bytes := by
  induction bytes with
  | nil => rfl
  | cons b rest ih =>
    have hb : b.toNat < 256 := b.toNat_lt
    have hmod : (b.toNat + 256 * leNat rest) % 256 = b.toNat := by omega
    have hdiv : (b.toNat + 256 * leNat rest) / 256 = leNat rest := by omega
    rw [leNat, length_cons, leDigits, hmod, hdiv, ih, UInt8.ofNat_toNat]

/-- `u64::to_le_bytes`. -/
def toLeBytes (x : UInt64) : List UInt8 := leDigits 8 x.toNat

/-- `u64::from_le_bytes`, of eight bytes. -/
def fromLeBytes (bytes : List UInt8) : UInt64 := UInt64.ofNat (leNat bytes)

@[simp] theorem length_toLeBytes (x : UInt64) : (toLeBytes x).length = 8 := length_leDigits ..

@[simp] theorem fromLeBytes_toLeBytes (x : UInt64) : fromLeBytes (toLeBytes x) = x := by
  have hx := x.toNat_lt
  rw [fromLeBytes, toLeBytes, leNat_leDigits, Nat.mod_eq_of_lt (by omega), UInt64.ofNat_toNat]

theorem toLeBytes_fromLeBytes (h : bytes.length = 8) : toLeBytes (fromLeBytes bytes) = bytes := by
  have hlt := leNat_lt bytes
  rw [h] at hlt
  rw [toLeBytes, fromLeBytes, UInt64.toNat_ofNat', Nat.mod_eq_of_lt (by omega), ← h, leDigits_leNat]

theorem fromLeBytes_inj {bytes'} (h : bytes.length = 8) (h' : bytes'.length = 8)
    (heq : fromLeBytes bytes = fromLeBytes bytes') : bytes = bytes' := by
  rw [← toLeBytes_fromLeBytes h, heq, toLeBytes_fromLeBytes h']

/-! ## FNV-1a -/

def fnvOffset : UInt64 := 0xcbf29ce484222325

def fnvPrime : UInt64 := 0x00000100000001b3

def fnvStep (hash : UInt64) (byte : UInt8) : UInt64 := (hash ^^^ byte.toUInt64) * fnvPrime

def fnv (bytes : List UInt8) : UInt64 := bytes.foldl fnvStep fnvOffset

/-- The prime is odd, so that multiplying by it can be undone. -/
theorem mul_fnvPrime_cancel {a b} (h : a * fnvPrime = b * fnvPrime) : a = b := by
  have hinverse : fnvPrime * 0xce965057aff6957b = 1 := by decide
  have hmul := congrArg (· * (0xce965057aff6957b : UInt64)) h
  simpa only [UInt64.mul_assoc, hinverse, UInt64.mul_one] using hmul

theorem fnvStep_inj_left (h : fnvStep hash byte = fnvStep hash' byte) : hash = hash' :=
  (UInt64.xor_left_inj _).mp (mul_fnvPrime_cancel h)

theorem fnvStep_inj_right (h : fnvStep hash byte = fnvStep hash byte') : byte = byte' := by
  have hxor := (UInt64.xor_right_inj _).mp (mul_fnvPrime_cancel h)
  simpa using congrArg UInt64.toUInt8 hxor

theorem foldl_fnvStep_inj (h : bytes.foldl fnvStep hash = bytes.foldl fnvStep hash') : hash = hash' := by
  induction bytes generalizing hash hash' with
  | nil => exact h
  | cons byte rest ih => exact fnvStep_inj_left (ih h)

/-- **A change of one byte changes the hash.** -/
theorem fnv_append_ne {before after} (hne : byte ≠ byte') :
    fnv (before ++ byte :: after) ≠ fnv (before ++ byte' :: after) := by
  intro h
  rw [fnv, fnv, foldl_append, foldl_append, foldl_cons, foldl_cons] at h
  exact hne (fnvStep_inj_right (foldl_fnvStep_inj h))

theorem fnv_set_ne (before : List UInt8) (after : List UInt8) {i} (hne : bytes.set i byte ≠ bytes) :
    fnv (before ++ bytes.set i byte ++ after) ≠ fnv (before ++ bytes ++ after) := by
  have hi : i < bytes.length := by
    by_contra hi
    exact hne (set_eq_of_length_le (by omega))
  have hbyte : byte ≠ bytes[i] := fun heq => hne (by rw [heq, set_getElem_self])
  have hchanged : before ++ bytes.set i byte ++ after =
      (before ++ bytes.take i) ++ byte :: (bytes.drop (i + 1) ++ after) := by
    rw [set_eq_take_append_cons_drop, if_pos hi]
    simp
  have hsame : before ++ bytes ++ after =
      (before ++ bytes.take i) ++ bytes[i] :: (bytes.drop (i + 1) ++ after) := by
    have hsplit : bytes = bytes.take i ++ bytes[i] :: bytes.drop (i + 1) := by
      rw [← drop_eq_getElem_cons hi, take_append_drop]
    rw [append_assoc, append_assoc]
    congr 1
    rw [← cons_append, ← append_assoc, ← hsplit]
  rw [hchanged, hsame]
  exact fnv_append_ne hbyte

end Bytes
