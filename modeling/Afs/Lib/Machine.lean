import Mathlib.Algebra.Ring.Nat

/-!
# `Lib.Machine` — saturating and checked arithmetic on fixed-width integers

The operations a systems language offers besides wrapping arithmetic: `saturating_*` clamps at the bounds of
the type, `checked_*` answers nothing on overflow. Each operation comes with the lemma that pushes it down to
`Nat`, so that later goals are closed by `omega`.
-/

namespace UInt64

/-- `u64::MAX`. -/
def maxValue : UInt64 := UInt64.ofNat (UInt64.size - 1)

def saturatingAdd (a b : UInt64) : UInt64 := UInt64.ofNat (min (a.toNat + b.toNat) (UInt64.size - 1))

def saturatingSub (a b : UInt64) : UInt64 := UInt64.ofNat (a.toNat - b.toNat)

def saturatingMul (a b : UInt64) : UInt64 := UInt64.ofNat (min (a.toNat * b.toNat) (UInt64.size - 1))

def checkedAdd (a b : UInt64) : Option UInt64 :=
  if a.toNat + b.toNat < UInt64.size then some (a + b) else none

@[simp] theorem toNat_maxValue : maxValue.toNat = 18446744073709551615 := by decide

theorem le_maxValue (a : UInt64) : a ≤ maxValue := by
  rw [UInt64.le_iff_toNat_le, toNat_maxValue]
  have := a.toNat_lt
  omega

@[simp] theorem toNat_saturatingAdd (a b : UInt64) :
    (a.saturatingAdd b).toNat = min (a.toNat + b.toNat) 18446744073709551615 := by
  have h : min (a.toNat + b.toNat) (UInt64.size - 1) < 2 ^ 64 := by
    have : UInt64.size = 2 ^ 64 := rfl
    omega
  exact UInt64.toNat_ofNat_of_lt h

@[simp] theorem toNat_saturatingSub (a b : UInt64) : (a.saturatingSub b).toNat = a.toNat - b.toNat := by
  have h : a.toNat - b.toNat < 2 ^ 64 := by have := a.toNat_lt; omega
  exact UInt64.toNat_ofNat_of_lt h

theorem checkedAdd_of_lt {a b : UInt64} (h : a.toNat + b.toNat < 2 ^ 64) : a.checkedAdd b = some (a + b) := if_pos h

theorem checkedAdd_eq_some {a b c : UInt64} : a.checkedAdd b = some c ↔ a.toNat + b.toNat = c.toNat := by
  unfold checkedAdd
  split
  · next h =>
    rw [Option.some.injEq, ← UInt64.toNat_inj, UInt64.toNat_add, Nat.mod_eq_of_lt (by simpa [UInt64.size] using h)]
  · next h =>
    simp only [reduceCtorEq, false_iff]
    have := c.toNat_lt
    simp only [UInt64.size] at h
    omega

end UInt64

namespace UInt32

/-- `u32::MAX`. -/
def maxValue : UInt32 := UInt32.ofNat (UInt32.size - 1)

def saturatingAdd (a b : UInt32) : UInt32 := UInt32.ofNat (min (a.toNat + b.toNat) (UInt32.size - 1))

def saturatingSub (a b : UInt32) : UInt32 := UInt32.ofNat (a.toNat - b.toNat)

@[simp] theorem toNat_maxValue : maxValue.toNat = 4294967295 := by decide

theorem toNat_lt_of_ne_max {a} (h : a ≠ maxValue) : a.toNat < 4294967295 := by
  have hle := a.toNat_lt
  have hne : a.toNat ≠ 4294967295 := fun he => h (UInt32.toNat_inj.mp (by rw [he, toNat_maxValue]))
  omega

@[simp] theorem toNat_saturatingAdd (a b : UInt32) :
    (a.saturatingAdd b).toNat = min (a.toNat + b.toNat) 4294967295 := by
  have h : min (a.toNat + b.toNat) (UInt32.size - 1) < 2 ^ 32 := by
    have : UInt32.size = 2 ^ 32 := rfl
    omega
  exact UInt32.toNat_ofNat_of_lt h

@[simp] theorem toNat_saturatingSub (a b : UInt32) : (a.saturatingSub b).toNat = a.toNat - b.toNat := by
  have h : a.toNat - b.toNat < 2 ^ 32 := by have := a.toNat_lt; omega
  exact UInt32.toNat_ofNat_of_lt h

end UInt32
