import Afs.Node.Locks.Table

/-!
# `Node.Locks.Segments` — what a table of lock segments holds

A list of active locks is read byte by byte: which owner holds which type of lock at which byte. `trimSameOwnerRange`
takes an owner's bytes away, `coalesce` changes no byte, and so `applyLock` replaces what the owner holds in the
requested range and nothing else (`held_applyLock`). `LocksTidy` is what the table keeps about its segments.
-/

namespace Afs.Locks

open Spans List UInt64

/-- A lock as a span of bytes. -/
def lockView : View ActiveLock LockTag := ⟨ActiveLock.tag, (·.range.start.toNat), (·.range.stop.toNat)⟩

/-- Byte `n` lies in the range. -/
def FileLockRange.Contains (r : FileLockRange) (n : Nat) : Prop := r.start.toNat ≤ n ∧ n ≤ r.stop.toNat

section Ranges

variable {a b : ActiveLock} {r r' : FileLockRange}

@[simp] theorem lockView_tag : lockView.tag a = a.tag := rfl

@[simp] theorem lockView_first : lockView.first a = a.range.start.toNat := rfl

@[simp] theorem lockView_last : lockView.last a = a.range.stop.toNat := rfl

theorem overlaps_iff : r.overlaps r' = true ↔ r.start.toNat ≤ r'.stop.toNat ∧ r'.start.toNat ≤ r.stop.toNat := by
  simp only [FileLockRange.overlaps, Bool.and_eq_true, decide_eq_true_eq, le_iff_toNat_le]

theorem meets_iff : lockView.Meets a b ↔ a.range.overlaps b.range = true := overlaps_iff.symm

/-- The bytes after the last one of a range: `checked_add` finds none past `u64::MAX`. -/
theorem next_eq_iff {x y : UInt64} : (x.checkedAdd 1).any (· == y) = true ↔ x.toNat + 1 = y.toNat := by
  simp only [Option.any_eq_true, beq_iff_eq, checkedAdd_eq_some, reduceToNat]
  exact ⟨fun ⟨_, h, heq⟩ => heq ▸ h, fun h => ⟨y, h, rfl⟩⟩

theorem touches_iff (ha : lockView.Nonempty a) (hb : lockView.Nonempty b) :
    lockView.Touches a b ↔ a.range.touchesOrOverlaps b.range = true := by
  have ha' : a.range.start.toNat ≤ a.range.stop.toNat := ha
  have hb' : b.range.start.toNat ≤ b.range.stop.toNat := hb
  simp only [FileLockRange.touchesOrOverlaps, Bool.or_eq_true, overlaps_iff, next_eq_iff, View.Touches, lockView_first,
    lockView_last]
  omega

theorem isValid_iff : r.isValid = true ↔ r.start.toNat ≤ r.stop.toNat := by
  rw [FileLockRange.isValid, decide_eq_true_eq, le_iff_toNat_le]

end Ranges

/-! ## Conflicts -/

/-- Locks that exclude each other where they meet. -/
def Excludes (s t : LockTag) : Prop :=
  s.kind = t.kind ∧ s.owner ≠ t.owner ∧ (s.lockType = .write ∨ t.lockType = .write)

def SameHolder (s t : LockTag) : Prop := s.kind = t.kind ∧ s.owner = t.owner

theorem Excludes.symm (s t : LockTag) (h : Excludes s t) : Excludes t s := ⟨h.1.symm, h.2.1.symm, h.2.2.symm⟩

theorem SameHolder.symm (s t : LockTag) (h : SameHolder s t) : SameHolder t s := ⟨h.1.symm, h.2.symm⟩

def LockRequest.tag (request : LockRequest) : LockTag := ⟨request.kind, request.owner, request.lockType⟩

/-- The lock that a request asks for. -/
def LockRequest.lock (request : LockRequest) (seq : UInt64) : ActiveLock :=
  ⟨request.kind, request.owner, request.pid, request.range, request.lockType, seq⟩

theorem conflicts_iff {lock request} :
    conflicts lock request = true ↔ Excludes request.tag lock.tag ∧ request.range.overlaps lock.range = true := by
  simp only [conflicts, Excludes, LockRequest.tag, ActiveLock.tag, Bool.and_eq_true, beq_iff_eq, bne_iff_ne,
    Bool.or_eq_true, overlaps_iff]
  constructor
  · rintro ⟨⟨⟨hkind, howner⟩, hstart, hstop⟩, htype⟩
    exact ⟨⟨hkind.symm, howner.symm, htype.symm⟩, hstop, hstart⟩
  · rintro ⟨⟨hkind, howner, htype⟩, hstop, hstart⟩
    exact ⟨⟨⟨hkind.symm, howner.symm⟩, hstart, hstop⟩, htype.symm⟩

/-- **No conflict**: the lock asked for is apart from every lock that would exclude it. -/
theorem apart_of_firstConflict {locks request} (hlock : request.lockType ≠ .unlock)
    (h : firstConflict locks request = none) (seq : UInt64) :
    ∀ lock ∈ locks, lockView.Apart Excludes (request.lock seq) lock := by
  intro lock hmem hexcludes hmeets
  rw [firstConflict, if_neg hlock, argmin_eq_none, filter_eq_nil_iff] at h
  exact h lock hmem (conflicts_iff.mpr ⟨hexcludes, meets_iff.mp hmeets⟩)

/-! ## Trimming -/

section Trim

variable {kind : FileLockKind} {owner : FileLockOwner} {remove : FileLockRange} {lock piece : ActiveLock}

/-- A piece of a lock: its tag, and bytes of it only. -/
structure PieceOf (lock piece : ActiveLock) : Prop where
  tag : piece.tag = lock.tag
  start : lock.range.start.toNat ≤ piece.range.start.toNat
  stop : piece.range.stop.toNat ≤ lock.range.stop.toNat
  nonempty : piece.range.start.toNat ≤ piece.range.stop.toNat

/-- The pieces that trimming leaves: the lock itself when it is somebody else's or lies elsewhere, and otherwise what it
    has before and after the removed range. -/
theorem trimPieces_cases (h : piece ∈ trimPieces kind owner remove lock) :
    (piece = lock ∧ (lock.kind = kind → lock.owner = owner → lock.range.overlaps remove = false)) ∨
    (lock.range.start.toNat < remove.start.toNat ∧ lock.range.overlaps remove = true ∧
      piece = { lock with range := ⟨lock.range.start, remove.start.saturatingSub 1⟩ }) ∨
    (remove.stop.toNat < lock.range.stop.toNat ∧ lock.range.overlaps remove = true ∧
      piece = { lock with range := ⟨remove.stop.saturatingAdd 1, lock.range.stop⟩ }) := by
  rw [trimPieces] at h
  split at h
  · next hkept =>
    refine .inl ⟨mem_singleton.mp h, fun hkind howner => ?_⟩
    rcases hkept with hne | hne | hoverlaps
    · exact absurd hkind hne
    · exact absurd howner hne
    · exact hoverlaps
  · next hcut =>
    have hoverlaps : lock.range.overlaps remove = true := by
      by_contra hno
      exact hcut (.inr (.inr (Bool.eq_false_iff.mpr hno)))
    rcases mem_append.mp h with h | h <;> split at h
    · next hlt => exact .inr (.inl ⟨lt_iff_toNat_lt.mp hlt, hoverlaps, mem_singleton.mp h⟩)
    · cases h
    · next hlt => exact .inr (.inr ⟨lt_iff_toNat_lt.mp hlt, hoverlaps, mem_singleton.mp h⟩)
    · cases h

theorem pieceOf_of_mem_trimPieces (hlock : lockView.Nonempty lock) (h : piece ∈ trimPieces kind owner remove lock) :
    PieceOf lock piece := by
  have hstop := remove.stop.toNat_lt
  have hlast := lock.range.stop.toNat_lt
  have hnonempty : lock.range.start.toNat ≤ lock.range.stop.toNat := hlock
  rcases trimPieces_cases h with ⟨rfl, _⟩ | ⟨hlt, hoverlaps, rfl⟩ | ⟨hlt, hoverlaps, rfl⟩
  · exact ⟨rfl, Nat.le_refl _, Nat.le_refl _, hnonempty⟩
  · rw [overlaps_iff] at hoverlaps
    refine ⟨rfl, Nat.le_refl _, ?_, ?_⟩
    all_goals simp only [toNat_saturatingSub, reduceToNat]; omega
  · rw [overlaps_iff] at hoverlaps
    refine ⟨rfl, ?_, Nat.le_refl _, ?_⟩
    all_goals simp only [toNat_saturatingAdd, reduceToNat]; omega

theorem mem_trimPieces_left (hkind : lock.kind = kind) (howner : lock.owner = owner)
    (hoverlaps : lock.range.overlaps remove = true) (hlt : lock.range.start < remove.start) :
    { lock with range := ⟨lock.range.start, remove.start.saturatingSub 1⟩ } ∈ trimPieces kind owner remove lock := by
  simp [trimPieces, hkind, howner, hoverlaps, hlt]

theorem mem_trimPieces_right (hkind : lock.kind = kind) (howner : lock.owner = owner)
    (hoverlaps : lock.range.overlaps remove = true) (hlt : remove.stop < lock.range.stop) :
    { lock with range := ⟨remove.stop.saturatingAdd 1, lock.range.stop⟩ } ∈ trimPieces kind owner remove lock := by
  simp [trimPieces, hkind, howner, hoverlaps, hlt]

/-- **The pieces hold what the lock held**, outside the removed range if it is the owner's. -/
theorem covers_trimPieces {n} :
    (∃ piece ∈ trimPieces kind owner remove lock, lockView.Covers piece n) ↔
      lockView.Covers lock n ∧ ¬ (lock.kind = kind ∧ lock.owner = owner ∧ remove.Contains n) := by
  have hstop := lock.range.stop.toNat_lt
  constructor
  · rintro ⟨piece, hpiece, hfirst, hlast⟩
    simp only [View.Covers, FileLockRange.Contains, lockView_first, lockView_last] at *
    rcases trimPieces_cases hpiece with ⟨rfl, hapart⟩ | ⟨hlt, hoverlaps, rfl⟩ | ⟨hlt, hoverlaps, rfl⟩
    · refine ⟨⟨hfirst, hlast⟩, ?_⟩
      rintro ⟨hkind, howner, hn⟩
      have hno := hapart hkind howner
      rw [Bool.eq_false_iff, ne_eq, overlaps_iff] at hno
      omega
    all_goals
      rw [overlaps_iff] at hoverlaps
      simp only [toNat_saturatingSub, toNat_saturatingAdd, reduceToNat] at hfirst hlast
      omega
  · rintro ⟨⟨hfirst, hlast⟩, hout⟩
    simp only [lockView_first, lockView_last] at hfirst hlast
    by_cases hcut : lock.kind = kind ∧ lock.owner = owner ∧ lock.range.overlaps remove = true
    · obtain ⟨hkind, howner, hoverlaps⟩ := hcut
      have hn : ¬ remove.Contains n := fun hn => hout ⟨hkind, howner, hn⟩
      rw [FileLockRange.Contains, not_and_or, not_le, not_le] at hn
      rcases hn with hn | hn
      · have hlt : lock.range.start < remove.start := lt_iff_toNat_lt.mpr (by omega)
        refine ⟨_, mem_trimPieces_left hkind howner hoverlaps hlt, hfirst, ?_⟩
        simp only [lockView_last, toNat_saturatingSub, reduceToNat]
        omega
      · have hlt : remove.stop < lock.range.stop := lt_iff_toNat_lt.mpr (by omega)
        refine ⟨_, mem_trimPieces_right hkind howner hoverlaps hlt, ?_, hlast⟩
        simp only [lockView_first, toNat_saturatingAdd, reduceToNat]
        omega
    · refine ⟨lock, ?_, hfirst, hlast⟩
      have hkept : lock.kind ≠ kind ∨ lock.owner ≠ owner ∨ lock.range.overlaps remove = false := by
        simpa only [not_and_or, Bool.not_eq_true] using hcut
      rw [trimPieces, if_pos hkept]
      exact mem_singleton_self lock

theorem held_trimSameOwnerRange {locks t n} (hlocks : ∀ lock ∈ locks, lockView.Nonempty lock) :
    lockView.Held (trimSameOwnerRange locks kind owner remove) t n ↔
      lockView.Held locks t n ∧ ¬ (t.kind = kind ∧ t.owner = owner ∧ remove.Contains n) := by
  constructor
  · rintro ⟨piece, hpiece, rfl, hn⟩
    obtain ⟨lock, hlock, hpiece⟩ := mem_flatMap.mp hpiece
    have htag := (pieceOf_of_mem_trimPieces (hlocks lock hlock) hpiece).tag
    obtain ⟨hcovers, hout⟩ := covers_trimPieces.mp ⟨piece, hpiece, hn⟩
    rw [lockView_tag, htag]
    exact ⟨⟨lock, hlock, rfl, hcovers⟩, hout⟩
  · rintro ⟨⟨lock, hlock, rfl, hn⟩, hout⟩
    obtain ⟨piece, hpiece, hcovers⟩ := covers_trimPieces.mpr ⟨hn, hout⟩
    have htag := (pieceOf_of_mem_trimPieces (hlocks lock hlock) hpiece).tag
    exact ⟨piece, mem_flatMap.mpr ⟨lock, hlock, hpiece⟩, htag, hcovers⟩

/-- Two pieces that one lock is cut into leave the removed range between them. -/
theorem pairwise_trimPieces (hremove : remove.isValid = true) :
    (trimPieces kind owner remove lock).Pairwise fun a b => ¬ lockView.Touches a b := by
  rw [isValid_iff] at hremove
  rw [trimPieces]
  split
  · exact pairwise_singleton _ _
  · refine pairwise_append.mpr ⟨?_, ?_, ?_⟩
    · split
      · exact pairwise_singleton _ _
      · exact List.Pairwise.nil
    · split
      · exact pairwise_singleton _ _
      · exact List.Pairwise.nil
    · intro left hleft right hright htouches
      split at hleft
      · split at hright
        · next hlt hgt =>
          rw [mem_singleton] at hleft hright
          subst hleft hright
          have hstart := lt_iff_toNat_lt.mp hlt
          have hstop := lt_iff_toNat_lt.mp hgt
          have hbound := lock.range.stop.toNat_lt
          have hgap := htouches.2
          simp only [lockView_first, lockView_last, toNat_saturatingSub, toNat_saturatingAdd,
            reduceToNat] at hgap
          omega
        · cases hright
      · cases hleft

end Trim

/-! ## Tidy tables -/

/-- What a table keeps about its segments. -/
structure LocksTidy (locks : List ActiveLock) : Prop where
  nonempty : ∀ lock ∈ locks, lockView.Nonempty lock
  exclusive : locks.Pairwise (lockView.Apart Excludes)
  disjoint : locks.Pairwise (lockView.Apart SameHolder)
  separate : locks.Pairwise lockView.Separate

namespace LocksTidy

variable {locks locks' : List ActiveLock}

theorem nil : LocksTidy [] := ⟨forall_mem_nil _, .nil, .nil, .nil⟩

/-- Taking locks away keeps a table tidy. -/
theorem sublist (h : LocksTidy locks) (hsub : locks'.Sublist locks) : LocksTidy locks' where
  nonempty := fun lock hlock => h.nonempty lock (hsub.mem hlock)
  exclusive := h.exclusive.sublist hsub
  disjoint := h.disjoint.sublist hsub
  separate := h.separate.sublist hsub

section Trim

variable {kind : FileLockKind} {owner : FileLockOwner} {remove : FileLockRange}

/-- A relation that fails between two locks fails between their pieces, and so it does between the pieces of one lock
    when it needs them to touch. -/
theorem pairwise_trim {related : ActiveLock → ActiveLock → Prop} (hremove : remove.isValid = true)
    (hnonempty : ∀ lock ∈ locks, lockView.Nonempty lock) (hrelated : locks.Pairwise related)
    (hpieces : ∀ a b a' b', related a b → PieceOf a a' → PieceOf b b' → related a' b')
    (hapart : ∀ a b, ¬ lockView.Touches a b → related a b) :
    (trimSameOwnerRange locks kind owner remove).Pairwise related := by
  refine pairwise_flatMap.mpr ⟨?_, ?_⟩
  · exact fun lock _ => (pairwise_trimPieces hremove).imp (hapart _ _)
  · apply hrelated.imp_of_mem
    intro a b ha hb hab a' ha' b' hb'
    exact hpieces a b a' b' hab (pieceOf_of_mem_trimPieces (hnonempty a ha) ha')
      (pieceOf_of_mem_trimPieces (hnonempty b hb) hb')

theorem apart_pieces {related : LockTag → LockTag → Prop} (a b a' b' : ActiveLock) (h : lockView.Apart related a b)
    (ha : PieceOf a a') (hb : PieceOf b b') : lockView.Apart related a' b' := by
  intro htag hmeets
  rw [lockView_tag, lockView_tag, ha.tag, hb.tag] at htag
  exact h htag ⟨Nat.le_trans ha.start (Nat.le_trans hmeets.1 hb.stop),
    Nat.le_trans hb.start (Nat.le_trans hmeets.2 ha.stop)⟩

theorem separate_pieces (a b a' b' : ActiveLock) (h : lockView.Separate a b) (ha : PieceOf a a') (hb : PieceOf b b') :
    lockView.Separate a' b' := by
  intro htag htouches
  rw [lockView_tag, lockView_tag, ha.tag, hb.tag] at htag
  exact h htag ⟨Nat.le_trans ha.start (Nat.le_trans htouches.1 (Nat.succ_le_succ hb.stop)),
    Nat.le_trans hb.start (Nat.le_trans htouches.2 (Nat.succ_le_succ ha.stop))⟩

theorem trim (h : LocksTidy locks) (hremove : remove.isValid = true) :
    LocksTidy (trimSameOwnerRange locks kind owner remove) where
  nonempty := by
    intro piece hpiece
    obtain ⟨lock, hlock, hpiece⟩ := mem_flatMap.mp hpiece
    exact (pieceOf_of_mem_trimPieces (h.nonempty lock hlock) hpiece).nonempty
  exclusive := pairwise_trim hremove h.nonempty h.exclusive apart_pieces
    fun _ _ hno _ hmeets => hno ⟨Nat.le_succ_of_le hmeets.1, Nat.le_succ_of_le hmeets.2⟩
  disjoint := pairwise_trim hremove h.nonempty h.disjoint apart_pieces
    fun _ _ hno _ hmeets => hno ⟨Nat.le_succ_of_le hmeets.1, Nat.le_succ_of_le hmeets.2⟩
  separate := pairwise_trim hremove h.nonempty h.separate separate_pieces fun _ _ hno _ htouches => hno htouches

end Trim

end LocksTidy

/-! ## Coalescing -/

theorem tag_eq_iff {a b : ActiveLock} :
    a.tag = b.tag ↔ a.kind = b.kind ∧ a.owner = b.owner ∧ a.lockType = b.lockType := by
  rw [ActiveLock.tag, ActiveLock.tag, LockTag.mk.injEq]

theorem joins_iff {a b : ActiveLock} (ha : lockView.Nonempty a) (hb : lockView.Nonempty b) :
    joins a b = true ↔ a.tag = b.tag ∧ lockView.Touches a b := by
  rw [touches_iff ha hb, tag_eq_iff]
  simp only [joins, Bool.and_eq_true, beq_iff_eq, and_assoc]

theorem joining : Joining lockView joins join where
  joins_iff := joins_iff
  tag := fun _ _ => rfl
  first := fun _ _ => rfl
  last := by
    intro a b
    rw [lockView_last, lockView_last, lockView_last, join, toNat_max]

/-- The order of `coalesce` puts the locks of one tag together, by their first bytes. -/
theorem before_of_sortKey_le {a b} (h : a.sortKey ≤ b.sortKey) : lockView.Before a b := by
  rw [ActiveLock.sortKey, ActiveLock.sortKey, Prod.Lex.toLex_le_toLex] at h
  rcases h with h | ⟨htag, h⟩
  · exact .inl h
  · refine .inr ⟨htag, ?_⟩
    rw [Prod.Lex.toLex_le_toLex] at h
    rcases h with h | ⟨h, _⟩
    · exact Nat.le_of_lt h
    · exact Nat.le_of_eq h

section Coalesce

variable {locks : List ActiveLock}

theorem sorted_before (locks : List ActiveLock) :
    (locks.insertionSort fun a b => a.sortKey ≤ b.sortKey).Pairwise lockView.Before := by
  have htotal : Std.Total fun a b : ActiveLock => a.sortKey ≤ b.sortKey := ⟨fun a b => le_total _ _⟩
  have htrans : IsTrans ActiveLock fun a b => a.sortKey ≤ b.sortKey := ⟨fun a b c => le_trans⟩
  exact (pairwise_insertionSort _ locks).imp before_of_sortKey_le

theorem held_coalesce (hnonempty : ∀ lock ∈ locks, lockView.Nonempty lock) (t : LockTag) (n : Nat) :
    lockView.Held (coalesce locks) t n ↔ lockView.Held locks t n := by
  have hperm := perm_insertionSort (fun a b : ActiveLock => a.sortKey ≤ b.sortKey) locks
  rw [coalesce, joining.held_mergeRuns (sorted_before locks), View.held_perm hperm]
  exact fun lock hlock => hnonempty lock (hperm.mem_iff.mp hlock)

/-- **Coalescing makes a table tidy** whose locks are only apart. -/
theorem LocksTidy.coalesce (hnonempty : ∀ lock ∈ locks, lockView.Nonempty lock)
    (hexclusive : locks.Pairwise (lockView.Apart Excludes)) (hdisjoint : locks.Pairwise (lockView.Apart SameHolder)) :
    LocksTidy (coalesce locks) := by
  have hperm := perm_insertionSort (fun a b : ActiveLock => a.sortKey ≤ b.sortKey) locks
  have hsorted := sorted_before locks
  have hnonempty' : ∀ lock ∈ locks.insertionSort fun a b => a.sortKey ≤ b.sortKey, lockView.Nonempty lock :=
    fun lock hlock => hnonempty lock (hperm.mem_iff.mp hlock)
  refine ⟨joining.nonempty_mergeRuns hnonempty', ?_, ?_, joining.separate_mergeRuns hsorted hnonempty'⟩
  · exact joining.apart_mergeRuns hsorted hnonempty'
      ((hperm.pairwise_iff fun h => h.symm Excludes.symm).mpr hexclusive)
  · exact joining.apart_mergeRuns hsorted hnonempty'
      ((hperm.pairwise_iff fun h => h.symm SameHolder.symm).mpr hdisjoint)

end Coalesce

/-! ## Applying a request -/

section Apply

variable {limits : LockTableLimits} {request : LockRequest} {state state' : LockTableState}

/-- The locks before `coalesce`: the ones that are left, and the new one. -/
def LockRequest.candidate (request : LockRequest) (state : LockTableState) : List ActiveLock :=
  trimSameOwnerRange state.locks request.kind request.owner request.range ++ [request.lock state.nextSeq]

theorem applyLock_cases (h : applyLock limits request state = .ok state') :
    state' = { state with locks := state'.locks, nextSeq := state'.nextSeq } ∧
    ((request.lockType = .unlock ∧
        state'.locks = trimSameOwnerRange state.locks request.kind request.owner request.range) ∨
      (request.lockType ≠ .unlock ∧ state'.locks = coalesce (request.candidate state))) := by
  rw [applyLock] at h
  by_cases hunlock : request.lockType = .unlock
  · simp only [if_pos hunlock] at h
    split at h
    · cases h
    · cases h
      exact ⟨rfl, .inl ⟨hunlock, rfl⟩⟩
  · simp only [if_neg hunlock] at h
    split at h
    · cases h
    · cases h
      exact ⟨rfl, .inr ⟨hunlock, rfl⟩⟩

theorem nonempty_lock (hrange : request.range.isValid = true) (seq : UInt64) : lockView.Nonempty (request.lock seq) :=
  isValid_iff.mp hrange

section

variable (htidy : LocksTidy state.locks) (hrange : request.range.isValid = true)

include htidy hrange

theorem nonempty_candidate : ∀ lock ∈ request.candidate state, lockView.Nonempty lock := by
  intro lock hlock
  rcases mem_append.mp hlock with hlock | hlock
  · exact (htidy.trim hrange).nonempty lock hlock
  · rw [mem_singleton.mp hlock]
    exact nonempty_lock hrange _

/-- **Applying a request is pointwise**: inside the range its owner holds what was asked for, outside of it and for
    everybody else nothing changes. -/
theorem held_applyLock (h : applyLock limits request state = .ok state') (t : LockTag) (n : Nat) :
    lockView.Held state'.locks t n ↔
      (lockView.Held state.locks t n ∧ ¬ (t.kind = request.kind ∧ t.owner = request.owner ∧ request.range.Contains n)) ∨
      (request.lockType ≠ .unlock ∧ t = request.tag ∧ request.range.Contains n) := by
  rcases (applyLock_cases h).2 with ⟨hunlock, hlocks⟩ | ⟨hlock, hlocks⟩
  · rw [hlocks, held_trimSameOwnerRange htidy.nonempty]
    simp [hunlock]
  · rw [hlocks, held_coalesce (nonempty_candidate htidy hrange), LockRequest.candidate, View.held_append,
      held_trimSameOwnerRange htidy.nonempty]
    apply or_congr Iff.rfl
    simp only [View.Held, mem_singleton, exists_eq_left]
    constructor
    · rintro ⟨htag, hn⟩
      exact ⟨hlock, htag.symm, hn⟩
    · rintro ⟨_, htag, hn⟩
      exact ⟨htag.symm, hn⟩

/-- **A request without a conflict keeps the table tidy.** -/
theorem LocksTidy.applyLock (hconflict : request.lockType ≠ .unlock → firstConflict state.locks request = none)
    (h : applyLock limits request state = .ok state') : LocksTidy state'.locks := by
  have htrim : LocksTidy (trimSameOwnerRange state.locks request.kind request.owner request.range) :=
    htidy.trim hrange
  rcases (applyLock_cases h).2 with ⟨_, hlocks⟩ | ⟨hlock, hlocks⟩
  · exact hlocks ▸ htrim
  · rw [hlocks]
    have hnew := nonempty_lock hrange state.nextSeq
    refine LocksTidy.coalesce (nonempty_candidate htidy hrange) ?_ ?_
    · -- Nobody who excludes the new lock meets it, so neither do the pieces of their locks.
      refine pairwise_append.mpr ⟨htrim.exclusive, pairwise_singleton _ _, ?_⟩
      intro piece hpiece lock hlock'
      rw [mem_singleton.mp hlock']
      refine View.Apart.symm Excludes.symm (View.apart_of_held hnew htrim.nonempty ?_
        (apart_of_firstConflict hlock (hconflict hlock) _) piece hpiece)
      exact fun t n hheld => ((held_trimSameOwnerRange htidy.nonempty).mp hheld).1
    · -- The owner's own locks have been cut out of the range.
      refine pairwise_append.mpr ⟨htrim.disjoint, pairwise_singleton _ _, ?_⟩
      intro piece hpiece lock hlock' hsame hmeets
      rw [mem_singleton.mp hlock'] at hsame hmeets
      obtain ⟨n, hpn, hn⟩ := hmeets.exists_covers (htrim.nonempty piece hpiece) hnew
      have hheld : lockView.Held _ piece.tag n := ⟨piece, hpiece, rfl, hpn⟩
      exact ((held_trimSameOwnerRange htidy.nonempty).mp hheld).2 ⟨hsame.1, hsame.2, hn⟩

end

end Apply

end Afs.Locks
