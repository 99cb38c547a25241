import Afs.Node.Dfs.Dirty
import Afs.Node.Locks.Runs

/-!
# `Node.Locks.Authority` — the lock authority of an inode on its owner

The node that has the write lease of an inode is the authority for its locks. A `LockAuthority` is a lock table
together with the lease it was made for, the owners and waiters that keep the lease renewed, and the error that ended
it, if it has ended. The table and the rest are under different mutexes.
-/

namespace Afs.Locks

open Node (stale)

/-- `DfsLockAuthority`: the table, and the state under the second mutex. -/
structure LockAuthority where
  table : LockTableState
  lease : WriteLease
  pinnedOwners : Finset FileLockOwner
  waiters : Finset LockWaiterId
  lastError : Option Error

namespace LockAuthority

def new (lease : WriteLease) : LockAuthority := ⟨.default, lease, ∅, ∅, none⟩

def epoch (authority : LockAuthority) : UInt64 := authority.lease.leaseEpoch

def sameLeaseIdentity (left right : WriteLease) : Bool :=
  left.inodeId = right.inodeId && left.ownerNodeId = right.ownerNodeId && left.ownerSessionId = right.ownerSessionId &&
    left.leaseEpoch = right.leaseEpoch

/-- An answer that comes late does not shorten the lease. -/
def mergeSameIdentityLease (current incoming : WriteLease) : WriteLease :=
  { incoming with expiresAtUnixMs := max incoming.expiresAtUnixMs current.expiresAtUnixMs }

/-- The authority ends. Its table is invalidated afterwards. -/
def fail (error : Error) (authority : LockAuthority) : LockAuthority :=
  { authority with lastError := some error, pinnedOwners := ∅, waiters := ∅ }

def withTable (authority : LockAuthority) (table : LockTableState) : LockAuthority := { authority with table }

/-- A lease of another identity is passed over. -/
def refreshSameEpochLockAuthority (lease : WriteLease) (authority : LockAuthority) : Result LockAuthority :=
  match authority.lastError with
  | some error => .error error
  | none =>
    .ok (if sameLeaseIdentity authority.lease lease then
      { authority with lease := mergeSameIdentityLease authority.lease lease } else authority)

/-- What a renewal does to the authority, and whether its table is invalidated next. -/
abbrev Renewed := LockAuthority × Bool

def applyLockRenewalSuccess (now : UInt64) (renewed : WriteLease) (authority : LockAuthority) : Renewed :=
  match authority.lastError with
  | some _ => (authority, false)
  | none =>
    if sameLeaseIdentity authority.lease renewed = false then
      (authority.fail (stale "DFS lock authority was renewed with a different lease identity"), true)
    else if max authority.lease.expiresAtUnixMs renewed.expiresAtUnixMs ≤ now then
      (authority.fail (stale "DFS lock authority lease expired"), true)
    else ({ authority with lease := mergeSameIdentityLease authority.lease renewed }, false)

/-- Meta has said that the lease is lost. -/
def isConfirmedLockRenewalFence (error : Error) : Bool :=
  error.code = .metaDfsConflict || error.code = .nodeDfsStaleHandle

/-- The lease is kept until it expires, unless Meta has said that it is lost. -/
def applyLockRenewalFailure (now : UInt64) (attempted : WriteLease) (error : Error)
    (authority : LockAuthority) : Renewed :=
  match authority.lastError with
  | some _ => (authority, false)
  | none =>
    if sameLeaseIdentity authority.lease attempted = false then (authority, false)
    else if isConfirmedLockRenewalFence error then (authority.fail error, true)
    else if authority.lease.expiresAtUnixMs ≤ now then (authority.fail (stale "DFS lock authority lease expired"), true)
    else (authority, false)

def expireLockAuthorityIfDue (now : UInt64) (authority : LockAuthority) : Renewed :=
  if authority.lastError.isNone ∧ authority.lease.expiresAtUnixMs ≤ now then
    (authority.fail (stale "DFS lock authority lease expired"), true)
  else (authority, false)

/-- The old authority in `replace_stale_lock_authority`. -/
def fence (authority : LockAuthority) : LockAuthority :=
  (authority.withTable (invalidate authority.table)).fail (stale "DFS lock authority was fenced by a newer lease epoch")

/-- **What a renewal can do**: nothing but extend the lease, or end the authority. -/
inductive Renewal (authority : LockAuthority) : Renewed → Prop
  | same : Renewal authority (authority, false)
  | extended (lease : WriteLease) (hepoch : lease.leaseEpoch = authority.epoch) :
      Renewal authority ({ authority with lease }, false)
  | ended (error : Error) (halive : authority.lastError = none) : Renewal authority (authority.fail error, true)

theorem Renewal.epoch {authority renewed} (h : Renewal authority renewed) : renewed.1.epoch = authority.epoch := by
  cases h with
  | same | ended => rfl
  | extended lease hepoch => exact hepoch

theorem Renewal.table {authority renewed} (h : Renewal authority renewed) : renewed.1.table = authority.table := by
  cases h <;> rfl

theorem epoch_merge {current incoming} (h : sameLeaseIdentity current incoming = true) :
    (mergeSameIdentityLease current incoming).leaseEpoch = current.leaseEpoch := by
  simp only [sameLeaseIdentity, Bool.and_eq_true, decide_eq_true_eq] at h
  exact h.2.symm

variable {authority : LockAuthority} {now : UInt64}

theorem renewal_success (renewed : WriteLease) : Renewal authority (applyLockRenewalSuccess now renewed authority) := by
  unfold applyLockRenewalSuccess
  split
  · exact .same
  · next halive =>
    split
    · exact .ended _ halive
    · next hsame =>
      split
      · exact .ended _ halive
      · exact .extended _ (epoch_merge (by simpa using hsame))

theorem renewal_failure (attempted : WriteLease) (error : Error) :
    Renewal authority (applyLockRenewalFailure now attempted error authority) := by
  unfold applyLockRenewalFailure
  split
  · exact .same
  · next halive =>
    split
    · exact .same
    · split
      · exact .ended _ halive
      · split
        · exact .ended _ halive
        · exact .same

theorem renewal_expire : Renewal authority (expireLockAuthorityIfDue now authority) := by
  unfold expireLockAuthorityIfDue
  split
  · next hdue => exact .ended _ (Option.isNone_iff_eq_none.mp hdue.1)
  · exact .same

theorem refresh_ok {lease refreshed}
    (h : refreshSameEpochLockAuthority lease authority = .ok refreshed) : Renewal authority (refreshed, false) := by
  unfold refreshSameEpochLockAuthority at h
  split at h
  · cases h
  · cases h
    split
    · next hsame => exact .extended _ (epoch_merge hsame)
    · exact .same

end LockAuthority

end Afs.Locks
