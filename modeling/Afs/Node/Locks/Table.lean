import Afs.Lib.Machine
import Afs.Lib.Pairs
import Afs.Lib.Spans
import Mathlib.Data.String.Basic
import Mathlib.Data.List.MinMax
import Mathlib.Data.Prod.Lex
import Mathlib.Data.Finset.Card

/-!
# `Node.Locks.Table` — the advisory-lock table of an inode

`node/vfs/locks.rs`: one table per inode, with POSIX byte-range locks and flock locks in two conflict namespaces.
Every function of the table runs with its mutex held, so each is one change of `LockTableState`. `setlk_blocking`
gives the mutex up while it waits: `setlkBlocking` is what it does up to the first wait and `setlkBlockingWake` what
it does from a wake-up to the next wait. The condition variable may wake a waiter at any time, notified or not, so
notifications have no part in the model. Mutex poisoning is left out.
-/

namespace Afs.Locks

/-! ## Types -/

/-- Lock namespace: POSIX byte-range locks and BSD flock locks are independent for conflict checks. -/
inductive FileLockKind
  | posix | flock
  deriving DecidableEq

structure FileLockOwner where
  ingressSessionId : String
  kernelOwner : UInt64
  deriving DecidableEq

/-- Inclusive byte range; `u64::MAX` represents the end of the file. -/
structure FileLockRange where
  (start stop : UInt64)
  deriving DecidableEq

namespace FileLockRange

def isValid (r : FileLockRange) : Bool := r.start ≤ r.stop

def overlaps (r other : FileLockRange) : Bool := r.start ≤ other.stop && other.start ≤ r.stop

def touchesOrOverlaps (r other : FileLockRange) : Bool :=
  r.overlaps other || (r.stop.checkedAdd 1).any (· == other.start) || (other.stop.checkedAdd 1).any (· == r.start)

end FileLockRange

inductive FileLockType
  | read | write | unlock
  deriving DecidableEq

/-- Identity of a blocking request, supplied by the ingress session. -/
structure LockWaiterId where
  ingressSessionId : String
  requestId : UInt64
  deriving DecidableEq

inductive LockWaiterOutcome
  | unknown | cancelled | granted
  deriving DecidableEq

inductive LockError
  | wouldBlock | deadlock | interrupted | capacity | duplicateWaiter | invalidRange
  deriving DecidableEq

/-- `maxCancelledWaiters` bounds terminal outcomes and retired identities together. -/
structure LockTableLimits where
  (maxLocks maxWaiters maxCancelledWaiters : Nat)

def LockTableLimits.default : LockTableLimits := ⟨8192, 1024, 4096⟩

structure ActiveLock where
  kind : FileLockKind
  owner : FileLockOwner
  pid : UInt32
  range : FileLockRange
  lockType : FileLockType
  seq : UInt64

structure WaitingLock where
  owner : FileLockOwner
  kind : FileLockKind
  blockers : List FileLockOwner
  deriving DecidableEq

structure StoredWaiterOutcome where
  outcome : LockWaiterOutcome
  owner : Option FileLockOwner
  kind : Option FileLockKind

structure LockTableState where
  locks : List ActiveLock
  nextSeq : UInt64
  waiters : AList (fun _ : LockWaiterId => WaitingLock)
  waiterOutcomes : AList (fun _ : LockWaiterId => StoredWaiterOutcome)
  retiredWaiters : AList (fun _ : LockWaiterId => Unit)
  closedSessions : Finset String
  (closedSessionAdmissionClosed invalidated : Bool)

def LockTableState.default : LockTableState := ⟨[], 0, ∅, ∅, ∅, ∅, false, false⟩

structure LockRequest where
  kind : FileLockKind
  owner : FileLockOwner
  pid : UInt32
  range : FileLockRange
  lockType : FileLockType
  deriving DecidableEq

/-! ## Conflicts -/

def conflicts (lock : ActiveLock) (request : LockRequest) : Bool :=
  lock.kind == request.kind && lock.owner != request.owner && lock.range.overlaps request.range &&
    (lock.lockType == .write || request.lockType == .write)

def firstConflict (locks : List ActiveLock) (request : LockRequest) : Option ActiveLock :=
  if request.lockType = .unlock then none
  else (locks.filter (conflicts · request)).argmin fun lock => toLex (lock.range.start.toNat, lock.seq.toNat)

def blockingOwners (locks : List ActiveLock) (request : LockRequest) : List FileLockOwner :=
  (locks.filter (conflicts · request)).foldl
    (fun owners lock => if lock.owner ∈ owners then owners else owners ++ [lock.owner]) []

/-- `waits_for_owner`, where the state is the set of visited owners. Every call that goes on adds an owner with a
    waiter to it, so that `fuel` bounds the depth of the search when it exceeds the number of waiters. -/
def waitsForOwner (waiters : AList (fun _ : LockWaiterId => WaitingLock)) (target : FileLockOwner) :
    Nat → FileLockOwner → StateM (List FileLockOwner) Bool
  | 0, _ => pure false
  | fuel + 1, current => do
    if current = target then
      return true
    if current ∈ (← get) then
      return false
    modify (current :: ·)
    let next := (waiters.entries.filter (·.2.owner = current)).flatMap (·.2.blockers)
    next.anyM (waitsForOwner waiters target fuel)

def wouldDeadlock (waiters : AList (fun _ : LockWaiterId => WaitingLock)) (owner : FileLockOwner)
    (blockers : List FileLockOwner) : Bool :=
  (blockers.anyM (waitsForOwner waiters owner (waiters.keys.length + 2)) []).1

/-! ## Segments -/

/-- What a lock leaves outside of `remove`. -/
def trimPieces (kind : FileLockKind) (owner : FileLockOwner) (remove : FileLockRange) (lock : ActiveLock) :
    List ActiveLock :=
  if lock.kind ≠ kind ∨ lock.owner ≠ owner ∨ lock.range.overlaps remove = false then [lock]
  else
    (if lock.range.start < remove.start then
      [{ lock with range := ⟨lock.range.start, remove.start.saturatingSub 1⟩ }] else []) ++
    (if lock.range.stop > remove.stop then
      [{ lock with range := ⟨remove.stop.saturatingAdd 1, lock.range.stop⟩ }] else [])

/-- Takes a range out of the locks of an owner, which may split some. -/
def trimSameOwnerRange (locks : List ActiveLock) (kind : FileLockKind) (owner : FileLockOwner)
    (remove : FileLockRange) : List ActiveLock :=
  locks.flatMap (trimPieces kind owner remove)

/-- The order in which the source declares the variants. -/
def FileLockKind.rank : FileLockKind → Nat
  | .posix => 0
  | .flock => 1

def FileLockType.rank : FileLockType → Nat
  | .read => 0
  | .write => 1
  | .unlock => 2

/-- What two locks have to share to be joined. -/
structure LockTag where
  kind : FileLockKind
  owner : FileLockOwner
  lockType : FileLockType

def LockTag.key (tag : LockTag) : Nat ×ₗ String ×ₗ Nat ×ₗ Nat :=
  toLex (tag.kind.rank, toLex (tag.owner.ingressSessionId, toLex (tag.owner.kernelOwner.toNat, tag.lockType.rank)))

theorem LockTag.key_injective : Function.Injective LockTag.key := by
  rintro ⟨kind, ⟨session, kernelOwner⟩, lockType⟩ ⟨kind', ⟨session', kernelOwner'⟩, lockType'⟩ h
  simp only [LockTag.key, EmbeddingLike.apply_eq_iff_eq, Prod.mk.injEq, UInt64.toNat_inj] at h
  obtain ⟨hkind, hsession, howner, htype⟩ := h
  have hkind : kind = kind' := by cases kind <;> cases kind' <;> first | rfl | cases hkind
  have htype : lockType = lockType' := by cases lockType <;> cases lockType' <;> first | rfl | cases htype
  rw [hkind, hsession, howner, htype]

/-- Tags are ordered by kind, owner and type. -/
instance : LinearOrder LockTag := LinearOrder.lift' LockTag.key LockTag.key_injective

def ActiveLock.tag (lock : ActiveLock) : LockTag := ⟨lock.kind, lock.owner, lock.lockType⟩

def ActiveLock.sortKey (lock : ActiveLock) : LockTag ×ₗ Nat ×ₗ Nat ×ₗ Nat :=
  toLex (lock.tag, toLex (lock.range.start.toNat, toLex (lock.range.stop.toNat, lock.seq.toNat)))

def joins (last lock : ActiveLock) : Bool :=
  last.kind == lock.kind && last.owner == lock.owner && last.lockType == lock.lockType &&
    last.range.touchesOrOverlaps lock.range

def join (last lock : ActiveLock) : ActiveLock :=
  { last with
    range := ⟨last.range.start, max last.range.stop lock.range.stop⟩
    seq := min last.seq lock.seq }

/-- Joins what lies next to each other and has one tag. -/
def coalesce (locks : List ActiveLock) : List ActiveLock :=
  Spans.mergeRuns joins join (locks.insertionSort fun a b => a.sortKey ≤ b.sortKey)

/-- The last lock of an owner on a byte is the one that counts. -/
def applyLock (limits : LockTableLimits) (request : LockRequest) (state : LockTableState) :
    Except LockError LockTableState :=
  let trimmed := trimSameOwnerRange state.locks request.kind request.owner request.range
  let candidate :=
    if request.lockType = .unlock then trimmed
    else coalesce (trimmed ++
      [⟨request.kind, request.owner, request.pid, request.range, request.lockType, state.nextSeq⟩])
  let nextSeq := if request.lockType = .unlock then state.nextSeq else state.nextSeq + 1
  if candidate.length > limits.maxLocks then .error .capacity
  else .ok { state with locks := candidate, nextSeq := nextSeq }

/-! ## Operations -/

/-- What a call answers, and the state it leaves. -/
abbrev Answer (α : Type) := Except LockError α × LockTableState

/-- Unlocking is never refused for a conflict or a closed session. -/
def setlkNonblocking (limits : LockTableLimits) (request : LockRequest) (state : LockTableState) : Answer Unit :=
  if !request.range.isValid then (.error .invalidRange, state)
  else if state.invalidated then (.error .interrupted, state)
  else if request.lockType ≠ .unlock ∧ request.owner.ingressSessionId ∈ state.closedSessions then
    (.error .interrupted, state)
  else if request.lockType ≠ .unlock ∧ state.closedSessionAdmissionClosed then (.error .capacity, state)
  else if request.lockType ≠ .unlock ∧ (firstConflict state.locks request).isSome then (.error .wouldBlock, state)
  else
    match applyLock limits request state with
    | .error e => (.error e, state)
    | .ok state' => (.ok (), state')

def isWaiterRetired (state : LockTableState) (waiterId : LockWaiterId) : Bool :=
  (state.retiredWaiters.lookup waiterId).isSome

/-- Whether one more outcome for `waiterId` may be stored. -/
def waiterOutcomeCapacity (limits : LockTableLimits) (state : LockTableState) (waiterId : LockWaiterId) : Bool :=
  (state.waiterOutcomes.lookup waiterId).isSome ||
    state.waiterOutcomes.keys.length + state.retiredWaiters.keys.length < limits.maxCancelledWaiters

def rememberWaiterOutcome (waiterId : LockWaiterId) (stored : StoredWaiterOutcome) (state : LockTableState) :
    LockTableState :=
  { state with waiterOutcomes := state.waiterOutcomes.insert waiterId stored }

def removeWaiter (waiterId : LockWaiterId) (state : LockTableState) : LockTableState :=
  { state with waiters := state.waiters.erase waiterId }

/-- How a blocking request leaves the mutex: with an answer, or into a wait. -/
inductive LockPass
  | done (result : Except LockError Unit)
  | wait
  deriving DecidableEq

/-- A request that does not go on waiting takes its registration away. -/
def leaveWaiters (waiterId : LockWaiterId) (registered : Bool) (state : LockTableState) : LockTableState :=
  if registered then removeWaiter waiterId state else state

section

variable (limits : LockTableLimits) (request : LockRequest) (waiterId : LockWaiterId)

/-- The end of a blocking request that nothing conflicts with. -/
def grantWaiter (state : LockTableState) : LockPass × LockTableState :=
  if !waiterOutcomeCapacity limits state waiterId then (.done (.error .capacity), state)
  else
    match applyLock limits request state with
    | .error e => (.done (.error e), state)
    | .ok state' =>
      (.done (.ok ()), rememberWaiterOutcome waiterId ⟨.granted, some request.owner, some request.kind⟩ state')

/-- One pass through the loop of `setlk_blocking`. -/
def setlkPass (registered : Bool) (state : LockTableState) : LockPass × LockTableState :=
  if !registered && (state.waiters.lookup waiterId).isSome then (.done (.error .duplicateWaiter), state)
  else if request.lockType = .unlock ∨ (firstConflict state.locks request).isNone then
    grantWaiter limits request waiterId (leaveWaiters waiterId registered state)
  else
    let blockers := blockingOwners state.locks request
    if wouldDeadlock state.waiters request.owner blockers then
      (.done (.error .deadlock), leaveWaiters waiterId registered state)
    else if !registered && state.waiters.keys.length ≥ limits.maxWaiters then (.done (.error .capacity), state)
    else if registered then
      match state.waiters.lookup waiterId with
      | some waiter => (.wait, { state with waiters := state.waiters.insert waiterId { waiter with blockers } })
      | none => (.wait, state)
    else (.wait, { state with waiters := state.waiters.insert waiterId ⟨request.owner, request.kind, blockers⟩ })

/-- `setlk_blocking` up to its answer or its first wait. -/
def setlkBlocking (state : LockTableState) : LockPass × LockTableState :=
  if !request.range.isValid then (.done (.error .invalidRange), state)
  else if state.invalidated then (.done (.error .interrupted), state)
  else if request.lockType ≠ .unlock ∧ (request.owner.ingressSessionId ∈ state.closedSessions ∨
      waiterId.ingressSessionId ∈ state.closedSessions) then (.done (.error .interrupted), state)
  else if request.lockType ≠ .unlock ∧ state.closedSessionAdmissionClosed then (.done (.error .capacity), state)
  else
    match (state.waiterOutcomes.lookup waiterId).map StoredWaiterOutcome.outcome with
    | some .cancelled | some .unknown => (.done (.error .interrupted), state)
    | some .granted => (.done (.error .duplicateWaiter), state)
    | none =>
      if isWaiterRetired state waiterId then (.done (.error .interrupted), state)
      else setlkPass limits request waiterId false state

/-- `setlk_blocking` from a wake-up to its answer or its next wait. -/
def setlkBlockingWake (state : LockTableState) : LockPass × LockTableState :=
  if state.invalidated
      ∨ (state.waiterOutcomes.lookup waiterId).any (·.outcome == .cancelled)
      ∨ request.owner.ingressSessionId ∈ state.closedSessions
      ∨ waiterId.ingressSessionId ∈ state.closedSessions
      ∨ (state.waiters.lookup waiterId).isNone then
    (.done (.error .interrupted), removeWaiter waiterId state)
  else setlkPass limits request waiterId true state

end

def cancelWaiterWithOutcome (limits : LockTableLimits) (waiterId : LockWaiterId) (state : LockTableState) :
    Answer LockWaiterOutcome :=
  if state.invalidated then (.ok .unknown, state)
  else
    match state.waiters.lookup waiterId with
    | some waiting =>
      if !waiterOutcomeCapacity limits state waiterId then (.error .capacity, state)
      else (.ok .cancelled, rememberWaiterOutcome waiterId ⟨.cancelled, some waiting.owner, some waiting.kind⟩
        (removeWaiter waiterId state))
    | none =>
      match state.waiterOutcomes.lookup waiterId with
      | some stored => (.ok stored.outcome, state)
      | none =>
        if isWaiterRetired state waiterId then (.ok .unknown, state)
        else if waiterId.ingressSessionId ∈ state.closedSessions ∨ state.closedSessionAdmissionClosed then
          (.ok .unknown, state)
        else if !waiterOutcomeCapacity limits state waiterId then (.error .capacity, state)
        else (.ok .unknown, rememberWaiterOutcome waiterId ⟨.cancelled, none, none⟩ state)

def acknowledgeWaiter (waiterId : LockWaiterId) (state : LockTableState) : Answer (Option LockWaiterOutcome) :=
  match state.waiterOutcomes.lookup waiterId with
  | none => (.ok none, state)
  | some stored =>
    (.ok (some stored.outcome),
      { state with
        waiterOutcomes := state.waiterOutcomes.erase waiterId
        retiredWaiters := state.retiredWaiters.insert waiterId () })

def retainWaiterOutcomes (owner : FileLockOwner) (kind : Option FileLockKind) (state : LockTableState) :
    LockTableState :=
  { state with
    waiterOutcomes := Pairs.mapValues (fun stored =>
      if stored.outcome = .granted ∧ stored.owner = some owner ∧ (kind.isNone ∨ stored.kind = kind) then
        { stored with outcome := .cancelled }
      else stored) state.waiterOutcomes }

/-- `release_posix_owner` and `release_flock_owner` differ in the kind only. -/
def releaseOwner (kind : FileLockKind) (owner : FileLockOwner) (state : LockTableState) : LockTableState :=
  retainWaiterOutcomes owner (some kind)
    { state with locks := state.locks.filter fun lock => !(lock.kind == kind && lock.owner == owner) }

def releasePosixOwner : FileLockOwner → LockTableState → LockTableState := releaseOwner .posix

def releaseFlockOwner : FileLockOwner → LockTableState → LockTableState := releaseOwner .flock

def isIdle (state : LockTableState) : Bool :=
  state.locks.isEmpty && state.waiters.entries.isEmpty && state.waiterOutcomes.entries.isEmpty &&
    state.retiredWaiters.entries.isEmpty && !state.closedSessionAdmissionClosed

/-- Whether the owner has a lock or waits for one, of the kind if one is given. -/
def hasOwnerActivity (owner : FileLockOwner) (kind : Option FileLockKind) (state : LockTableState) : Bool :=
  state.locks.any (fun lock => lock.owner == owner && kind.all (lock.kind == ·)) ||
    state.waiters.entries.any fun entry => entry.2.owner == owner && kind.all (entry.2.kind == ·)

def invalidate (state : LockTableState) : LockTableState :=
  { state with
    invalidated := true
    locks := []
    waiters := ∅
    waiterOutcomes := ∅
    retiredWaiters := ∅
    closedSessions := ∅
    closedSessionAdmissionClosed := false }

def releaseSession (limits : LockTableLimits) (ingressSessionId : String) (state : LockTableState) : LockTableState :=
  if state.invalidated then state
  else
    let closes := ingressSessionId ∉ state.closedSessions
    let full := limits.maxCancelledWaiters = 0 ∨ state.closedSessions.card ≥ limits.maxCancelledWaiters
    { state with
      locks := state.locks.filter fun lock => lock.owner.ingressSessionId != ingressSessionId
      waiters := Pairs.retain (fun waiterId waiter => waiterId.ingressSessionId != ingressSessionId &&
        waiter.owner.ingressSessionId != ingressSessionId) state.waiters
      waiterOutcomes := Pairs.retain (fun waiterId _ => waiterId.ingressSessionId != ingressSessionId)
        state.waiterOutcomes
      retiredWaiters := Pairs.retain (fun waiterId _ => waiterId.ingressSessionId != ingressSessionId)
        state.retiredWaiters
      closedSessionAdmissionClosed := state.closedSessionAdmissionClosed || decide (closes ∧ full)
      closedSessions := if closes ∧ ¬ full then insert ingressSessionId state.closedSessions
        else state.closedSessions }

end Afs.Locks
