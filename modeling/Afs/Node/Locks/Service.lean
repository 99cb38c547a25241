import Afs.Node.Locks.Authority

/-!
# `Node.Locks.Service` — the locks of an inode on its owner node

The machine is everything that an owner node does for the locks of one inode: lock requests of its own mounts and of
peers, interrupts, releases of owners and of sessions, renewals of the lease, and the reclaim of idle authorities.
Inodes share the set of closed sessions, which may change at any time, and the limit on the number of authorities
(`full`).

Every critical section is a step, and a thread may stop between any two of them. A request comes with the lease that
Meta has answered to it, at any time before. Authorities are numbered as they are made; threads go on with the one
they have while another one is installed. `reclaim_idle_lock_authorities` looks at the number of references: an
authority that a thread has is not reclaimed.
-/

namespace Afs.Locks

/-- `setlk` and `set_lock`, or the release of an owner. -/
inductive LockAction
  | set (request : LockRequest) (waiter : Option LockWaiterId)
  | release (kind : FileLockKind) (owner : FileLockOwner)
  deriving DecidableEq

namespace LockAction

def owner : LockAction → FileLockOwner
  | .set request _ => request.owner
  | .release _ owner => owner

def kind : LockAction → FileLockKind
  | .set request _ => request.kind
  | .release kind _ => kind

/-- The action takes locks away. -/
def unlocks : LockAction → Bool
  | .set request _ => request.lockType = .unlock
  | .release _ _ => true

def session (action : LockAction) : String := action.owner.ingressSessionId

end LockAction

/-- Where a thread stands. -/
inductive TaskPhase
  /-- Meta has answered with a lease. -/
  | leased (lease : WriteLease)
  | found (a : Nat)
  /-- The session was open. -/
  | opened (a : Nat)
  | registered (a : Nat)
  | waiting (a : Nat)
  /-- A blocking request is back from the table. -/
  | returned (a : Nat) (ok : Bool)
  /-- The table has changed; the owner is pinned or unpinned next. -/
  | applied (a : Nat)
  /-- The owner was found inactive. -/
  | inactive (a : Nat)
  deriving DecidableEq

def TaskPhase.authority : TaskPhase → Option Nat
  | .leased _ => none
  | .found a | .opened a | .registered a | .waiting a | .returned a _ | .applied a | .inactive a => some a

structure LockTask where
  action : LockAction
  /-- Requests of the node's own mounts look at the closed sessions before they ask Meta. -/
  checked : Bool
  phase : TaskPhase
  deriving DecidableEq

def LockTask.moveTo (task : LockTask) (phase : TaskPhase) : LockTask := { task with phase }

/-- A thread that has got its authority. -/
def LockTask.reach (task : LockTask) (a : Nat) : LockTask := task.moveTo (if task.checked then .opened a else .found a)

/-- The thread has not called the table yet, and has recorded nothing. -/
def TaskPhase.isEarly : TaskPhase → Bool
  | .leased _ | .found _ | .opened _ => true
  | _ => false

/-- Where a release of a session stands. -/
inductive ClosePhase
  | closed
  | found (a : Nat)
  | known (a : Nat)
  | cleaned (a : Nat)
  deriving DecidableEq

def ClosePhase.authority : ClosePhase → Option Nat
  | .closed => none
  | .found a | .known a | .cleaned a => some a

structure SessionRelease where
  session : String
  /-- The epoch of the authority that the peer names; the releases of the node itself take any. -/
  epoch : Option UInt64
  phase : ClosePhase
  deriving DecidableEq

structure LockService where
  heap : Nat → LockAuthority
  /-- The number of the next authority. -/
  next : Nat
  /-- The authority in `lock_authorities`. -/
  installed : Option Nat
  closedSessions : Finset String
  closedAdmission : Bool
  tasks : AList fun _ : Nat => LockTask
  releases : AList fun _ : Nat => SessionRelease
  /-- The authorities that have ended and are to be invalidated. -/
  invalidating : Finset Nat
  /-- The sessions whose release has been answered to a peer. -/
  released : Finset String

namespace LockService

def maxClosedLockSessions : Nat := 4096

def new (lease : WriteLease) : LockService :=
  ⟨fun _ => .new lease, 0, none, ∅, false, ∅, ∅, ∅, ∅⟩

section

variable (s : LockService)

def setAuthority (a : Nat) (authority : LockAuthority) : LockService :=
  { s with heap := Function.update s.heap a authority }

def setTable (a : Nat) (table : LockTableState) : LockService :=
  s.setAuthority a ((s.heap a).withTable table)

def setTask (n : Nat) (task : LockTask) : LockService := { s with tasks := s.tasks.insert n task }

def endTask (n : Nat) : LockService := { s with tasks := s.tasks.erase n }

def setRelease (n : Nat) (release : SessionRelease) : LockService :=
  { s with releases := s.releases.insert n release }

/-- A release is answered. -/
def endRelease (n : Nat) (release : SessionRelease) : LockService :=
  { s with
    releases := s.releases.erase n
    released := if release.epoch.isSome then insert release.session s.released else s.released }

/-- `ensure_lock_session_open`. -/
def sessionOpen (session : String) : Bool := session ∉ s.closedSessions && !s.closedAdmission

/-- `note_closed_lock_session`. -/
def noteClosed (session : String) : LockService :=
  if s.closedSessions.card < maxClosedLockSessions ∨ session ∈ s.closedSessions then
    { s with closedSessions := insert session s.closedSessions }
  else { s with closedAdmission := true }

/-- A new authority is installed. -/
def install (lease : WriteLease) : LockService :=
  { s with heap := Function.update s.heap s.next (.new lease), next := s.next + 1, installed := some s.next }

section

variable (n : Nat) (task : LockTask)

/-- `local_lock_authority`, after the reclaim. -/
def acquire (lease : WriteLease) (full : Bool) : LockService :=
  match s.installed with
  | some a =>
    if (s.heap a).epoch = lease.leaseEpoch then
      match (s.heap a).refreshSameEpochLockAuthority lease with
      | .error _ => s.endTask n
      | .ok refreshed => (s.setAuthority a refreshed).setTask n (task.reach a)
    else ((s.setAuthority a (s.heap a).fence).install lease).setTask n (task.reach s.next)
  | none => if full then s.endTask n else (s.install lease).setTask n (task.reach s.next)

/-- `register_lock_waiter`. -/
def registerWaiter (waiterId : LockWaiterId) (a : Nat) (precancelled : Bool) : LockService :=
  if precancelled ∨ (s.heap a).lastError.isSome then s.endTask n
  else (s.setAuthority a { s.heap a with waiters := insert waiterId (s.heap a).waiters }).setTask n
    (task.moveTo (.registered a))

/-- What follows a call of `setlk_nonblocking`. -/
def afterSet (a : Nat) (answer : Answer Unit) : LockService :=
  match answer.1 with
  | .ok () => (s.setTable a answer.2).setTask n (task.moveTo (.applied a))
  | .error _ => (s.setTable a answer.2).endTask n

/-- What follows a pass through the loop of `setlk_blocking`. -/
def afterPass (a : Nat) (pass : LockPass × LockTableState) : LockService :=
  match pass.1 with
  | .done result => (s.setTable a pass.2).setTask n (task.moveTo (.returned a result.isOk))
  | .wait => (s.setTable a pass.2).setTask n (task.moveTo (.waiting a))

/-- `unpin_lock_waiter`. -/
def unpinWaiter (waiterId : LockWaiterId) (a : Nat) (ok : Bool) : LockService :=
  let s := s.setAuthority a { s.heap a with waiters := (s.heap a).waiters.erase waiterId }
  if ok then s.setTask n (task.moveTo (.applied a)) else s.endTask n

/-- The second half of `register_local_lock_success`. -/
def pin (a : Nat) : LockService :=
  if (s.heap a).lastError.isSome then s.endTask n
  else (s.setAuthority a { s.heap a with pinnedOwners := insert task.action.owner (s.heap a).pinnedOwners }).endTask n

/-- The first half of `unpin_owner_if_inactive`. -/
def checkActivity (a : Nat) : LockService :=
  if hasOwnerActivity task.action.owner (some task.action.kind) (s.heap a).table then s.endTask n
  else s.setTask n (task.moveTo (.inactive a))

/-- The second half. -/
def unpin (a : Nat) : LockService :=
  (s.setAuthority a { s.heap a with pinnedOwners := (s.heap a).pinnedOwners.erase task.action.owner }).endTask n

end

/-- A renewal of the lease of an authority. -/
def renew (a : Nat) (renewed : LockAuthority.Renewed) : LockService :=
  { s.setAuthority a renewed.1 with
    invalidating := if renewed.2 then insert a s.invalidating else s.invalidating }

/-- The authority that a release of a session looks at. -/
def releasedAuthority (epoch : Option UInt64) : Option Nat :=
  s.installed.filter fun a => epoch.all ((s.heap a).epoch == ·)

end

/-- `known_session`. -/
def knownSession (authority : LockAuthority) (session : String) : Bool :=
  decide (∃ owner ∈ authority.pinnedOwners, owner.ingressSessionId = session) ||
    decide (∃ waiter ∈ authority.waiters, waiter.ingressSessionId = session)

/-- The records of a session are dropped. -/
def retainSession (authority : LockAuthority) (session : String) : LockAuthority :=
  { authority with
    pinnedOwners := authority.pinnedOwners.filter fun owner => owner.ingressSessionId ≠ session
    waiters := authority.waiters.filter fun waiter => waiter.ingressSessionId ≠ session }

/-- No thread has a reference to the authority. -/
def unreferenced (s : LockService) (a : Nat) : Bool :=
  s.tasks.entries.all (fun entry => entry.2.phase.authority != some a) &&
    s.releases.entries.all fun entry => entry.2.phase.authority != some a

/-- The steps. A step of a thread names what it finds there. -/
inductive Event
  | begin (n : Nat) (request : LockRequest) (waiter : Option LockWaiterId) (lease : WriteLease) (checked : Bool)
  | acquire (n : Nat) (task : LockTask) (lease : WriteLease) (full : Bool)
  | ensure (n : Nat) (task : LockTask) (a : Nat)
  | abandon (n : Nat) (task : LockTask)
  | registerWaiter (n : Nat) (task : LockTask) (request : LockRequest) (waiterId : LockWaiterId) (a : Nat)
      (precancelled : Bool)
  | setNonblocking (n : Nat) (task : LockTask) (request : LockRequest) (a : Nat)
  | setBlocking (n : Nat) (task : LockTask) (request : LockRequest) (waiterId : LockWaiterId) (a : Nat)
  | wake (n : Nat) (task : LockTask) (request : LockRequest) (waiterId : LockWaiterId) (a : Nat)
  | unpinWaiter (n : Nat) (task : LockTask) (request : LockRequest) (waiterId : LockWaiterId) (a : Nat) (ok : Bool)
  | pin (n : Nat) (task : LockTask) (a : Nat)
  | checkActivity (n : Nat) (task : LockTask) (a : Nat)
  | unpin (n : Nat) (task : LockTask) (a : Nat)
  | beginRelease (n : Nat) (epoch : Option UInt64) (kind : FileLockKind) (owner : FileLockOwner) (a : Nat)
  | releaseOwner (n : Nat) (task : LockTask) (kind : FileLockKind) (owner : FileLockOwner) (a : Nat)
  | cancelWaiter (a : Nat) (waiterId : LockWaiterId)
  | acknowledgeWaiter (a : Nat) (waiterId : LockWaiterId)
  | forgetWaiter (a : Nat) (waiterId : LockWaiterId)
  | renewSuccess (a : Nat) (now : UInt64) (renewed : WriteLease)
  | renewFailure (a : Nat) (now : UInt64) (attempted : WriteLease) (error : Error)
  | expire (a : Nat) (now : UInt64)
  | invalidate (a : Nat)
  | reclaim (a : Nat)
  | closeSession (session : String)
  | beginSessionRelease (n : Nat) (session : String) (epoch : Option UInt64)
  | findAuthority (n : Nat) (release : SessionRelease)
  | checkKnown (n : Nat) (release : SessionRelease) (a : Nat)
  | releaseTable (n : Nat) (release : SessionRelease) (a : Nat)
  | retainPins (n : Nat) (release : SessionRelease) (a : Nat)

/-- A step that is taken under a condition. -/
def guarded (p : Prop) [Decidable p] (t : LockService) : Option LockService := if p then some t else none

theorem guarded_eq_some {p : Prop} [Decidable p] {t u} : guarded p t = some u ↔ p ∧ t = u := by
  simp [guarded]

/-- A thread is at a place. -/
def At (s : LockService) (n : Nat) (task : LockTask) (phase : TaskPhase) : Prop :=
  s.tasks.lookup n = some task ∧ task.phase = phase

instance (s : LockService) (n : Nat) (task : LockTask) (phase : TaskPhase) : Decidable (s.At n task phase) :=
  inferInstanceAs (Decidable (_ ∧ _))

/-- A release of a session is at a place. -/
def Closes (s : LockService) (n : Nat) (release : SessionRelease) (phase : ClosePhase) : Prop :=
  s.releases.lookup n = some release ∧ release.phase = phase

instance (s : LockService) (n : Nat) (release : SessionRelease) (phase : ClosePhase) :
    Decidable (s.Closes n release phase) :=
  inferInstanceAs (Decidable (_ ∧ _))

def step (s : LockService) : Event → Option LockService
  | .begin n request waiter lease checked =>
    guarded (s.tasks.lookup n = none ∧
        (checked = true → request.lockType ≠ .unlock → s.sessionOpen request.owner.ingressSessionId = true))
      (s.setTask n ⟨.set request waiter, checked, .leased lease⟩)
  | .acquire n task lease full => guarded (s.At n task (.leased lease)) (s.acquire n task lease full)
  | .ensure n task a =>
    guarded (s.At n task (.found a))
      (if s.sessionOpen task.action.session then s.setTask n (task.moveTo (.opened a)) else s.endTask n)
  | .abandon n task => guarded (s.tasks.lookup n = some task ∧ task.phase.isEarly = true) (s.endTask n)
  | .registerWaiter n task request waiterId a precancelled =>
    guarded (s.At n task (.opened a) ∧ task.action = .set request (some waiterId) ∧
        waiterId.ingressSessionId = request.owner.ingressSessionId)
      (s.registerWaiter n task waiterId a precancelled)
  | .setNonblocking n task request a =>
    guarded (s.At n task (.opened a) ∧ task.action = .set request none)
      (s.afterSet n task a (Locks.setlkNonblocking .default request (s.heap a).table))
  | .setBlocking n task request waiterId a =>
    guarded (s.At n task (.registered a) ∧ task.action = .set request (some waiterId))
      (s.afterPass n task a (Locks.setlkBlocking .default request waiterId (s.heap a).table))
  | .wake n task request waiterId a =>
    guarded (s.At n task (.waiting a) ∧ task.action = .set request (some waiterId))
      (s.afterPass n task a (setlkBlockingWake .default request waiterId (s.heap a).table))
  | .unpinWaiter n task request waiterId a ok =>
    guarded (s.At n task (.returned a ok) ∧ task.action = .set request (some waiterId))
      (s.unpinWaiter n task waiterId a ok)
  | .pin n task a => guarded (s.At n task (.applied a) ∧ task.action.unlocks = false) (s.pin n task a)
  | .checkActivity n task a => guarded (s.At n task (.applied a) ∧ task.action.unlocks = true)
    (s.checkActivity n task a)
  | .unpin n task a => guarded (s.At n task (.inactive a)) (s.unpin n task a)
  | .beginRelease n epoch kind owner a =>
    guarded (s.tasks.lookup n = none ∧ s.releasedAuthority epoch = some a)
      (s.setTask n ⟨.release kind owner, true, .opened a⟩)
  | .releaseOwner n task kind owner a =>
    guarded (s.At n task (.opened a) ∧ task.action = .release kind owner)
      ((s.setTable a (Locks.releaseOwner kind owner (s.heap a).table)).setTask n (task.moveTo (.applied a)))
  | .cancelWaiter a waiterId =>
    some (s.setTable a (cancelWaiterWithOutcome .default waiterId (s.heap a).table).2)
  | .acknowledgeWaiter a waiterId => some (s.setTable a (Locks.acknowledgeWaiter waiterId (s.heap a).table).2)
  | .forgetWaiter a waiterId =>
    some (s.setAuthority a { s.heap a with waiters := (s.heap a).waiters.erase waiterId })
  | .renewSuccess a now renewed => guarded (a < s.next) (s.renew a ((s.heap a).applyLockRenewalSuccess now renewed))
  | .renewFailure a now attempted error =>
    guarded (a < s.next) (s.renew a ((s.heap a).applyLockRenewalFailure now attempted error))
  | .expire a now => guarded (a < s.next) (s.renew a ((s.heap a).expireLockAuthorityIfDue now))
  | .invalidate a =>
    guarded (a ∈ s.invalidating)
      { s.setTable a (Locks.invalidate (s.heap a).table) with invalidating := s.invalidating.erase a }
  | .reclaim a =>
    guarded (s.installed = some a ∧ isIdle (s.heap a).table = true ∧ s.unreferenced a = true)
      { s with installed := none }
  | .closeSession session => some (s.noteClosed session)
  | .beginSessionRelease n session epoch =>
    guarded (s.releases.lookup n = none) ((s.noteClosed session).setRelease n ⟨session, epoch, .closed⟩)
  | .findAuthority n release =>
    guarded (s.Closes n release .closed)
      (match s.releasedAuthority release.epoch with
        | none => s.endRelease n release
        | some a => s.setRelease n { release with phase := .found a })
  | .checkKnown n release a =>
    guarded (s.Closes n release (.found a))
      (if release.epoch.isNone ∨ knownSession (s.heap a) release.session = true then
        s.setRelease n { release with phase := .known a }
      else s.endRelease n release)
  | .releaseTable n release a =>
    guarded (s.Closes n release (.known a))
      ((s.setTable a (Locks.releaseSession .default release.session (s.heap a).table)).setRelease n
        { release with phase := .cleaned a })
  | .retainPins n release a =>
    guarded (s.Closes n release (.cleaned a))
      ((s.setAuthority a (retainSession (s.heap a) release.session)).endRelease n release)

end LockService

end Afs.Locks
