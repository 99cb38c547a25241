import Afs.Node.Locks.ServiceRuns

/-!
# `Node.Locks.Epochs` — the epoch of the installed lock authority

Meta answers a lock request with a lease before the authorities are locked, so that two requests may bring their
leases in the opposite order. `local_lock_authority` replaces an authority of any other epoch, also by one of an older
lease: the epoch falls, and every lock that was granted under the newer lease is gone. A step keeps the epoch and the
locks exactly if it brings no older lease than the installed one (`NotOlder`).
-/

namespace Afs.Locks

/-- The owner has a lock of the kind on the byte. -/
def HeldBy (table : LockTableState) (kind : FileLockKind) (owner : FileLockOwner) (byte : Nat) : Prop :=
  ∃ lockType, lockView.Held table.locks ⟨kind, owner, lockType⟩ byte

variable {limits : LockTableLimits} {request : LockRequest} {waiterId : LockWaiterId} {state state' : LockTableState}
  {kind : FileLockKind} {owner : FileLockOwner} {byte : Nat}

/-- The request unlocks the byte for the owner. -/
def LockRequest.Unlocks (request : LockRequest) (kind : FileLockKind) (owner : FileLockOwner) (byte : Nat) : Prop :=
  request.lockType = .unlock ∧ request.kind = kind ∧ request.owner = owner ∧ request.range.Contains byte

theorem Applied.heldBy (h : Applied limits request state state') (htidy : LocksTidy state.locks)
    (hheld : HeldBy state kind owner byte) : HeldBy state' kind owner byte ∨ request.Unlocks kind owner byte := by
  obtain ⟨lockType, hheld⟩ := hheld
  by_cases hown : kind = request.kind ∧ owner = request.owner ∧ request.range.Contains byte
  · obtain ⟨rfl, rfl, hcontains⟩ := hown
    by_cases hunlock : request.lockType = .unlock
    · exact .inr ⟨hunlock, rfl, rfl, hcontains⟩
    · -- the bytes of the owner are covered by the new lock
      exact .inl ⟨request.lockType, (h.held htidy _ _).mpr (.inr ⟨hunlock, rfl, hcontains⟩)⟩
  · exact .inl ⟨lockType, (h.held htidy _ _).mpr (.inl ⟨hheld, hown⟩)⟩

theorem heldBy_setlkNonblocking (htidy : LocksTidy state.locks) (hheld : HeldBy state kind owner byte) :
    HeldBy (setlkNonblocking limits request state).2 kind owner byte ∨ request.Unlocks kind owner byte := by
  obtain ⟨-, happlied, -⟩ | ⟨-, hsame⟩ := setlkNonblocking_spec limits request state
  · exact happlied.heldBy htidy hheld
  · exact .inl (by rwa [hsame])

theorem PassSpec.heldBy {registered pass}
    (h : PassSpec limits request waiterId registered state pass) (htidy : LocksTidy state.locks)
    (hheld : HeldBy state kind owner byte) : HeldBy pass.2 kind owner byte ∨ request.Unlocks kind owner byte := by
  by_cases hok : pass.1 = .done (.ok ())
  · exact (h.ok hok).heldBy htidy hheld
  · exact .inl (by rwa [HeldBy, h.other hok])

/-- Locks that are filtered keep the bytes of the owners that stay. -/
theorem heldBy_filter {keep} (hlocks : state'.locks = state.locks.filter keep)
    (hkeep : ∀ lock, lock.kind = kind → lock.owner = owner → keep lock = true) (hheld : HeldBy state kind owner byte) :
    HeldBy state' kind owner byte := by
  obtain ⟨lockType, lock, hlock, htag, hcovers⟩ := hheld
  refine ⟨lockType, lock, ?_, htag, hcovers⟩
  rw [hlocks]
  exact List.mem_filter.mpr ⟨hlock, hkeep lock (congrArg LockTag.kind htag) (congrArg LockTag.owner htag)⟩

theorem heldBy_releaseSession {session} (hsession : owner.ingressSessionId ≠ session)
    (hheld : HeldBy state kind owner byte) : HeldBy (releaseSession limits session state) kind owner byte := by
  unfold releaseSession
  split
  · exact hheld
  · refine heldBy_filter rfl (fun lock _ howner => ?_) hheld
    rw [howner]
    simpa using hsession

namespace LockService

open LockAuthority

variable {s t : LockService} {a n : Nat} {e : Event}

/-- **What may drop a lock** of the installed authority. -/
inductive Dropped (s : LockService) (a : Nat) (kind : FileLockKind) (owner : FileLockOwner) (byte : Nat) : Event → Prop
  | unlocked {n task request} (h : request.Unlocks kind owner byte) :
      Dropped s a kind owner byte (.setNonblocking n task request a)
  | unlockedBlocking {n task request waiterId}
      (h : request.Unlocks kind owner byte) : Dropped s a kind owner byte (.setBlocking n task request waiterId a)
  | unlockedLater {n task request waiterId}
      (h : request.Unlocks kind owner byte) : Dropped s a kind owner byte (.wake n task request waiterId a)
  | ownerReleased {n task} : Dropped s a kind owner byte (.releaseOwner n task kind owner a)
  | sessionReleased {n release} (h : release.session = owner.ingressSessionId) :
      Dropped s a kind owner byte (.releaseTable n release a)
  /-- The lease is lost. -/
  | lost (h : (s.heap a).lastError.isSome) : Dropped s a kind owner byte (.invalidate a)
  /-- An authority of a greater epoch is installed. -/
  | superseded {n task lease full} (h : (s.heap a).epoch < lease.leaseEpoch) :
      Dropped s a kind owner byte (.acquire n task lease full)

/-- **The epoch does not regress** in a step, and no lock is dropped but for a reason. -/
structure EpochKept (s : LockService) (e : Event) (t : LockService) : Prop where
  epoch : ∀ a b, s.installed = some a → t.installed = some b → (s.heap a).epoch ≤ (t.heap b).epoch
  locks : ∀ a kind owner byte, s.installed = some a → HeldBy (s.heap a).table kind owner byte →
    (t.installed = some a ∧ HeldBy (t.heap a).table kind owner byte) ∨ Dropped s a kind owner byte e

/-- The lease that a request brings is not older than that of the installed authority. -/
def NotOlder (s : LockService) : Event → Prop
  | .acquire _ _ lease _ => ∀ a, s.installed = some a → (s.heap a).epoch ≤ lease.leaseEpoch
  | _ => True

theorem EpochKept.of_heap (hheap : t.heap = s.heap) (hinstalled : t.installed = s.installed) : EpochKept s e t where
  epoch := by
    intro a b ha hb
    rw [hinstalled, ha] at hb
    cases hb
    rw [hheap]
    exact UInt64.le_refl _
  locks := fun a kind owner byte ha hheld => .inl ⟨hinstalled.trans ha, hheap.symm ▸ hheld⟩

section

variable {x : LockAuthority} (hheap : t.heap = Function.update s.heap a x) (hinstalled : t.installed = s.installed)
    (hepoch : x.epoch = (s.heap a).epoch)

include hheap hinstalled hepoch

/-- One authority changes. -/
theorem EpochKept.of_update
    (hlocks : ∀ kind owner byte, HeldBy (s.heap a).table kind owner byte →
      HeldBy x.table kind owner byte ∨ Dropped s a kind owner byte e) : EpochKept s e t where
  epoch := by
    intro b c hb hc
    rw [hinstalled, hb] at hc
    cases hc
    rw [hheap]
    by_cases hba : b = a
    · rw [hba, Function.update_self, hepoch]
      exact UInt64.le_refl _
    · rw [Function.update_of_ne hba]
      exact UInt64.le_refl _
  locks := by
    intro b kind owner byte hb hheld
    rw [hinstalled, hheap]
    by_cases hba : b = a
    · subst hba
      rw [Function.update_self]
      exact (hlocks kind owner byte hheld).imp_left fun hheld => ⟨hb, hheld⟩
    · rw [Function.update_of_ne hba]
      exact .inl ⟨hb, hheld⟩

/-- An authority goes on with the same locks. -/
theorem EpochKept.of_records (hlocks : x.table.locks = (s.heap a).table.locks) : EpochKept s e t :=
  .of_update hheap hinstalled hepoch fun _ _ _ hheld => .inl (by rwa [HeldBy, hlocks])

end

theorem EpochKept.renew {renewed} (h : Renewal (s.heap a) renewed) (hheap : t.heap = Function.update s.heap a renewed.1)
    (hinstalled : t.installed = s.installed) : EpochKept s e t :=
  .of_records hheap hinstalled h.epoch (by rw [h.table])

/-- `local_lock_authority` keeps the epoch and the locks exactly if the lease is not older. -/
theorem epochKept_acquire (n : Nat) (task : LockTask) (lease : WriteLease) (full : Bool) :
    EpochKept s (.acquire n task lease full) (s.acquire n task lease full) ↔
      NotOlder s (.acquire n task lease full) := by
  unfold LockService.acquire
  split
  · next a ha =>
    have hinstalled : ∀ b, s.installed = some b → b = a := fun b hb => Option.some.inj (hb.symm.trans ha)
    split
    · next hepoch =>
      refine iff_of_true ?_ fun b hb => hinstalled b hb ▸ hepoch ▸ UInt64.le_refl _
      split
      · exact .of_heap rfl rfl
      · next refreshed hrefreshed => exact .renew (refresh_ok hrefreshed) rfl rfl
    · next hepoch =>
      have hnew : (((s.setAuthority a (s.heap a).fence).install lease).setTask n (task.reach s.next)).heap s.next =
          .new lease := Function.update_self ..
      constructor
      · intro hkept b hb
        have hle := hkept.epoch b s.next hb rfl
        rwa [hnew] at hle
      · intro hle
        refine ⟨fun b c hb hc => ?_, fun b kind owner byte hb _ => .inr (.superseded ?_)⟩
        · have hc : c = s.next := (Option.some.inj hc).symm
          rw [hc, hnew]
          exact hle b hb
        · rw [hinstalled b hb]
          exact UInt64.lt_of_le_of_ne (hle a ha) hepoch
  · next hnone =>
    have hvacuous : ∀ a, s.installed ≠ some a := fun a ha => nomatch hnone.symm.trans ha
    refine iff_of_true ⟨fun a _ ha _ => absurd ha (hvacuous a), fun a _ _ _ ha _ => absurd ha (hvacuous a)⟩ ?_
    exact fun a ha => absurd ha (hvacuous a)

/-- A pass of a blocking request on one of the tables. -/
theorem EpochKept.afterPass {task pass}
    (hlocks : ∀ kind owner byte, HeldBy (s.heap a).table kind owner byte →
      HeldBy pass.2 kind owner byte ∨ Dropped s a kind owner byte e) : EpochKept s e (s.afterPass n task a pass) := by
  unfold LockService.afterPass
  split
  · exact .of_update rfl rfl rfl hlocks
  · exact .of_update rfl rfl rfl hlocks

/-- Every step from a sound state keeps the epoch and the locks exactly if it brings no older lease. -/
theorem Sound.epochKept_iff (h : Sound s) (hstep : s.step e = some t) : EpochKept s e t ↔ NotOlder s e := by
  cases e with (first | obtain ⟨hguard, rfl⟩ := guarded_eq_some.mp hstep | cases hstep)
  | acquire n task lease full =>
    exact epochKept_acquire n task lease full
  | begin | abandon | beginRelease =>
    exact iff_of_true (.of_heap rfl rfl) trivial
  | ensure | findAuthority | checkKnown =>
    refine iff_of_true ?_ trivial
    split
    · exact .of_heap rfl rfl
    · exact .of_heap rfl rfl
  | setNonblocking n task request a =>
    refine iff_of_true ?_ trivial
    have hlocks : ∀ kind owner byte, HeldBy (s.heap a).table kind owner byte →
        HeldBy (Locks.setlkNonblocking .default request (s.heap a).table).2 kind owner byte ∨
          Dropped s a kind owner byte (.setNonblocking n task request a) :=
      fun _ _ _ hheld => (heldBy_setlkNonblocking (h.tidy a) hheld).imp_right .unlocked
    unfold LockService.afterSet
    split
    · exact .of_update rfl rfl rfl hlocks
    · exact .of_update rfl rfl rfl hlocks
  | setBlocking _ _ _ _ a =>
    exact iff_of_true (.afterPass fun _ _ _ hheld =>
      (setlkBlocking_spec.heldBy (h.tidy a) hheld).imp_right .unlockedBlocking) trivial
  | wake n task request waiterId a =>
    obtain ⟨hat, haction⟩ := hguard
    have hrange := h.waiting n a request waiterId ⟨task, hat.1, hat.2, haction⟩
    exact iff_of_true (.afterPass fun _ _ _ hheld =>
      ((setlkBlockingWake_spec hrange).heldBy (h.tidy a) hheld).imp_right .unlockedLater) trivial
  | registerWaiter | unpinWaiter | pin | checkActivity =>
    refine iff_of_true ?_ trivial
    simp only [LockService.registerWaiter, LockService.unpinWaiter, LockService.pin, LockService.checkActivity]
    split
    · first | exact .of_heap rfl rfl | exact .of_records rfl rfl rfl rfl
    · first | exact .of_heap rfl rfl | exact .of_records rfl rfl rfl rfl
  | unpin | retainPins =>
    exact iff_of_true (.of_records rfl rfl rfl rfl) trivial
  | releaseOwner n task kind owner a =>
    refine iff_of_true (.of_update rfl rfl rfl fun kind' owner' byte hheld => ?_) trivial
    by_cases hown : kind' = kind ∧ owner' = owner
    · obtain ⟨rfl, rfl⟩ := hown
      exact .inr .ownerReleased
    · refine .inl (heldBy_filter rfl (fun lock hkind howner => ?_) hheld)
      rw [hkind, howner]
      simpa using not_and_or.mp hown
  | cancelWaiter =>
    exact iff_of_true (.of_records rfl rfl rfl locks_cancelWaiterWithOutcome) trivial
  | acknowledgeWaiter =>
    exact iff_of_true (.of_records rfl rfl rfl locks_acknowledgeWaiter) trivial
  | forgetWaiter =>
    exact iff_of_true (.of_records rfl rfl rfl rfl) trivial
  | renewSuccess a now renewed =>
    exact iff_of_true (.renew (renewal_success renewed) rfl rfl) trivial
  | renewFailure a now attempted error =>
    exact iff_of_true (.renew (renewal_failure attempted error) rfl rfl) trivial
  | expire a now =>
    exact iff_of_true (.renew renewal_expire rfl rfl) trivial
  | invalidate a =>
    exact iff_of_true (.of_update rfl rfl rfl fun _ _ _ _ => .inr (.lost (h.ended a hguard))) trivial
  | reclaim a =>
    obtain ⟨ha, hidle, -⟩ := hguard
    refine iff_of_true ⟨fun _ _ _ hb => (nomatch hb), fun b kind owner byte hb hheld => ?_⟩ trivial
    -- an idle table has no locks
    rw [Option.some.inj (hb.symm.trans ha)] at hheld
    obtain ⟨lockType, lock, hlock, -⟩ := hheld
    rw [locks_of_isIdle hidle] at hlock
    cases hlock
  | closeSession session =>
    obtain ⟨sessions, admission, hnote⟩ := sessions_noteClosed s session
    rw [hnote]
    exact iff_of_true (.of_heap rfl rfl) trivial
  | beginSessionRelease n session epoch =>
    obtain ⟨sessions, admission, hnote⟩ := sessions_noteClosed s session
    rw [hnote]
    exact iff_of_true (.of_heap rfl rfl) trivial
  | releaseTable n release a =>
    refine iff_of_true (.of_update rfl rfl rfl fun kind owner byte hheld => ?_) trivial
    by_cases hsession : release.session = owner.ingressSessionId
    · exact .inr (.sessionReleased hsession)
    · exact .inl (heldBy_releaseSession (Ne.symm hsession) hheld)

/-- **The epoch of the lock authority does not regress**: whatever the threads do and however late Meta's answers
    arrive, a step keeps the epoch of the installed authority and every lock that nothing of `Dropped` takes away,
    exactly if it does not bring an older lease than the installed one. -/
theorem lock_epoch_never_regresses (lease : WriteLease) (h : Runs.Run step (fun _ _ => True) (.new lease) s)
    (hstep : s.step e = some t) : EpochKept s e t ↔ NotOlder s e := by
  have hsound : Sound s := h.invariant (fun _ _ _ hsound _ hstep => hsound.step hstep) (.new lease)
  exact hsound.epochKept_iff hstep

/-- A lease of the node, of some epoch. -/
def leaseOf (epoch : UInt64) : WriteLease := ⟨⟨"file"⟩, "node", "session", epoch, 100⟩

def writeLock : LockRequest := ⟨.posix, ⟨"mount", 1⟩, 1, ⟨0, 9⟩, .write⟩

/-- A request that brings a lease. -/
def bringing (epoch : UInt64) : LockTask := ⟨.set writeLock none, true, .leased (leaseOf epoch)⟩

/-- The second request brings its lease first and locks the first ten bytes. -/
def overtaking (first second : UInt64) : List Event :=
  .begin 0 writeLock none (leaseOf first) true :: locking 1 writeLock (leaseOf second) 0

theorem lock_epoch_never_regresses_of_newer : ∃ s t, Runs.execute step (overtaking 2 1) (.new (leaseOf 0)) = some s ∧
    s.step (.acquire 0 (bringing 2) (leaseOf 2) false) = some t ∧ s.installed = some 0 ∧ t.installed = some 1 ∧
    EpochKept s (.acquire 0 (bringing 2) (leaseOf 2) false) t := by
  refine ⟨_, _, rfl, rfl, rfl, rfl, ?_⟩
  have hrun := Runs.run_of_execute (fun _ _ => True) (fun _ _ _ => trivial)
    (show Runs.execute step (overtaking 2 1) (.new (leaseOf 0)) = some _ from rfl)
  refine (lock_epoch_never_regresses (leaseOf 0) hrun rfl).mpr fun a ha => ?_
  cases ha
  decide

/-- The lease of the first request is older: the epoch falls from two to one, and the lock is gone. -/
theorem older_lease_drops_locks : ∃ s t, Runs.execute step (overtaking 1 2) (.new (leaseOf 0)) = some s ∧
    s.step (.acquire 0 (bringing 1) (leaseOf 1) false) = some t ∧
    (s.installed = some 0 ∧ (s.heap 0).epoch = 2 ∧ (s.heap 0).table.locks.length = 1) ∧
    (t.installed = some 1 ∧ (t.heap 1).epoch = 1 ∧ (t.heap 0).table.locks = [] ∧ (t.heap 1).table.locks = []) ∧
    ¬EpochKept s (.acquire 0 (bringing 1) (leaseOf 1) false) t := by
  refine ⟨_, _, rfl, rfl, ⟨rfl, rfl, rfl⟩, ⟨rfl, rfl, rfl, rfl⟩, fun hkept => ?_⟩
  have hle : (2 : UInt64) ≤ 1 := hkept.epoch 0 1 rfl rfl
  exact absurd hle (by decide)

end LockService

end Afs.Locks
