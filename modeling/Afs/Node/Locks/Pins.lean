import Afs.Node.Locks.ServiceRuns
import Afs.Node.Locks.Sessions

/-!
# `Node.Locks.Pins` — the owners on record

A lock is granted in the table and its owner is pinned in a later critical section; an owner is unpinned after a look
at the table in an earlier one. `unpin_owner_if_inactive` looks at one kind of locks only, and the owner may get a
lock after the look. As long as an owner is unpinned only when it has no activity of any kind, every owner of a lock
is on record or its thread is about to pin it.
-/

namespace Afs.Locks

open Function

variable {phase : TaskPhase} {x : LockAuthority} {table : LockTableState} {request : LockRequest}
  {release other : SessionRelease}

/-- The thread has got a lock for the owner and pins it next. -/
def LockTask.Pins (task : LockTask) (a : Nat) (owner : FileLockOwner) : Prop :=
  task.action.unlocks = false ∧ task.action.owner = owner ∧ (task.phase = .returned a true ∨ task.phase = .applied a)

/-- A thread that is registered as a waiter has the session of its owner. -/
def LockTask.Matches (task : LockTask) : Prop :=
  ∀ a request waiterId, task.phase = .registered a ∨ task.phase = .waiting a →
    task.action = .set request (some waiterId) →
    waiterId.ingressSessionId = request.owner.ingressSessionId

namespace LockService

open LockAuthority

variable {s t : LockService} {a n : Nat} {task : LockTask} {tasks tasks' : AList fun _ : Nat => LockTask}

def AboutToPin (tasks : AList fun _ : Nat => LockTask) (a : Nat) (owner : FileLockOwner) : Prop :=
  ∃ n task, tasks.lookup n = some task ∧ task.Pins a owner

/-- What becomes of the threads in a step: those that are about to pin still are. -/
structure Threads (tasks tasks' : AList fun _ : Nat => LockTask) : Prop where
  pins : ∀ a owner, AboutToPin tasks a owner → AboutToPin tasks' a owner
  matched : ∀ n task, tasks'.lookup n = some task → tasks.lookup n = some task ∨ task.Matches

theorem Threads.refl (tasks : AList fun _ : Nat => LockTask) : Threads tasks tasks := ⟨fun _ _ h => h, fun _ _ => .inl⟩

/-- A thread that is not about to pin goes on, or one that is about to pin still is. -/
theorem Threads.set (hpins : ∀ old, s.tasks.lookup n = some old → ∀ a owner, old.Pins a owner → task.Pins a owner)
    (hmatches : task.Matches) : Threads s.tasks (s.setTask n task).tasks where
  pins := by
    rintro a owner ⟨m, old, hold, hp⟩
    by_cases hm : m = n
    · exact ⟨n, task, lookup_setTask.mpr (.inl ⟨rfl, rfl⟩), hpins old (hm ▸ hold) a owner hp⟩
    · exact ⟨m, old, lookup_setTask.mpr (.inr ⟨hm, hold⟩), hp⟩
  matched := by
    intro m other hother
    rcases lookup_setTask.mp hother with ⟨-, rfl⟩ | ⟨-, hother⟩
    · exact .inr hmatches
    · exact .inl hother

theorem Threads.end (hpins : ∀ old, s.tasks.lookup n = some old → ∀ a owner, ¬old.Pins a owner) :
    Threads s.tasks (s.endTask n).tasks where
  pins := by
    rintro a owner ⟨m, old, hold, hp⟩
    refine ⟨m, old, lookup_endTask.mpr ⟨?_, hold⟩, hp⟩
    rintro rfl
    exact hpins old hold a owner hp
  matched := fun m other hother => .inl (lookup_endTask.mp hother).2

/-- A phase in which no owner is about to be pinned. -/
def TaskPhase.isIdle : TaskPhase → Bool
  | .returned _ true | .applied _ => false
  | _ => true

theorem At.not_pins (h : s.At n task phase) (hphase : TaskPhase.isIdle phase = true) (old : LockTask)
    (hold : s.tasks.lookup n = some old) (b : Nat) (owner : FileLockOwner) : ¬old.Pins b owner := by
  rintro ⟨-, -, hpins⟩
  cases h.1.symm.trans hold
  rw [h.2] at hpins
  rcases hpins with rfl | rfl <;> cases hphase

theorem Threads.move {phase'} (h : s.At n task phase) (hphase : TaskPhase.isIdle phase = true)
    (hmatches : (task.moveTo phase').Matches) : Threads s.tasks (s.setTask n (task.moveTo phase')).tasks :=
  .set (fun old hold b owner hp => absurd hp (h.not_pins hphase old hold b owner)) hmatches

theorem Threads.finish (h : s.At n task phase) (hphase : TaskPhase.isIdle phase = true) :
    Threads s.tasks (s.endTask n).tasks := .end (h.not_pins hphase)

/-- **Every owner of a lock is on record**, or about to be. -/
structure Pinned (s : LockService) : Prop where
  covered : ∀ a, (s.heap a).lastError = none → ∀ lock ∈ (s.heap a).table.locks,
    lock.owner ∈ (s.heap a).pinnedOwners ∨ AboutToPin s.tasks a lock.owner
  matched : ∀ n task, s.tasks.lookup n = some task → task.Matches
  /-- A release that has cleaned a table will find no lock of its session. -/
  cleaned : ∀ n release a, s.Closes n release (.cleaned a) → Shut release.session (s.heap a).table
  known : ∀ n release a, s.releases.lookup n = some release → release.phase.authority = some a → a < s.next

/-- An owner is unpinned when it has no activity at all. -/
def UnpinsInactive (s : LockService) : Event → Prop
  | .unpin _ task a => hasOwnerActivity task.action.owner none (s.heap a).table = false
  | _ => True

theorem Pinned.new (lease : WriteLease) : Pinned (.new lease) where
  covered := fun _ _ => nofun
  matched := nofun
  cleaned := by
    rintro n release a ⟨hrelease, -⟩
    cases hrelease
  known := nofun

/-- The threads and the releases change, and no authority. -/
theorem Pinned.frame (h : Pinned s) (hheap : t.heap = s.heap) (hnext : t.next = s.next)
    (hthreads : Threads s.tasks t.tasks)
    (hreleases : ∀ n release, t.releases.lookup n = some release → s.releases.lookup n = some release ∨
      ∀ a, release.phase.authority = some a → a < s.next ∧
        (release.phase = .cleaned a → Shut release.session (s.heap a).table)) : Pinned t where
  covered := by
    intro a herror lock hlock
    rw [hheap] at herror hlock ⊢
    exact (h.covered a herror lock hlock).imp_right (hthreads.pins a lock.owner)
  matched := fun m other hother => (hthreads.matched m other hother).elim (h.matched m other) id
  cleaned := by
    rintro m release a ⟨hrelease, hphase⟩
    rw [hheap]
    exact (hreleases m release hrelease).elim (fun hbefore => h.cleaned m release a ⟨hbefore, hphase⟩)
      fun hother => (hother a (by rw [hphase]; rfl)).2 hphase
  known := by
    intro m release a hrelease ha
    rw [hnext]
    exact (hreleases m release hrelease).elim (fun hbefore => h.known m release a hbefore ha) fun hother =>
      (hother a ha).1

theorem Pinned.threads (h : Pinned s) (hheap : t.heap = s.heap) (hnext : t.next = s.next)
    (hreleases : t.releases = s.releases) (hthreads : Threads s.tasks t.tasks) : Pinned t :=
  h.frame hheap hnext hthreads fun _ _ hrelease => .inl (hreleases ▸ hrelease)

section

variable (h : Pinned s) (hheap : t.heap = Function.update s.heap a x) (hnext : t.next = s.next)
    (hreleases : t.releases = s.releases) (hthreads : Threads s.tasks t.tasks)

include h hheap hnext hreleases hthreads

/-- One authority changes. -/
theorem Pinned.update
    (hlocks : x.lastError = none → (s.heap a).lastError = none ∧ ∀ lock ∈ x.table.locks,
      AboutToPin t.tasks a lock.owner ∨ (∃ old ∈ (s.heap a).table.locks, old.owner = lock.owner) ∧
        (lock.owner ∈ (s.heap a).pinnedOwners → lock.owner ∈ x.pinnedOwners))
    (hshut : ∀ session, Shut session (s.heap a).table → Shut session x.table) : Pinned t where
  covered := by
    intro b herror lock hlock
    rw [hheap] at herror hlock ⊢
    by_cases hb : b = a
    · subst hb
      rw [update_self] at herror hlock ⊢
      obtain ⟨hbefore, hlocks⟩ := hlocks herror
      rcases hlocks lock hlock with hpins | ⟨⟨old, hold, howner⟩, hpinned⟩
      · exact .inr hpins
      · exact (howner ▸ h.covered b hbefore old hold).imp hpinned (hthreads.pins b lock.owner)
    · rw [update_of_ne hb] at herror hlock ⊢
      exact (h.covered b herror lock hlock).imp_right (hthreads.pins b lock.owner)
  matched := fun m other hother => (hthreads.matched m other hother).elim (h.matched m other) id
  cleaned := by
    rintro m release b ⟨hrelease, hphase⟩
    have hbefore := h.cleaned m release b ⟨hreleases ▸ hrelease, hphase⟩
    rw [hheap]
    by_cases hb : b = a
    · subst hb
      rw [update_self]
      exact hshut _ hbefore
    · rwa [update_of_ne hb]
  known := fun m release b hrelease hb => hnext.symm ▸ h.known m release b (hreleases ▸ hrelease) hb

/-- The table of an authority stays, and so do its pins or the owners that are unpinned have no lock. -/
theorem Pinned.records (htable : x.table = (s.heap a).table)
    (herror : x.lastError = none → (s.heap a).lastError = none)
    (hpinned : ∀ lock ∈ (s.heap a).table.locks, lock.owner ∈ (s.heap a).pinnedOwners → x.lastError = none →
      lock.owner ∈ x.pinnedOwners) : Pinned t := by
  refine h.update hheap hnext hreleases hthreads (fun hnone => ⟨herror hnone, fun lock hlock => ?_⟩)
    fun _ => htable ▸ id
  rw [htable] at hlock
  exact .inr ⟨⟨lock, hlock, rfl⟩, fun hmem => hpinned lock hlock hmem hnone⟩

end

theorem Pinned.renew (h : Pinned s) {renewed} (hrenewal : Renewal (s.heap a) renewed)
    (hheap : t.heap = Function.update s.heap a renewed.1) (hnext : t.next = s.next)
    (hreleases : t.releases = s.releases) (hthreads : Threads s.tasks t.tasks) : Pinned t := by
  refine h.records hheap hnext hreleases hthreads hrenewal.table ?_ ?_
  · cases hrenewal with
    | same | extended => exact id
    | ended => exact nofun
  · cases hrenewal with
    | same | extended => exact fun _ _ hmem _ => hmem
    | ended => exact fun _ _ _ => nofun

/-- A call that only takes away. -/
theorem Pinned.shrinks (h : Pinned s) (hshrinks : Shrinks (s.heap a).table table)
    (hshut : ∀ session, Shut session (s.heap a).table → Shut session table)
    (hheap : t.heap = Function.update s.heap a ((s.heap a).withTable table)) (hnext : t.next = s.next)
    (hreleases : t.releases = s.releases) (hthreads : Threads s.tasks t.tasks) : Pinned t := by
  refine h.update hheap hnext hreleases hthreads (fun hnone => ⟨hnone, fun lock hlock => .inr ⟨?_, id⟩⟩) hshut
  exact ⟨lock, hshrinks.locks.subset hlock, rfl⟩

/-- A call that may grant a lock to the thread. -/
theorem Pinned.call (h : Pinned s) {waiter} {granted : Prop}
    (haction : task.action = .set request waiter) (hgrants : Grants request granted (s.heap a).table table)
    (hshut : ∀ session, Shut session (s.heap a).table → Shut session table)
    (hgranted : granted → phase = .returned a true ∨ phase = .applied a)
    (hthreads : Threads s.tasks (s.setTask n (task.moveTo phase)).tasks) :
    Pinned ((s.setTable a table).setTask n (task.moveTo phase)) := by
  refine h.update rfl rfl rfl hthreads (fun hnone => ⟨hnone, fun lock hlock => ?_⟩) hshut
  rcases hgrants lock hlock with ⟨old, hold, howner, -⟩ | ⟨hok, hlockType, howner⟩
  · exact .inr ⟨⟨old, hold, howner⟩, id⟩
  · refine .inl ⟨n, _, lookup_setTask.mpr (.inl ⟨rfl, rfl⟩), ?_, ?_, hgranted hok⟩
    · show task.action.unlocks = false
      simp [haction, LockAction.unlocks, hlockType]
    · show task.action.owner = lock.owner
      rw [haction, howner]
      rfl

theorem matches_of_phase (hphase : ∀ a, task.phase ≠ .registered a ∧ task.phase ≠ .waiting a) : task.Matches :=
  fun a _ _ h => h.elim (fun h => absurd h (hphase a).1) fun h => absurd h (hphase a).2

theorem Pinned.afterSet (h : Pinned s) (htidy : LocksTidy (s.heap a).table.locks) (hat : s.At n task (.opened a))
    (haction : task.action = .set request none) :
    Pinned (s.afterSet n task a (Locks.setlkNonblocking .default request (s.heap a).table)) := by
  unfold LockService.afterSet
  split
  · exact h.call haction (grants_setlkNonblocking htidy) (fun _ hshut => hshut.setlkNonblocking htidy)
      (fun _ => .inr rfl)
      (.move hat rfl (matches_of_phase fun _ => ⟨nofun, nofun⟩))
  · next e herror =>
    -- a refused request leaves the table as it is
    obtain ⟨hok, -⟩ | ⟨-, hsame⟩ := setlkNonblocking_spec .default request (s.heap a).table
    · rw [hok] at herror
      cases herror
    · rw [hsame]
      exact h.records rfl rfl rfl (.finish hat rfl) rfl id fun _ _ hmem _ => hmem

theorem Pinned.afterPass (h : Pinned s) (htidy : LocksTidy (s.heap a).table.locks) {waiterId registered pass}
    (hat : s.At n task phase) (hphase : TaskPhase.isIdle phase = true)
    (haction : task.action = .set request (some waiterId))
    (hmatch : waiterId.ingressSessionId = request.owner.ingressSessionId)
    (hspec : PassSpec .default request waiterId registered (s.heap a).table pass)
    (hshut : ∀ session, Shut session (s.heap a).table → Shut session pass.2) : Pinned (s.afterPass n task a pass) := by
  have hmatches : ∀ phase', (task.moveTo phase').Matches := by
    intro phase' b other w _ hset
    cases haction.symm.trans hset
    exact hmatch
  unfold LockService.afterPass
  split
  · next result hdone =>
    refine h.call haction (hspec.grants htidy) hshut (fun hok => .inl ?_) (.move hat hphase (hmatches _))
    rw [hdone] at hok
    cases hok
    rfl
  · next hwait =>
    refine h.call haction (hspec.grants htidy) hshut (fun hok => ?_) (.move hat hphase (hmatches _))
    rw [hwait] at hok
    cases hok

/-- The thread pins its owner, unless the authority has ended. -/
theorem Pinned.pin (h : Pinned s) (hat : s.At n task (.applied a)) : Pinned (s.pin n task a) := by
  have hsome : ∀ b owner, AboutToPin s.tasks b owner → AboutToPin (s.endTask n).tasks b owner ∨
    b = a ∧ owner = task.action.owner := by
    rintro b owner ⟨m, other, hother, hp⟩
    by_cases hm : m = n
    · subst hm
      cases hat.1.symm.trans hother
      obtain ⟨-, howner, hphase⟩ := hp
      rw [hat.2] at hphase
      simp only [reduceCtorEq, TaskPhase.applied.injEq, false_or] at hphase
      exact .inr ⟨hphase.symm, howner.symm⟩
    · exact .inl ⟨m, other, lookup_endTask.mpr ⟨hm, hother⟩, hp⟩
  have hmatched : ∀ m other, (s.endTask n).tasks.lookup m = some other → other.Matches :=
    fun m other hother => h.matched m other (lookup_endTask.mp hother).2
  unfold LockService.pin
  split
  · next herror =>
    refine ⟨fun b hnone lock hlock => ?_, hmatched, h.cleaned, h.known⟩
    refine (h.covered b hnone lock hlock).imp_right fun hp => (hsome b _ hp).resolve_right ?_
    rintro ⟨rfl, -⟩
    rw [show (s.heap b).lastError = none from hnone] at herror
    cases herror
  · have hpinned : Pinned (s.setAuthority a
        ⟨(s.heap a).table, (s.heap a).lease, insert task.action.owner (s.heap a).pinnedOwners, (s.heap a).waiters,
          (s.heap a).lastError⟩) :=
      h.records rfl rfl rfl (.refl _) rfl id fun _ _ hmem _ => Finset.mem_insert_of_mem hmem
    refine ⟨fun b hnone lock hlock => ?_, hmatched, hpinned.cleaned, hpinned.known⟩
    rcases hpinned.covered b hnone lock hlock with hmem | hp
    · exact .inl hmem
    · rcases hsome b _ hp with hp | ⟨rfl, howner⟩
      · exact .inr hp
      · refine .inl ?_
        rw [howner]
        show _ ∈ ((s.setAuthority b _).heap b).pinnedOwners
        rw [heap_setAuthority_self]
        exact Finset.mem_insert_self ..

theorem Pinned.install (h : Pinned s) (lease : WriteLease) : Pinned (s.install lease) where
  covered := by
    intro b hnone lock hlock
    by_cases hb : b = s.next
    · subst hb
      rw [show (s.install lease).heap s.next = .new lease from update_self ..] at hlock
      cases hlock
    · rw [show (s.install lease).heap b = s.heap b from update_of_ne hb ..] at hnone hlock ⊢
      exact h.covered b hnone lock hlock
  matched := h.matched
  cleaned := by
    intro m release b hcloses
    have hb : b < s.next := h.known m release b hcloses.1 (by rw [hcloses.2]; rfl)
    rw [show (s.install lease).heap b = s.heap b from update_of_ne (Nat.ne_of_lt hb) ..]
    exact h.cleaned m release b hcloses
  known := fun m release b hrelease hb => Nat.lt_succ_of_lt (h.known m release b hrelease hb)

theorem matches_reach (task : LockTask) (a : Nat) : (task.reach a).Matches := by
  unfold LockTask.reach
  split
  · exact matches_of_phase fun _ => ⟨nofun, nofun⟩
  · exact matches_of_phase fun _ => ⟨nofun, nofun⟩

theorem Pinned.acquire (h : Pinned s) {lease} (hat : s.At n task (.leased lease)) (full : Bool) :
    Pinned (s.acquire n task lease full) := by
  have hreach : ∀ b, Threads s.tasks (s.setTask n (task.reach b)).tasks := fun b =>
    .set (fun old hold c owner hp => absurd hp (hat.not_pins rfl old hold c owner)) (matches_reach task b)
  have hthen : ∀ {u : LockService} (b : Nat), Pinned u → u.tasks = s.tasks → Pinned (u.setTask n (task.reach b)) := by
    intro u b hu htasks
    refine hu.threads rfl rfl rfl ?_
    show Threads u.tasks (u.tasks.insert n (task.reach b))
    rw [htasks]
    exact hreach b
  have hend : Pinned (s.endTask n) := h.threads rfl rfl rfl (.finish hat rfl)
  unfold LockService.acquire
  split
  · next a ha =>
    split
    · split
      · exact hend
      · next refreshed hrefreshed => exact h.renew (refresh_ok hrefreshed) rfl rfl rfl (hreach a)
    · have hfence : Pinned (s.setAuthority a (s.heap a).fence) :=
        h.update rfl rfl rfl (.refl _) nofun fun session _ => .invalidate session (s.heap a).table
      exact hthen _ (hfence.install lease) rfl
  · split
    · exact hend
    · exact hthen _ (h.install lease) rfl

theorem lookup_setRelease {m} :
    (s.setRelease n release).releases.lookup m = some other ↔
      m = n ∧ other = release ∨ m ≠ n ∧ s.releases.lookup m = some other := by
  unfold setRelease
  by_cases hm : m = n
  · subst hm
    simp [AList.lookup_insert, eq_comm]
  · simp [AList.lookup_insert_ne hm, hm]

theorem lookup_endRelease {m} (h : (s.endRelease n release).releases.lookup m = some other) :
    s.releases.lookup m = some other := by
  by_cases hm : m = n
  · subst hm
    simp [endRelease] at h
  · rwa [endRelease, AList.lookup_erase_ne hm] at h

theorem Pinned.endRelease (h : Pinned s) (release : SessionRelease) : Pinned (s.endRelease n release) :=
  h.frame rfl rfl (.refl _) fun _ _ hrelease => .inl (lookup_endRelease hrelease)

theorem Pinned.setRelease (h : Pinned s) (hphase : ∀ b, release.phase.authority = some b →
    b < s.next ∧ (release.phase = .cleaned b → Shut release.session (s.heap b).table)) :
    Pinned (s.setRelease n release) := by
  refine h.frame rfl rfl (.refl _) fun m other hother => ?_
  rcases lookup_setRelease.mp hother with ⟨-, rfl⟩ | ⟨-, hother⟩
  · exact .inr hphase
  · exact .inl hother

/-- **A step that unpins nobody with a lock keeps the records.** -/
theorem Pinned.step (h : Pinned s) (hsound : Sound s) {e} (hunpins : UnpinsInactive s e)
    (hstep : s.step e = some t) : Pinned t := by
  cases e with (first | obtain ⟨hguard, rfl⟩ := guarded_eq_some.mp hstep | cases hstep)
  | begin | beginRelease =>
    obtain ⟨hfresh, -⟩ := hguard
    refine h.threads rfl rfl rfl (.set (fun old hold => ?_) (matches_of_phase fun _ => ⟨nofun, nofun⟩))
    rw [hfresh] at hold
    cases hold
  | acquire n task lease full =>
    exact h.acquire hguard full
  | ensure n task a =>
    split
    · exact h.threads rfl rfl rfl (.move hguard rfl (matches_of_phase fun _ => ⟨nofun, nofun⟩))
    · exact h.threads rfl rfl rfl (.finish hguard rfl)
  | abandon n task =>
    obtain ⟨htask, hearly⟩ := hguard
    have hidle : TaskPhase.isIdle task.phase = true := by
      unfold TaskPhase.isEarly at hearly
      split at hearly
      all_goals simp_all [TaskPhase.isIdle]
    exact h.threads rfl rfl rfl (.finish ⟨htask, rfl⟩ hidle)
  | registerWaiter =>
    obtain ⟨hat, haction, hmatch⟩ := hguard
    unfold LockService.registerWaiter
    split
    · exact h.threads rfl rfl rfl (.finish hat rfl)
    · refine h.records rfl rfl rfl (.move hat rfl ?_) rfl id fun _ _ hmem _ => hmem
      intro b other w _ hset
      cases haction.symm.trans hset
      exact hmatch
  | setNonblocking n task request a =>
    obtain ⟨hat, haction⟩ := hguard
    exact h.afterSet (hsound.tidy a) hat haction
  | setBlocking n task request waiterId a =>
    obtain ⟨hat, haction⟩ := hguard
    have hmatch := h.matched n task hat.1 a request waiterId (.inl hat.2) haction
    exact h.afterPass (hsound.tidy a) hat rfl haction hmatch setlkBlocking_spec
      fun _ hshut => hshut.setlkBlocking (hsound.tidy a) hmatch
  | wake n task request waiterId a =>
    obtain ⟨hat, haction⟩ := hguard
    have hmatch := h.matched n task hat.1 a request waiterId (.inr hat.2) haction
    have hrange := hsound.waiting n a request waiterId ⟨task, hat.1, hat.2, haction⟩
    exact h.afterPass (hsound.tidy a) hat rfl haction hmatch (setlkBlockingWake_spec hrange)
      fun _ hshut => hshut.setlkBlockingWake (hsound.tidy a) hrange hmatch
  | unpinWaiter _ _ _ _ a ok =>
    obtain ⟨hat, -⟩ := hguard
    unfold LockService.unpinWaiter
    split
    · next hok =>
      -- the thread is about to pin before and after
      refine h.records rfl rfl rfl
        (.set (fun old hold b owner hp => ?_) (matches_of_phase fun _ => ⟨nofun, nofun⟩)) rfl id
        fun _ _ hmem _ => hmem
      cases hat.1.symm.trans hold
      obtain ⟨hlock, howner, hphase⟩ := hp
      rw [hat.2, hok] at hphase
      simp only [reduceCtorEq, TaskPhase.returned.injEq, and_true, or_false] at hphase
      exact ⟨hlock, howner, .inr (by rw [hphase]; rfl)⟩
    · next hok =>
      have hidle : TaskPhase.isIdle (.returned a ok) = true := by
        simp [TaskPhase.isIdle, hok]
      exact h.records rfl rfl rfl (.finish hat hidle) rfl id fun _ _ hmem _ => hmem
  | pin n task a =>
    exact h.pin hguard.1
  | checkActivity n task a =>
    obtain ⟨hat, hunlocks⟩ := hguard
    have hnot : ∀ old, s.tasks.lookup n = some old → ∀ b owner, ¬old.Pins b owner := by
      rintro old hold b owner ⟨hlock, -⟩
      cases hat.1.symm.trans hold
      rw [hunlocks] at hlock
      cases hlock
    unfold LockService.checkActivity
    split
    · exact h.threads rfl rfl rfl (.end hnot)
    · exact h.threads rfl rfl rfl (.set (fun old hold b owner hp => absurd hp (hnot old hold b owner))
        (matches_of_phase fun _ => ⟨nofun, nofun⟩))
  | unpin n task a =>
    refine h.records rfl rfl rfl (.finish hguard rfl) rfl id fun lock hlock hmem _ => Finset.mem_erase.mpr ⟨?_, hmem⟩
    -- an owner without activity has no lock
    rintro howner
    have hinactive : hasOwnerActivity task.action.owner none (s.heap a).table = false := hunpins
    simp only [hasOwnerActivity, Option.all_none, Bool.and_true, Bool.or_eq_false_iff, List.any_eq_false] at hinactive
    exact hinactive.1 lock hlock (by simpa using howner)
  | releaseOwner n task kind owner a =>
    exact h.shrinks (shrinks_releaseOwner kind owner) (fun _ hshut => hshut.releaseOwner kind owner) rfl rfl rfl
      (.move hguard.1 rfl (matches_of_phase fun _ => ⟨nofun, nofun⟩))
  | cancelWaiter =>
    exact h.shrinks shrinks_cancelWaiterWithOutcome (fun _ hshut => hshut.cancelWaiterWithOutcome) rfl rfl rfl (.refl _)
  | acknowledgeWaiter =>
    exact h.shrinks shrinks_acknowledgeWaiter (fun _ hshut => hshut.acknowledgeWaiter) rfl rfl rfl (.refl _)
  | forgetWaiter =>
    exact h.records rfl rfl rfl (.refl _) rfl id fun _ _ hmem _ => hmem
  | renewSuccess a now renewed =>
    exact h.renew (renewal_success renewed) rfl rfl rfl (.refl _)
  | renewFailure a now attempted error =>
    exact h.renew (renewal_failure attempted error) rfl rfl rfl (.refl _)
  | expire a now =>
    exact h.renew renewal_expire rfl rfl rfl (.refl _)
  | invalidate a =>
    exact h.shrinks (shrinks_invalidate _) (fun session _ => .invalidate session _) rfl rfl rfl (.refl _)
  | reclaim a =>
    exact h.threads rfl rfl rfl (.refl _)
  | closeSession session =>
    obtain ⟨sessions, admission, hnote⟩ := sessions_noteClosed s session
    rw [hnote]
    exact h.threads rfl rfl rfl (.refl _)
  | beginSessionRelease n session epoch =>
    obtain ⟨sessions, admission, hnote⟩ := sessions_noteClosed s session
    rw [hnote]
    exact (h.threads rfl rfl rfl (.refl _) : Pinned
      { s with closedSessions := sessions, closedAdmission := admission }).setRelease nofun
  | findAuthority n release =>
    split
    · exact h.endRelease release
    · next a ha =>
      refine h.setRelease fun b hb => ⟨?_, nofun⟩
      cases hb
      exact hsound.installed a (Option.filter_eq_some_iff.mp ha).1
  | checkKnown n release a =>
    split
    · refine h.setRelease fun b hb => ⟨?_, nofun⟩
      cases hb
      exact h.known n release a hguard.1 (by rw [hguard.2]; rfl)
    · exact h.endRelease release
  | releaseTable n release a =>
    have htable : Pinned (s.setTable a (Locks.releaseSession .default release.session (s.heap a).table)) :=
      h.shrinks (shrinks_releaseSession .default release.session)
        (fun _ hshut => hshut.releaseSession release.session) rfl rfl
        rfl (.refl _)
    refine htable.setRelease fun b hb => ?_
    cases hb
    refine ⟨h.known n release a hguard.1 (by rw [hguard.2]; rfl), fun _ => ?_⟩
    rw [setTable, heap_setAuthority_self]
    exact shut_releaseSession (hsound.invalid a)
  | retainPins n release a =>
    have hshut := h.cleaned n release a hguard
    have hretain : Pinned (s.setAuthority a (retainSession (s.heap a) release.session)) :=
      h.records rfl rfl rfl (.refl _) rfl id fun lock hlock hmem _ =>
        Finset.mem_filter.mpr ⟨hmem, hshut.locks lock hlock⟩
    exact hretain.endRelease release

theorem sound_pinned_of_run {lease} (h : Runs.Run LockService.step UnpinsInactive (.new lease) s) :
    Sound s ∧ Pinned s := by
  refine h.invariant (P := fun s => Sound s ∧ Pinned s) ?_ ⟨.new lease, .new lease⟩
  exact fun _ _ _ h hunpins hstep => ⟨h.1.step hstep, h.2.step h.1 hunpins hstep⟩

end LockService

end Afs.Locks
