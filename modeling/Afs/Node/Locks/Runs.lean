import Afs.Node.Locks.Segments

/-!
# `Node.Locks.Runs` — runs of a lock table

Any number of threads call a table in any order. A blocking request may sleep in the table's condition variable; the
request and the waiter id that it sleeps with are the locals of its thread, next to which the table may change freely
until the thread wakes up. `LockSystem.step` is one turn of one thread; the runs of a table are the lists of such turns.
-/

namespace Afs.Locks

variable {registered : Bool} {pass : LockPass × LockTableState}

/-- A table with the threads that sleep in it. -/
structure LockSystem where
  table : LockTableState
  sleeping : Nat → Option (LockRequest × LockWaiterId)

def LockSystem.new : LockSystem := ⟨.default, fun _ => none⟩

/-- A turn of a thread: a call of the table, or a wake-up inside one. -/
inductive LockTurn
  | setlkNonblocking (request : LockRequest)
  | setlkBlocking (thread : Nat) (request : LockRequest) (waiterId : LockWaiterId)
  | wake (thread : Nat)
  | cancelWaiter (waiterId : LockWaiterId)
  | acknowledgeWaiter (waiterId : LockWaiterId)
  | releasePosixOwner (owner : FileLockOwner)
  | releaseFlockOwner (owner : FileLockOwner)
  | releaseSession (ingressSessionId : String)
  | invalidate

/-- What a turn answers to its caller, if it ends a call. -/
inductive LockAnswer
  | set (result : Except LockError Unit)
  | cancelled (result : Except LockError LockWaiterOutcome)
  | acknowledged (result : Except LockError (Option LockWaiterOutcome))
  | released
  deriving DecidableEq

namespace LockSystem

/-- Where a blocking request of a thread goes after one pass. -/
def afterPass (s : LockSystem) (thread : Nat) (request : LockRequest) (waiterId : LockWaiterId) :
    LockPass × LockTableState → Option LockAnswer × LockSystem
  | (.done result, table) => (some (.set result), ⟨table, Function.update s.sleeping thread none⟩)
  | (.wait, table) => (none, ⟨table, Function.update s.sleeping thread (some (request, waiterId))⟩)

/-- One turn. A thread that sleeps makes no call, and one that does not sleep is not woken. -/
def step (limits : LockTableLimits) (s : LockSystem) : LockTurn → Option LockAnswer × LockSystem
  | .setlkNonblocking request =>
    let answer := Locks.setlkNonblocking limits request s.table
    (some (.set answer.1), { s with table := answer.2 })
  | .setlkBlocking thread request waiterId =>
    if (s.sleeping thread).isSome then (none, s)
    else s.afterPass thread request waiterId (Locks.setlkBlocking limits request waiterId s.table)
  | .wake thread =>
    match s.sleeping thread with
    | none => (none, s)
    | some (request, waiterId) =>
      s.afterPass thread request waiterId (setlkBlockingWake limits request waiterId s.table)
  | .cancelWaiter waiterId =>
    let answer := cancelWaiterWithOutcome limits waiterId s.table
    (some (.cancelled answer.1), { s with table := answer.2 })
  | .acknowledgeWaiter waiterId =>
    let answer := Locks.acknowledgeWaiter waiterId s.table
    (some (.acknowledged answer.1), { s with table := answer.2 })
  | .releasePosixOwner owner => (some .released, { s with table := Locks.releasePosixOwner owner s.table })
  | .releaseFlockOwner owner => (some .released, { s with table := Locks.releaseFlockOwner owner s.table })
  | .releaseSession ingressSessionId =>
    (some .released, { s with table := Locks.releaseSession limits ingressSessionId s.table })
  | .invalidate => (some .released, { s with table := Locks.invalidate s.table })

section

variable (s : LockSystem) (thread : Nat) (request : LockRequest) (waiterId : LockWaiterId)
    (pass : LockPass × LockTableState)

theorem table_afterPass : (s.afterPass thread request waiterId pass).2.table = pass.2 := by
  obtain ⟨result | _, table⟩ := pass <;> rfl

theorem sleeping_afterPass :
    (s.afterPass thread request waiterId pass).2.sleeping =
      Function.update s.sleeping thread (if pass.1 = .wait then some (request, waiterId) else none) := by
  obtain ⟨result | _, table⟩ := pass <;> rfl

variable {s thread request waiterId pass} in
/-- A thread that sleeps after a pass has gone to sleep in it, or has slept on. -/
theorem sleeping_of_afterPass {other r w}
    (h : (s.afterPass thread request waiterId pass).2.sleeping other = some (r, w)) :
    (other = thread ∧ pass.1 = .wait ∧ r = request ∧ w = waiterId) ∨ other ≠ thread ∧
      s.sleeping other = some (r, w) := by
  rw [sleeping_afterPass] at h
  by_cases hthread : other = thread
  · rw [hthread, Function.update_self] at h
    split at h
    · next hwait =>
      cases h
      exact .inl ⟨hthread, hwait, rfl, rfl⟩
    · cases h
  · rw [Function.update_of_ne hthread] at h
    exact .inr ⟨hthread, h⟩

end

/-- The state after a list of turns. -/
def run (limits : LockTableLimits) (turns : List LockTurn) (s : LockSystem) : LockSystem :=
  turns.foldl (fun s turn => (s.step limits turn).2) s

end LockSystem

/-! ## What a call of the table does -/

variable {limits : LockTableLimits} {request : LockRequest} {waiterId : LockWaiterId} {state state' : LockTableState}

/-- A request is applied to a table: it has a valid range and, unless it unlocks, no conflict. -/
structure Applied (limits : LockTableLimits) (request : LockRequest) (state state' : LockTableState) : Prop where
  range : request.range.isValid = true
  conflict : request.lockType ≠ .unlock → firstConflict state.locks request = none
  locks : ∃ before after, before.locks = state.locks ∧ applyLock limits request before = .ok after ∧
    after.locks = state'.locks
  valid : state.invalidated = false

theorem Applied.tidy (h : Applied limits request state state') (htidy : LocksTidy state.locks) :
    LocksTidy state'.locks := by
  obtain ⟨before, after, hbefore, happly, hafter⟩ := h.locks
  rw [← hbefore] at htidy
  have hconflict := h.conflict
  rw [← hbefore] at hconflict
  exact hafter ▸ htidy.applyLock h.range hconflict happly

theorem Applied.held (h : Applied limits request state state') (htidy : LocksTidy state.locks) (t : LockTag) (n : Nat) :
    lockView.Held state'.locks t n ↔
      (lockView.Held state.locks t n ∧ ¬ (t.kind = request.kind ∧ t.owner = request.owner ∧ request.range.Contains n)) ∨
      (request.lockType ≠ .unlock ∧ t = request.tag ∧ request.range.Contains n) := by
  obtain ⟨before, after, hbefore, happly, hafter⟩ := h.locks
  rw [← hbefore] at htidy ⊢
  exact hafter ▸ held_applyLock htidy h.range happly t n

/-- The closed sessions stay as they are. -/
structure SameSessions (state state' : LockTableState) : Prop where
  closed : state'.closedSessions = state.closedSessions
  admission : state'.closedSessionAdmissionClosed = state.closedSessionAdmissionClosed

/-- `setlk_nonblocking` applies the request or leaves the table as it is. -/
theorem setlkNonblocking_spec (limits : LockTableLimits) (request : LockRequest) (state : LockTableState) :
    ((setlkNonblocking limits request state).1 = .ok () ∧
        Applied limits request state (setlkNonblocking limits request state).2 ∧
        (setlkNonblocking limits request state).2.waiters = state.waiters ∧
        (setlkNonblocking limits request state).2.invalidated = state.invalidated ∧
        SameSessions state (setlkNonblocking limits request state).2) ∨
      (∃ e, (setlkNonblocking limits request state).1 = .error e) ∧
        (setlkNonblocking limits request state).2 = state := by
  unfold setlkNonblocking
  split
  · exact .inr ⟨⟨_, rfl⟩, rfl⟩
  next hrange =>
  split
  · exact .inr ⟨⟨_, rfl⟩, rfl⟩
  next hvalid =>
  split
  · exact .inr ⟨⟨_, rfl⟩, rfl⟩
  split
  · exact .inr ⟨⟨_, rfl⟩, rfl⟩
  split
  · exact .inr ⟨⟨_, rfl⟩, rfl⟩
  next hfree =>
  split
  · exact .inr ⟨⟨_, rfl⟩, rfl⟩
  next state' happly =>
  have heq := (applyLock_cases happly).1
  refine .inl ⟨rfl,
    ⟨by simpa using hrange, fun hlock => ?_, ⟨state, state', rfl, happly, rfl⟩, by simpa using hvalid⟩, ?_, ?_, ?_⟩
  · rw [not_and, Bool.not_eq_true, Option.isSome_eq_false_iff, Option.isNone_iff_eq_none] at hfree
    exact hfree hlock
  · rw [heq]
  · rw [heq]
  · rw [heq]
    exact ⟨rfl, rfl⟩

/-- The waiters that a pass leaves. -/
def PassWaiters (request : LockRequest) (waiterId : LockWaiterId) (registered : Bool) (state : LockTableState)
    (pass : LockPass × LockTableState) : Prop :=
  if pass.1 = .wait then
    ∀ w waiting, pass.2.waiters.lookup w = some waiting →
      (w = waiterId ∧ waiting.owner = request.owner ∧ registered = false) ∨
      ∃ before, state.waiters.lookup w = some before ∧ before.owner = waiting.owner
  else pass.2.waiters = if registered then state.waiters.erase waiterId else state.waiters

/-- What a pass through the loop of `setlk_blocking` does. -/
structure PassSpec (limits : LockTableLimits) (request : LockRequest) (waiterId : LockWaiterId) (registered : Bool)
    (state : LockTableState) (pass : LockPass × LockTableState) : Prop where
  ok : pass.1 = .done (.ok ()) → Applied limits request state pass.2
  other : pass.1 ≠ .done (.ok ()) → pass.2.locks = state.locks
  wait : pass.1 = .wait → request.range.isValid = true ∧ request.lockType ≠ .unlock
  invalidated : pass.2.invalidated = state.invalidated
  sessions : SameSessions state pass.2
  waiters : PassWaiters request waiterId registered state pass

/-- **How a pass ends.** -/
inductive PassCases (limits : LockTableLimits) (request : LockRequest) (waiterId : LockWaiterId) (registered : Bool)
    (state : LockTableState) : LockPass × LockTableState → Prop
  /-- With an error: the registration is taken away. -/
  | refused (e : LockError) (hdeadlock : e = .deadlock →
        wouldDeadlock state.waiters request.owner (blockingOwners state.locks request) = true) :
      PassCases limits request waiterId registered state (.done (.error e), leaveWaiters waiterId registered state)
  /-- With the lock: the registration gives way to an outcome. -/
  | granted (after : LockTableState) (stored : StoredWaiterOutcome)
      (hnew : registered = false → state.waiters.lookup waiterId = none)
      (hfree : request.lockType ≠ .unlock → firstConflict state.locks request = none)
      (happly : applyLock limits request (leaveWaiters waiterId registered state) = .ok after) :
      PassCases limits request waiterId registered state (.done (.ok ()), rememberWaiterOutcome waiterId stored after)
  /-- With a wait: the blockers are registered, and none of them waits for the owner. -/
  | waits (waiting : WaitingLock) (hlock : request.lockType ≠ .unlock)
      (hsafe : wouldDeadlock state.waiters request.owner waiting.blockers = false)
      (howner : registered = false ∧ state.waiters.lookup waiterId = none ∧ waiting.owner = request.owner ∨
        registered = true ∧ ∃ before, state.waiters.lookup waiterId = some before ∧ waiting.owner = before.owner) :
      PassCases limits request waiterId registered state
        (.wait, { state with waiters := state.waiters.insert waiterId waiting })

theorem applyLock_error {e} (h : applyLock limits request state = .error e) : e = .capacity := by
  rw [applyLock] at h
  split at h <;> split at h <;> cases h <;> rfl

theorem setlkPass_cases (hregistered : registered = true → (state.waiters.lookup waiterId).isSome) :
    PassCases limits request waiterId registered state (setlkPass limits request waiterId registered state) := by
  -- what an unregistered request is refused with leaves the table as it is
  have hunregistered {e : LockError} (h : registered = false) (he : e ≠ .deadlock) :
      PassCases limits request waiterId registered state (.done (.error e), state) := by
    subst h
    exact .refused e fun heq => absurd heq he
  unfold setlkPass grantWaiter
  split
  · next hduplicate =>
    rw [Bool.and_eq_true, Bool.not_eq_true'] at hduplicate
    exact hunregistered hduplicate.1 nofun
  next hduplicate =>
  have hnew : registered = false → state.waiters.lookup waiterId = none := by
    rintro rfl
    simpa using hduplicate
  split
  · next hfree =>
    split
    · exact .refused _ nofun
    split
    · next herror => exact .refused _ fun heq => by rw [applyLock_error herror] at heq; cases heq
    · next after happly =>
      exact .granted after _ hnew (fun hlock => Option.isNone_iff_eq_none.mp (hfree.resolve_left hlock)) happly
  next hconflict =>
  have hlock : request.lockType ≠ .unlock := fun hunlock => hconflict (.inl hunlock)
  dsimp only
  split
  · next hdeadlock => exact .refused _ fun _ => hdeadlock
  next hsafe =>
  rw [Bool.not_eq_true] at hsafe
  split
  · next hfull =>
    rw [Bool.and_eq_true, Bool.not_eq_true'] at hfull
    exact hunregistered hfull.1 nofun
  cases registered with
  | false => exact .waits ⟨request.owner, request.kind, _⟩ hlock hsafe (.inl ⟨rfl, hnew rfl, rfl⟩)
  | true =>
    obtain ⟨before, hbefore⟩ := Option.isSome_iff_exists.mp (hregistered rfl)
    rw [if_pos rfl, hbefore]
    exact .waits { before with blockers := _ } hlock hsafe (.inr ⟨rfl, before, hbefore, rfl⟩)

theorem leaveWaiters_eq (waiterId : LockWaiterId) (registered : Bool) (state : LockTableState) :
    leaveWaiters waiterId registered state =
      { state with waiters := if registered then state.waiters.erase waiterId else state.waiters } := by
  unfold leaveWaiters
  split <;> rfl

theorem PassCases.spec (h : PassCases limits request waiterId registered state pass)
    (hrange : request.range.isValid = true)
    (hvalid : state.invalidated = false) : PassSpec limits request waiterId registered state pass := by
  cases h with
  | refused e =>
    rw [leaveWaiters_eq]
    exact ⟨nofun, fun _ => rfl, nofun, rfl, ⟨rfl, rfl⟩, rfl⟩
  | granted after stored _ hfree happly =>
    rw [leaveWaiters_eq] at happly
    have heq := (applyLock_cases happly).1
    have hinvalidated : after.invalidated = state.invalidated := by rw [heq]
    have hsessions : SameSessions state after := by
      rw [heq]
      exact ⟨rfl, rfl⟩
    have hwaiters : after.waiters = if registered then state.waiters.erase waiterId else state.waiters := by rw [heq]
    refine ⟨fun _ => ⟨hrange, hfree, ⟨_, after, by rfl, happly, rfl⟩, hvalid⟩, ?_, nofun,
      hinvalidated, ⟨hsessions.closed, hsessions.admission⟩, hwaiters⟩
    exact fun h => absurd rfl h
  | waits waiting hlock _ howner =>
    refine ⟨nofun, fun _ => rfl, fun _ => ⟨hrange, hlock⟩, rfl, ⟨rfl, rfl⟩, fun w other hw => ?_⟩
    by_cases hsame : w = waiterId
    · subst hsame
      rw [AList.lookup_insert] at hw
      cases hw
      rcases howner with ⟨hregistered, -, howner⟩ | ⟨-, before, hbefore, howner⟩
      · exact .inl ⟨rfl, howner, hregistered⟩
      · exact .inr ⟨before, hbefore, howner.symm⟩
    · rw [AList.lookup_insert_ne hsame] at hw
      exact .inr ⟨other, hw, rfl⟩

/-- What a blocking request has to pass before it looks at the locks. -/
structure Admits (request : LockRequest) (waiterId : LockWaiterId) (state : LockTableState) : Prop where
  range : request.range.isValid = true
  valid : state.invalidated = false
  outcome : state.waiterOutcomes.lookup waiterId = none
  retired : isWaiterRetired state waiterId = false
  sessions : request.lockType ≠ .unlock → request.owner.ingressSessionId ∉ state.closedSessions ∧
    waiterId.ingressSessionId ∉ state.closedSessions ∧ state.closedSessionAdmissionClosed = false

/-- No request for a lock is admitted with this waiter id any more. -/
def Spent (state : LockTableState) (waiterId : LockWaiterId) : Prop :=
  state.invalidated = true ∨ (state.waiterOutcomes.lookup waiterId).isSome ∨ isWaiterRetired state waiterId = true ∨
    waiterId.ingressSessionId ∈ state.closedSessions ∨ state.closedSessionAdmissionClosed = true

section

variable (limits : LockTableLimits) (request : LockRequest) (waiterId : LockWaiterId) (state : LockTableState)

theorem setlkBlocking_cases :
    (∃ e, setlkBlocking limits request waiterId state = (.done (.error e), state) ∧ e ≠ .deadlock) ∨
      Admits request waiterId state ∧
        PassCases limits request waiterId false state (setlkBlocking limits request waiterId state) := by
  unfold setlkBlocking
  split
  · exact .inl ⟨_, rfl, nofun⟩
  next hrange =>
  split
  · exact .inl ⟨_, rfl, nofun⟩
  next hvalid =>
  split
  · exact .inl ⟨_, rfl, nofun⟩
  next hopen =>
  split
  · exact .inl ⟨_, rfl, nofun⟩
  next hadmission =>
  split
  · exact .inl ⟨_, rfl, nofun⟩
  · exact .inl ⟨_, rfl, nofun⟩
  · exact .inl ⟨_, rfl, nofun⟩
  next houtcome =>
  split
  · exact .inl ⟨_, rfl, nofun⟩
  next hretired =>
  refine .inr ⟨⟨by simpa using hrange, by simpa using hvalid, Option.map_eq_none_iff.mp houtcome,
    by simpa using hretired, ?_⟩, ?_⟩
  · intro hlock
    have hboth := not_or.mp fun hclosed => hopen ⟨hlock, hclosed⟩
    exact ⟨hboth.1, hboth.2, Bool.eq_false_iff.mpr fun hclosed => hadmission ⟨hlock, hclosed⟩⟩
  · exact setlkPass_cases nofun

theorem setlkBlockingWake_cases :
    setlkBlockingWake limits request waiterId state = (.done (.error .interrupted), removeWaiter waiterId state) ∨
      state.invalidated = false ∧ (state.waiters.lookup waiterId).isSome ∧
        PassCases limits request waiterId true state (setlkBlockingWake limits request waiterId state) := by
  unfold setlkBlockingWake
  split
  · exact .inl rfl
  · next hgoes =>
    simp only [not_or, Bool.not_eq_true, Option.isNone_eq_false_iff] at hgoes
    exact .inr ⟨hgoes.1, hgoes.2.2.2.2, setlkPass_cases fun _ => hgoes.2.2.2.2⟩

end

theorem setlkBlocking_spec :
    PassSpec limits request waiterId false state (setlkBlocking limits request waiterId state) := by
  obtain ⟨e, hrefused, -⟩ | ⟨hadmits, hcases⟩ := setlkBlocking_cases limits request waiterId state
  · rw [hrefused]
    exact ⟨nofun, fun _ => rfl, nofun, rfl, ⟨rfl, rfl⟩, rfl⟩
  · exact hcases.spec hadmits.range hadmits.valid

theorem setlkBlockingWake_spec (hrange : request.range.isValid = true) :
    PassSpec limits request waiterId true state (setlkBlockingWake limits request waiterId state) := by
  obtain hrefused | ⟨hvalid, -, hcases⟩ := setlkBlockingWake_cases limits request waiterId state
  · rw [hrefused]
    exact ⟨nofun, fun _ => rfl, nofun, rfl, ⟨rfl, rfl⟩, rfl⟩
  · exact hcases.spec hrange hvalid

/-! ## What a turn does to the active locks -/

/-- **The changes of the active locks**: locks are taken away, or a request is applied. -/
inductive LocksChange (limits : LockTableLimits) (state state' : LockTableState) : Prop
  | removed (h : state'.locks.Sublist state.locks)
  | applied (request : LockRequest) (h : Applied limits request state state')

theorem LocksChange.same (limits : LockTableLimits) (h : state'.locks = state.locks) :
    LocksChange limits state state' :=
  .removed (h ▸ List.Sublist.refl _)

theorem LocksChange.tidy (h : LocksChange limits state state') (htidy : LocksTidy state.locks) :
    LocksTidy state'.locks := by
  cases h with
  | removed hsub => exact htidy.sublist hsub
  | applied request happlied => exact happlied.tidy htidy

theorem PassSpec.change (h : PassSpec limits request waiterId registered state pass) :
    LocksChange limits state pass.2 := by
  by_cases hok : pass.1 = .done (.ok ())
  · exact .applied request (h.ok hok)
  · exact .same limits (h.other hok)

theorem change_setlkNonblocking : LocksChange limits state (setlkNonblocking limits request state).2 := by
  obtain ⟨-, happlied, -⟩ | ⟨-, hsame⟩ := setlkNonblocking_spec limits request state
  · exact .applied request happlied
  · exact .same limits (by rw [hsame])

/-- A call that only takes away. -/
structure Shrinks (state state' : LockTableState) : Prop where
  locks : state'.locks.Sublist state.locks
  waiters : ∀ w waiting, state'.waiters.lookup w = some waiting → state.waiters.lookup w = some waiting
  invalidated : state.invalidated = true → state'.invalidated = true
  valid : state'.invalidated = true → state.invalidated = true ∨ state'.locks = []

theorem Shrinks.refl (state : LockTableState) : Shrinks state state := ⟨.refl _, fun _ _ h => h, id, .inl⟩

theorem shrinks_removeWaiter (waiterId : LockWaiterId) (state : LockTableState) :
    Shrinks state (removeWaiter waiterId state) := by
  refine ⟨.refl _, fun w waiting hw => ?_, id, .inl⟩
  have hne : w ≠ waiterId := by
    rintro rfl
    simp [removeWaiter] at hw
  rwa [removeWaiter, AList.lookup_erase_ne hne] at hw

theorem removeWaiter_of_lookup (h : state.waiters.lookup waiterId = none) : removeWaiter waiterId state = state := by
  have hentries : (state.waiters.erase waiterId).entries = state.waiters.entries :=
    List.kerase_of_notMem_keys (AList.lookup_eq_none.mp h)
  rw [removeWaiter, AList.ext hentries]

/-- `cancel_waiter_with_outcome` leaves the table as it is, or takes the waiter away and stores an outcome. -/
theorem cancelWaiterWithOutcome_cases (limits : LockTableLimits) (waiterId : LockWaiterId) (state : LockTableState) :
    (cancelWaiterWithOutcome limits waiterId state).2 = state ∧
        ((cancelWaiterWithOutcome limits waiterId state).1 = .error .capacity ∨ state.invalidated = true ∨
          state.waiters.lookup waiterId = none ∧ Spent state waiterId) ∨
      ∃ stored, (cancelWaiterWithOutcome limits waiterId state).2 =
        rememberWaiterOutcome waiterId stored (removeWaiter waiterId state) := by
  unfold cancelWaiterWithOutcome
  split
  · next hinvalid => exact .inl ⟨rfl, .inr (.inl hinvalid)⟩
  split
  · split
    · exact .inl ⟨rfl, .inl rfl⟩
    · exact .inr ⟨_, rfl⟩
  next hnone =>
  split
  · next stored hstored => exact .inl ⟨rfl, .inr (.inr ⟨hnone, .inr (.inl (by rw [hstored]; rfl))⟩)⟩
  split
  · next hretired => exact .inl ⟨rfl, .inr (.inr ⟨hnone, .inr (.inr (.inl hretired))⟩)⟩
  split
  · next hclosed => exact .inl ⟨rfl, .inr (.inr ⟨hnone, .inr (.inr (.inr hclosed))⟩)⟩
  split
  · exact .inl ⟨rfl, .inl rfl⟩
  · exact .inr ⟨_, by rw [removeWaiter_of_lookup hnone]⟩

theorem shrinks_cancelWaiterWithOutcome : Shrinks state (cancelWaiterWithOutcome limits waiterId state).2 := by
  obtain ⟨hsame, -⟩ | ⟨stored, hstored⟩ := cancelWaiterWithOutcome_cases limits waiterId state
  · rw [hsame]
    exact .refl _
  · rw [hstored]
    obtain ⟨hlocks, hwaiters, hinvalidated, hvalid⟩ := shrinks_removeWaiter waiterId state
    exact ⟨hlocks, hwaiters, hinvalidated, hvalid⟩

@[simp] theorem locks_cancelWaiterWithOutcome :
    (cancelWaiterWithOutcome limits waiterId state).2.locks = state.locks := by
  obtain ⟨hsame, -⟩ | ⟨stored, hstored⟩ := cancelWaiterWithOutcome_cases limits waiterId state
  · rw [hsame]
  · rw [hstored]
    rfl

@[simp] theorem locks_acknowledgeWaiter : (acknowledgeWaiter waiterId state).2.locks = state.locks := by
  unfold acknowledgeWaiter
  split <;> rfl

theorem shrinks_acknowledgeWaiter : Shrinks state (acknowledgeWaiter waiterId state).2 := by
  unfold acknowledgeWaiter
  split
  · exact .refl _
  · exact ⟨.refl _, fun _ _ h => h, id, .inl⟩

theorem shrinks_releaseOwner (kind : FileLockKind) (owner : FileLockOwner) :
    Shrinks state (releaseOwner kind owner state) :=
  ⟨List.filter_sublist, fun _ _ h => h, id, .inl⟩

theorem shrinks_releaseSession (limits : LockTableLimits) (ingressSessionId : String) :
    Shrinks state (releaseSession limits ingressSessionId state) := by
  unfold releaseSession
  split
  · exact .refl _
  · refine ⟨List.filter_sublist, fun w waiting hw => ?_, id, .inl⟩
    exact (Pairs.lookup_retain.mp hw).1

theorem shrinks_invalidate (state : LockTableState) : Shrinks state (invalidate state) :=
  ⟨List.nil_sublist _, nofun, fun _ => rfl, fun _ => .inr rfl⟩

/-! ## Runs -/

/-- What holds in every run: the locks are tidy, and no thread sleeps with an invalid range. -/
structure SystemTidy (s : LockSystem) : Prop where
  locks : LocksTidy s.table.locks
  sleeping : ∀ thread request waiterId, s.sleeping thread = some (request, waiterId) → request.range.isValid = true

namespace SystemTidy

variable {s : LockSystem}

theorem new : SystemTidy .new := ⟨.nil, fun _ _ _ h => nomatch h⟩

variable (limits) in
/-- A call that leaves the sleeping threads alone. -/
theorem change (h : SystemTidy s) {table} (hchange : LocksChange limits s.table table) :
    SystemTidy { s with table } :=
  ⟨hchange.tidy h.locks, h.sleeping⟩

theorem afterPass (h : SystemTidy s) (thread : Nat) (hchange : LocksChange limits s.table pass.2)
    (hrange : pass.1 = .wait → request.range.isValid = true) :
    SystemTidy (s.afterPass thread request waiterId pass).2 := by
  refine ⟨?_, ?_⟩
  · rw [LockSystem.table_afterPass]
    exact hchange.tidy h.locks
  · intro other r w hother
    rcases LockSystem.sleeping_of_afterPass hother with ⟨-, hwait, rfl, -⟩ | ⟨-, hother⟩
    · exact hrange hwait
    · exact h.sleeping other r w hother

/-- **One turn keeps the locks tidy.** -/
theorem step (h : SystemTidy s) (turn : LockTurn) : SystemTidy (s.step limits turn).2 := by
  cases turn with
  | setlkNonblocking request => exact h.change limits change_setlkNonblocking
  | setlkBlocking thread =>
    rw [LockSystem.step]
    split
    · exact h
    · exact h.afterPass thread setlkBlocking_spec.change fun hwait => (setlkBlocking_spec.wait hwait).1
  | wake thread =>
    rw [LockSystem.step]
    split
    · exact h
    · next request waiterId hsleeping =>
      have hrange := h.sleeping thread request waiterId hsleeping
      exact h.afterPass thread (setlkBlockingWake_spec hrange).change fun _ => hrange
  | cancelWaiter waiterId => exact h.change limits (.removed shrinks_cancelWaiterWithOutcome.locks)
  | acknowledgeWaiter waiterId => exact h.change limits (.removed shrinks_acknowledgeWaiter.locks)
  | releasePosixOwner | releaseFlockOwner => exact h.change limits (.removed List.filter_sublist)
  | releaseSession ingressSessionId =>
      exact h.change limits (.removed (shrinks_releaseSession limits ingressSessionId).locks)
  | invalidate => exact h.change limits (.removed (List.nil_sublist _))

theorem run (turns : List LockTurn) : ∀ {s : LockSystem}, SystemTidy s → SystemTidy (s.run limits turns) := by
  induction turns with
  | nil => exact fun h => h
  | cons turn rest ih => exact fun h => ih (h.step turn)

end SystemTidy

/-- **Advisory locks exclude.** -/
structure LocksExclude (locks : List ActiveLock) : Prop where
  /-- Locks of one kind and different owners overlap only if both are read locks. -/
  owners : locks.Pairwise fun a b => a.kind = b.kind → a.owner ≠ b.owner → a.range.overlaps b.range = true →
    a.lockType ≠ .write ∧ b.lockType ≠ .write
  /-- The locks of one owner do not overlap. -/
  segments : locks.Pairwise fun a b => a.kind = b.kind → a.owner = b.owner → a.range.overlaps b.range = false
  /-- Those of one type do not even touch. -/
  merged : locks.Pairwise fun a b => a.kind = b.kind → a.owner = b.owner → a.lockType = b.lockType →
    a.range.touchesOrOverlaps b.range = false

theorem LocksTidy.exclude {locks} (h : LocksTidy locks) : LocksExclude locks where
  owners := by
    apply h.exclusive.imp
    intro a b hapart hkind howner hoverlaps
    have hno : ¬ Excludes a.tag b.tag := fun hexcludes => hapart hexcludes (meets_iff.mpr hoverlaps)
    exact ⟨fun hwrite => hno ⟨hkind, howner, .inl hwrite⟩, fun hwrite => hno ⟨hkind, howner, .inr hwrite⟩⟩
  segments := by
    apply h.disjoint.imp
    intro a b hapart hkind howner
    exact Bool.eq_false_iff.mpr fun hoverlaps => hapart ⟨hkind, howner⟩ (meets_iff.mpr hoverlaps)
  merged := by
    apply h.separate.imp_of_mem
    intro a b ha hb hseparate hkind howner htype
    refine Bool.eq_false_iff.mpr fun htouches => ?_
    exact hseparate (tag_eq_iff.mpr ⟨hkind, howner, htype⟩)
      ((touches_iff (h.nonempty a ha) (h.nonempty b hb)).mpr htouches)

/-- In every state that calls and wake-ups of any threads lead a table to, its locks exclude each other. -/
theorem locks_exclude (limits : LockTableLimits) (turns : List LockTurn) :
    LocksExclude (LockSystem.new.run limits turns).table.locks :=
  (SystemTidy.new.run turns).locks.exclude

/-- Two readers share their first bytes, and the writer that waits for the second one gets the bytes after them. -/
example :
    let a : FileLockOwner := ⟨"mount", 1⟩
    let b : FileLockOwner := ⟨"mount", 2⟩
    let turns : List LockTurn :=
      [.setlkNonblocking ⟨.posix, a, 1, ⟨0, 9⟩, .read⟩,
        .setlkNonblocking ⟨.posix, b, 2, ⟨0, 19⟩, .read⟩,
        .setlkBlocking 0 ⟨.posix, a, 1, ⟨10, 19⟩, .write⟩ ⟨"mount", 7⟩,
        .setlkNonblocking ⟨.posix, b, 2, ⟨10, 19⟩, .unlock⟩,
        .wake 0]
    (LockSystem.new.run .default turns).table.locks.map (fun lock => (lock.owner, lock.range, lock.lockType)) =
      [(a, ⟨0, 9⟩, .read), (a, ⟨10, 19⟩, .write), (b, ⟨0, 9⟩, .read)] := by
  decide +kernel

/-! ## Requests, byte by byte -/

namespace LockSystem

/-- The blocking request that a turn is about, with its waiter id. -/
def blocking (s : LockSystem) : LockTurn → Option (LockRequest × LockWaiterId)
  | .setlkBlocking _ request waiterId => some (request, waiterId)
  | .wake thread => s.sleeping thread
  | _ => none

/-- The lock that a turn sets if it succeeds. -/
def sets (s : LockSystem) : LockTurn → Option LockRequest
  | .setlkNonblocking request => some request
  | turn => (s.blocking turn).map Prod.fst

end LockSystem

/-- The pass that a thread makes through `setlk_blocking`. -/
inductive BlockingPass (limits : LockTableLimits) (s : LockSystem) (request : LockRequest) (waiterId : LockWaiterId)
    (thread : Nat) : Bool → LockPass × LockTableState → Prop
  | call (hawake : s.sleeping thread = none) :
      BlockingPass limits s request waiterId thread false (setlkBlocking limits request waiterId s.table)
  | wake (hasleep : s.sleeping thread = some (request, waiterId)) :
      BlockingPass limits s request waiterId thread true (setlkBlockingWake limits request waiterId s.table)

section

variable {s : LockSystem} {thread : Nat}

/-- A turn about a blocking request finds its thread asleep, or makes one pass. -/
theorem LockSystem.blocking_cases (limits : LockTableLimits) {turn}
    (hturn : s.blocking turn = some (request, waiterId)) :
    s.step limits turn = (none, s) ∨ ∃ thread registered pass,
      BlockingPass limits s request waiterId thread registered pass ∧
        s.step limits turn = s.afterPass thread request waiterId pass := by
  cases turn with
  | setlkBlocking thread =>
    cases hturn
    rw [LockSystem.step]
    split
    · exact .inl rfl
    · next hawake => exact .inr ⟨thread, false, _, .call (by simpa using hawake), rfl⟩
  | wake thread =>
    have hasleep : s.sleeping thread = some (request, waiterId) := hturn
    refine .inr ⟨thread, true, _, .wake hasleep, ?_⟩
    rw [LockSystem.step, hasleep]
  | _ => cases hturn

theorem BlockingPass.spec (h : BlockingPass limits s request waiterId thread registered pass) (htidy : SystemTidy s) :
    PassSpec limits request waiterId registered s.table pass := by
  cases h with
  | call => exact setlkBlocking_spec
  | wake hasleep => exact setlkBlockingWake_spec (htidy.sleeping thread _ _ hasleep)

theorem BlockingPass.cases (h : BlockingPass limits s request waiterId thread registered pass) :
    PassCases limits request waiterId registered s.table pass := by
  cases h with
  | call =>
    obtain ⟨e, hrefused, he⟩ | ⟨-, hcases⟩ := setlkBlocking_cases limits request waiterId s.table
    · rw [hrefused]
      exact .refused e fun heq => absurd heq he
    · exact hcases
  | wake =>
    obtain hrefused | ⟨-, -, hcases⟩ := setlkBlockingWake_cases limits request waiterId s.table
    · rw [hrefused]
      exact .refused .interrupted nofun
    · exact hcases

theorem answer_afterPass {result} :
    (s.afterPass thread request waiterId pass).1 = some (.set result) ↔ pass.1 = .done result := by
  obtain ⟨result' | _, table⟩ := pass <;> simp [LockSystem.afterPass]

theorem LockSystem.sleeping_step {turn} (h : (s.step limits turn).2.sleeping thread = some (request, waiterId)) :
    s.sleeping thread = some (request, waiterId) ∨ s.blocking turn = some (request, waiterId) := by
  rcases hturn : s.blocking turn with _ | ⟨r, w⟩
  · have hsame : (s.step limits turn).2.sleeping = s.sleeping := by
      cases turn with
      | setlkBlocking => cases hturn
      | wake other =>
        have hawake : s.sleeping other = none := hturn
        rw [LockSystem.step, hawake]
      | _ => rfl
    exact .inl (hsame ▸ h)
  · rcases LockSystem.blocking_cases limits hturn with hstep | ⟨sleeper, registered, pass, -, hstep⟩
    · rw [hstep] at h
      exact .inl h
    · rw [hstep] at h
      rcases sleeping_of_afterPass h with ⟨-, -, rfl, rfl⟩ | ⟨-, h⟩
      · exact .inr rfl
      · exact .inl h

/-- A thread sleeps with a request that it has called the table with. -/
theorem LockSystem.sleeping_mem_turns {turns}
    (h : (LockSystem.new.run limits turns).sleeping thread = some (request, waiterId)) :
    ∃ caller, .setlkBlocking caller request waiterId ∈ turns := by
  have hrun : ∀ thread r w, (LockSystem.new.run limits turns).sleeping thread = some (r, w) →
      ∃ caller, .setlkBlocking caller r w ∈ turns := by
    refine List.foldlRecOn (b := LockSystem.new)
      (motive := fun s : LockSystem => ∀ thread r w, s.sleeping thread = some (r, w) →
        ∃ caller, .setlkBlocking caller r w ∈ turns)
      turns _ (fun _ _ _ h => nomatch h) fun s hs turn hturn thread r w h => ?_
    rcases sleeping_step h with h | hblocking
    · exact hs thread r w h
    · cases turn with
      | setlkBlocking caller =>
        cases hblocking
        exact ⟨caller, hturn⟩
      | wake thread => exact hs thread r w hblocking
      | _ => cases hblocking
  exact hrun thread request waiterId h

end

/-- The types of lock that an owner holds at a byte. -/
def heldTypes (locks : List ActiveLock) (kind : FileLockKind) (owner : FileLockOwner) (b : UInt64) : Set FileLockType :=
  {lockType | lockView.Held locks ⟨kind, owner, lockType⟩ b.toNat}

/-- The request has been met: its owner holds what it asked for in its range, and nothing else has changed. -/
structure SetPointwise (request : LockRequest) (before after : List ActiveLock) : Prop where
  inside : ∀ b, request.range.Contains b.toNat → heldTypes after request.kind request.owner b =
    if request.lockType = .unlock then ∅ else {request.lockType}
  outside : ∀ b, ¬ request.range.Contains b.toNat →
    heldTypes after request.kind request.owner b = heldTypes before request.kind request.owner b
  others : ∀ kind owner b, (kind, owner) ≠ (request.kind, request.owner) →
    heldTypes after kind owner b = heldTypes before kind owner b

theorem Applied.pointwise (h : Applied limits request state state') (htidy : LocksTidy state.locks) :
    SetPointwise request state.locks state'.locks where
  inside b hb := by
    ext lockType
    show lockView.Held _ _ _ ↔ _
    rw [h.held htidy]
    split
    · next hunlock => simp [hunlock, hb]
    · next hlock => simp [hlock, hb, LockRequest.tag]
  outside b hb := by
    ext lockType
    show lockView.Held _ _ _ ↔ lockView.Held _ _ _
    rw [h.held htidy]
    simp [hb]
  others kind owner b hne := by
    ext lockType
    show lockView.Held _ _ _ ↔ lockView.Held _ _ _
    rw [h.held htidy]
    have hother : ¬ (kind = request.kind ∧ owner = request.owner) := fun heq => hne (Prod.ext heq.1 heq.2)
    constructor
    · rintro (⟨hheld, -⟩ | ⟨-, htag, -⟩)
      · exact hheld
      · obtain ⟨hkind, howner, -⟩ := LockTag.mk.inj htag
        exact absurd ⟨hkind, howner⟩ hother
    · exact fun hheld => .inl ⟨hheld, fun heq => hother ⟨heq.1, heq.2.1⟩⟩

/-- The call has been answered with an error. -/
def LockAnswer.failed : LockAnswer → Bool
  | .set (.error _) | .cancelled (.error _) | .acknowledged (.error _) => true
  | _ => false

/-- What a turn may do to the locks, by its answer. -/
structure SetSpec (s : LockSystem) (turn : LockTurn) (after : Option LockAnswer × LockSystem) : Prop where
  ok : ∀ request, s.sets turn = some request → after.1 = some (.set (.ok ())) →
    SetPointwise request s.table.locks after.2.table.locks
  failed : ∀ answer, after.1 = some answer → answer.failed = true → after.2.table.locks = s.table.locks

/-- **Requests are met byte by byte, or not at all**: in every state that calls and wake-ups lead a table to. -/
theorem lock_updates_pointwise (limits : LockTableLimits) (turns : List LockTurn) (turn : LockTurn) :
    SetSpec (LockSystem.new.run limits turns) turn ((LockSystem.new.run limits turns).step limits turn) := by
  have htidy : SystemTidy (LockSystem.new.run limits turns) := SystemTidy.new.run turns
  generalize LockSystem.new.run limits turns = s at htidy
  have hblocking {request : LockRequest} {waiterId : LockWaiterId} (hturn : s.blocking turn = some (request, waiterId))
      (hsets : s.sets turn = some request) : SetSpec s turn (s.step limits turn) := by
    rcases LockSystem.blocking_cases limits hturn with hstep | ⟨thread, registered, pass, hpass, hstep⟩
    · rw [hstep]
      exact ⟨nofun, nofun⟩
    · have hspec := hpass.spec htidy
      rw [hstep]
      refine ⟨fun request' hrequest hok => ?_, fun answer hanswer hfailed => ?_⟩
      · rw [hsets] at hrequest
        cases hrequest
        rw [LockSystem.table_afterPass]
        exact (hspec.ok (answer_afterPass.mp hok)).pointwise htidy.locks
      · rw [LockSystem.table_afterPass]
        refine hspec.other fun hok => ?_
        rw [answer_afterPass.mpr hok] at hanswer
        cases hanswer
        cases hfailed
  cases turn with
  | setlkNonblocking request =>
    obtain ⟨hok, happlied, -⟩ | ⟨⟨e, herror⟩, hsame⟩ := setlkNonblocking_spec limits request s.table
    · refine ⟨fun request' hrequest _ => ?_, fun answer hanswer hfailed => ?_⟩
      · cases hrequest
        exact happlied.pointwise htidy.locks
      · cases hanswer
        rw [hok] at hfailed
        cases hfailed
    · refine ⟨fun request' _ hanswer => ?_, fun _ _ _ => by rw [LockSystem.step, hsame]⟩
      rw [LockSystem.step, herror] at hanswer
      cases hanswer
  | setlkBlocking => exact hblocking rfl rfl
  | wake thread =>
    rcases hsleeping : s.sleeping thread with _ | ⟨request, waiterId⟩
    · rw [LockSystem.step, hsleeping]
      exact ⟨nofun, nofun⟩
    · exact hblocking hsleeping (congrArg (Option.map Prod.fst) hsleeping)
  | cancelWaiter => exact ⟨nofun, fun _ _ _ => locks_cancelWaiterWithOutcome⟩
  | acknowledgeWaiter => exact ⟨nofun, fun _ _ _ => locks_acknowledgeWaiter⟩
  | releasePosixOwner | releaseFlockOwner | releaseSession | invalidate =>
    refine ⟨nofun, fun answer hanswer hfailed => ?_⟩
    cases hanswer
    cases hfailed

end Afs.Locks
