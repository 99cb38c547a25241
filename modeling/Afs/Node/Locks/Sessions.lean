import Afs.Node.Locks.Runs

/-!
# `Node.Locks.Sessions` — sessions that a table has closed

`release_session` takes the locks and waiters of a session away and leaves a tombstone. From then on the table is `Shut`
for the session: no call grants it a lock or lets it wait, and no call opens the table again.
-/

namespace Afs.Locks

variable {limits : LockTableLimits} {request : LockRequest} {waiterId : LockWaiterId} {state state' : LockTableState}
  {session : String}

/-! ## Who gets a lock -/

/-- A lock after a request belongs to an owner that had one of the kind before, or the request has asked for it. -/
theorem Applied.mem (h : Applied limits request state state') (htidy : LocksTidy state.locks) {lock}
    (hlock : lock ∈ state'.locks) : (∃ old ∈ state.locks, old.owner = lock.owner ∧ old.kind = lock.kind) ∨
      request.lockType ≠ .unlock ∧ lock.owner = request.owner := by
  -- every lock covers its first byte
  have hfirst : lockView.Held state'.locks lock.tag lock.range.start.toNat :=
    ⟨lock, hlock, rfl, le_rfl, (h.tidy htidy).nonempty lock hlock⟩
  rcases (h.held htidy _ _).mp hfirst with ⟨⟨old, hold, htag, -⟩, -⟩ | ⟨hlockType, htag, -⟩
  · exact .inl ⟨old, hold, congrArg LockTag.owner htag, congrArg LockTag.kind htag⟩
  · exact .inr ⟨hlockType, congrArg LockTag.owner htag⟩

/-- The table after a call that asks for a lock: if the call is `granted`, new locks are the request's. -/
def Grants (request : LockRequest) (granted : Prop) (state state' : LockTableState) : Prop :=
  ∀ lock ∈ state'.locks, (∃ old ∈ state.locks, old.owner = lock.owner ∧ old.kind = lock.kind) ∨
    granted ∧ request.lockType ≠ .unlock ∧ lock.owner = request.owner

theorem grants_of_locks_eq {granted : Prop} (h : state'.locks = state.locks) : Grants request granted state state' :=
  fun lock hlock => .inl ⟨lock, h ▸ hlock, rfl, rfl⟩

theorem grants_setlkNonblocking (htidy : LocksTidy state.locks) :
    Grants request ((setlkNonblocking limits request state).1 = .ok ()) state
      (setlkNonblocking limits request state).2 := by
  obtain ⟨hok, happlied, -⟩ | ⟨-, hsame⟩ := setlkNonblocking_spec limits request state
  · exact fun lock hlock => (happlied.mem htidy hlock).imp_right fun hnew => ⟨hok, hnew⟩
  · exact grants_of_locks_eq (by rw [hsame])

theorem PassSpec.grants {registered pass}
    (h : PassSpec limits request waiterId registered state pass) (htidy : LocksTidy state.locks) :
    Grants request (pass.1 = .done (.ok ())) state pass.2 := by
  by_cases hok : pass.1 = .done (.ok ())
  · exact fun lock hlock => ((h.ok hok).mem htidy hlock).imp_right fun hnew => ⟨hok, hnew⟩
  · exact grants_of_locks_eq (h.other hok)

/-! ## Closed sessions -/

/-- The table has no lock of the session and will not have one. -/
structure Shut (session : String) (state : LockTableState) : Prop where
  locks : ∀ lock ∈ state.locks, lock.owner.ingressSessionId ≠ session
  refuses : state.invalidated = true ∨
    (session ∈ state.closedSessions ∨ state.closedSessionAdmissionClosed = true) ∧
      ∀ w waiting, state.waiters.lookup w = some waiting →
        w.ingressSessionId ≠ session ∧ waiting.owner.ingressSessionId ≠ session

namespace Shut

section

variable (h : Shut session state)

include h

theorem setlkNonblocking_ne_ok (hlock : request.lockType ≠ .unlock)
    (hsession : request.owner.ingressSessionId = session) : (setlkNonblocking limits request state).1 ≠ .ok () := by
  unfold setlkNonblocking
  split
  · exact nofun
  split
  · exact nofun
  next hvalid =>
  obtain ⟨hclosed, -⟩ := h.refuses.resolve_left hvalid
  split
  · exact nofun
  next hopen =>
  split
  · exact nofun
  next hadmission =>
  rcases hclosed with hclosed | hclosed
  · exact absurd ⟨hlock, hsession.symm ▸ hclosed⟩ hopen
  · exact absurd ⟨hlock, hclosed⟩ hadmission

theorem setlkBlocking_refuses (hlock : request.lockType ≠ .unlock)
    (hsession : request.owner.ingressSessionId = session) :
    ∃ e, setlkBlocking limits request waiterId state = (.done (.error e), state) := by
  obtain ⟨e, hrefused, -⟩ | ⟨hadmits, -⟩ := setlkBlocking_cases limits request waiterId state
  · exact ⟨e, hrefused⟩
  · obtain ⟨hopen, -, hadmission⟩ := hadmits.sessions hlock
    rcases h.refuses with hinvalid | ⟨hclosed | hclosed, -⟩
    · cases hadmits.valid.symm.trans hinvalid
    · exact absurd (hsession.symm ▸ hclosed) hopen
    · cases hadmission.symm.trans hclosed

/-- A thread of the session that wakes up finds that it does not wait any more. -/
theorem setlkBlockingWake_refuses (hsession : waiterId.ingressSessionId = session) :
    setlkBlockingWake limits request waiterId state = (.done (.error .interrupted), removeWaiter waiterId state) := by
  unfold setlkBlockingWake
  rw [if_pos]
  by_cases hvalid : state.invalidated = true
  · exact .inl hvalid
  · have hwaiters := (h.refuses.resolve_left hvalid).2
    refine .inr (.inr (.inr (.inr ?_)))
    cases hwaiting : state.waiters.lookup waiterId with
    | none => rfl
    | some waiting => exact absurd hsession (hwaiters waiterId waiting hwaiting).1

/-- A call that takes away, and keeps the tombstones unless it invalidates. -/
theorem shrinks (hshrinks : Shrinks state state')
    (hclosed : state'.invalidated = true ∨ (session ∈ state.closedSessions → session ∈ state'.closedSessions) ∧
      (state.closedSessionAdmissionClosed = true → state'.closedSessionAdmissionClosed = true)) :
        Shut session state' where
  locks := fun lock hlock => h.locks lock (hshrinks.locks.subset hlock)
  refuses := by
    rcases h.refuses with hinvalid | ⟨hbefore, hwaiters⟩
    · exact .inl (hshrinks.invalidated hinvalid)
    · rcases hclosed with hinvalid | ⟨hsessions, hadmission⟩
      · exact .inl hinvalid
      · exact .inr ⟨hbefore.imp hsessions hadmission, fun w waiting hw =>
          hwaiters w waiting (hshrinks.waiters w waiting hw)⟩

/-- A call that asks for a lock, and is refused if it is of the session. -/
theorem call {granted : Prop} (hgrants : Grants request granted state state')
    (hrefused : request.lockType ≠ .unlock → request.owner.ingressSessionId = session → ¬granted)
    (hinvalidated : state'.invalidated = state.invalidated) (hsessions : SameSessions state state')
    (hwaiters : ∀ w waiting, state'.waiters.lookup w = some waiting →
      (∃ before, state.waiters.lookup w = some before ∧ before.owner = waiting.owner) ∨
        w.ingressSessionId ≠ session ∧ waiting.owner.ingressSessionId ≠ session) : Shut session state' where
  locks := by
    intro lock hlock hsession
    rcases hgrants lock hlock with ⟨old, hold, howner, -⟩ | ⟨hgranted, hlockType, howner⟩
    · exact h.locks old hold (howner ▸ hsession)
    · exact hrefused hlockType (howner ▸ hsession) hgranted
  refuses := by
    rw [hinvalidated, hsessions.closed, hsessions.admission]
    refine h.refuses.imp_right fun ⟨hclosed, hbefore⟩ => ⟨hclosed, fun w waiting hw => ?_⟩
    rcases hwaiters w waiting hw with ⟨before, hw, howner⟩ | hother
    · exact howner ▸ hbefore w before hw
    · exact hother

theorem setlkNonblocking (htidy : LocksTidy state.locks) :
    Shut session (setlkNonblocking limits request state).2 := by
  have hrefused : request.lockType ≠ .unlock → request.owner.ingressSessionId = session →
      (Locks.setlkNonblocking limits request state).1 ≠ .ok () := h.setlkNonblocking_ne_ok
  obtain ⟨-, -, hwaiters, hinvalidated, hsessions⟩ | ⟨-, hsame⟩ := setlkNonblocking_spec limits request state
  · refine h.call (grants_setlkNonblocking htidy) hrefused hinvalidated hsessions fun w waiting hw => ?_
    exact .inl ⟨waiting, hwaiters ▸ hw, rfl⟩
  · rwa [hsame]

theorem pass (htidy : LocksTidy state.locks) {registered pass}
    (hspec : PassSpec limits request waiterId registered state pass)
    (hmatch : waiterId.ingressSessionId = request.owner.ingressSessionId)
    (hrefused : request.lockType ≠ .unlock → request.owner.ingressSessionId = session →
      ∃ e, pass.1 = .done (.error e)) :
    Shut session pass.2 := by
  refine h.call (hspec.grants htidy) (fun hlock hsession hok => ?_) hspec.invalidated hspec.sessions
    fun w waiting hw => ?_
  · obtain ⟨e, he⟩ := hrefused hlock hsession
    rw [he] at hok
    cases hok
  · have hwaiters := hspec.waiters
    unfold PassWaiters at hwaiters
    split at hwaiters
    · next hwait =>
      rcases hwaiters w waiting hw with ⟨rfl, howner, -⟩ | hbefore
      · -- a thread that starts to wait is not of the session
        have hsession : request.owner.ingressSessionId ≠ session := by
          intro hsession
          obtain ⟨e, he⟩ := hrefused (hspec.wait hwait).2 hsession
          rw [he] at hwait
          cases hwait
        exact .inr ⟨hmatch ▸ hsession, howner ▸ hsession⟩
      · exact .inl hbefore
    · rw [hwaiters] at hw
      split at hw
      · exact .inl ⟨waiting, (shrinks_removeWaiter waiterId state).waiters w waiting hw, rfl⟩
      · exact .inl ⟨waiting, hw, rfl⟩

theorem setlkBlocking (htidy : LocksTidy state.locks)
    (hmatch : waiterId.ingressSessionId = request.owner.ingressSessionId) :
    Shut session (setlkBlocking limits request waiterId state).2 := by
  refine h.pass htidy setlkBlocking_spec hmatch fun hlock hsession => ?_
  obtain ⟨e, he⟩ := h.setlkBlocking_refuses hlock hsession
  exact ⟨e, congrArg Prod.fst he⟩

theorem setlkBlockingWake (htidy : LocksTidy state.locks) (hrange : request.range.isValid = true)
    (hmatch : waiterId.ingressSessionId = request.owner.ingressSessionId) :
    Shut session (setlkBlockingWake limits request waiterId state).2 := by
  refine h.pass htidy (setlkBlockingWake_spec hrange) hmatch fun _ hsession => ⟨.interrupted, ?_⟩
  exact congrArg Prod.fst (h.setlkBlockingWake_refuses (hmatch.trans hsession))

theorem cancelWaiterWithOutcome : Shut session (cancelWaiterWithOutcome limits waiterId state).2 := by
  refine h.shrinks shrinks_cancelWaiterWithOutcome (.inr ?_)
  obtain ⟨hsame, -⟩ | ⟨stored, hstored⟩ := cancelWaiterWithOutcome_cases limits waiterId state
  · rw [hsame]
    exact ⟨id, id⟩
  · rw [hstored]
    exact ⟨id, id⟩

theorem acknowledgeWaiter : Shut session (acknowledgeWaiter waiterId state).2 := by
  refine h.shrinks shrinks_acknowledgeWaiter (.inr ?_)
  unfold Locks.acknowledgeWaiter
  split <;> exact ⟨id, id⟩

theorem releaseOwner (kind : FileLockKind) (owner : FileLockOwner) : Shut session (releaseOwner kind owner state) :=
  h.shrinks (shrinks_releaseOwner kind owner) (.inr ⟨id, id⟩)

theorem releaseSession (other : String) : Shut session (releaseSession limits other state) := by
  refine h.shrinks (shrinks_releaseSession limits other) (.inr ?_)
  unfold Locks.releaseSession
  split
  · exact ⟨id, id⟩
  · refine ⟨fun hclosed => ?_, fun hadmission => by simp [hadmission]⟩
    dsimp only
    split
    · exact Finset.mem_insert_of_mem hclosed
    · exact hclosed

end

theorem invalidate (session : String) (state : LockTableState) : Shut session (invalidate state) := ⟨nofun, .inl rfl⟩

end Shut

theorem closed_releaseSession (limits : LockTableLimits) (session : String) (hvalid : state.invalidated = false) :
    session ∈ (releaseSession limits session state).closedSessions ∨
      (releaseSession limits session state).closedSessionAdmissionClosed = true := by
  rw [releaseSession, if_neg (by simp [hvalid])]
  dsimp only
  by_cases hclosed : session ∈ state.closedSessions
  · exact .inl (by simp [hclosed])
  · by_cases hfull : limits.maxCancelledWaiters = 0 ∨ state.closedSessions.card ≥ limits.maxCancelledWaiters
    · exact .inr (by simp [hclosed, hfull])
    · exact .inl (by rw [if_pos ⟨hclosed, hfull⟩]; exact Finset.mem_insert_self ..)

/-- The table is shut for a session that it has released. -/
theorem shut_releaseSession (hinvalid : state.invalidated = true → state.locks = []) :
    Shut session (releaseSession limits session state) := by
  by_cases hvalid : state.invalidated = true
  · rw [releaseSession, if_pos hvalid]
    refine ⟨fun lock hlock => ?_, .inl hvalid⟩
    rw [hinvalid hvalid] at hlock
    cases hlock
  · have hclosed := closed_releaseSession limits session (Bool.eq_false_iff.mpr hvalid)
    rw [releaseSession, if_neg hvalid] at hclosed ⊢
    refine ⟨fun lock hlock => ?_, .inr ⟨hclosed, fun w waiting hw => ?_⟩⟩
    · simpa using (List.mem_filter.mp hlock).2
    · simpa using (Pairs.lookup_retain.mp hw).2

end Afs.Locks
