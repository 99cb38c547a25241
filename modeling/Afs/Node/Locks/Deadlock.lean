import Afs.Lib.Search
import Afs.Node.Locks.Runs

/-!
# `Node.Locks.Deadlock` — waits between lock owners

A blocked request records the owners of the locks it conflicts with, and before it goes to sleep the table searches
the recorded waits for a way back to its owner. A recorded wait may be out of date: the lock is gone, and the waiter
has been notified but has not run yet. So an answer `Deadlock` is about the records (`deadlock_justified` says when it
is about the locks), and `unlocked_but_not_woken` is a schedule in which nobody waits for anybody.
-/

namespace Afs.Locks

open Relation List

variable {limits : LockTableLimits} {request : LockRequest} {waiterId : LockWaiterId}
  {waiters : AList (fun _ : LockWaiterId => WaitingLock)} {owner : FileLockOwner} {blockers : List FileLockOwner}

/-! ## The search -/

/-- The owners that waiters of `current` are recorded to wait for. -/
def recorded (waiters : AList (fun _ : LockWaiterId => WaitingLock)) (current : FileLockOwner) : List FileLockOwner :=
  (waiters.entries.filter (·.2.owner = current)).flatMap (·.2.blockers)

theorem mem_recorded {u v} :
    v ∈ recorded waiters u ↔
      ∃ w waiting, waiters.lookup w = some waiting ∧ waiting.owner = u ∧ v ∈ waiting.blockers := by
  simp only [recorded, mem_flatMap, mem_filter, decide_eq_true_eq, ← Option.mem_def, AList.mem_lookup_iff]
  constructor
  · rintro ⟨entry, ⟨hentry, howner⟩, hv⟩
    exact ⟨entry.1, entry.2, hentry, howner, hv⟩
  · rintro ⟨w, waiting, hentry, howner, hv⟩
    exact ⟨⟨w, waiting⟩, ⟨hentry, howner⟩, hv⟩

theorem waitsForOwner_eq (target : FileLockOwner) (fuel : Nat) :
    waitsForOwner waiters target fuel = Search.search (recorded waiters) target fuel := by
  induction fuel with
  | zero => rfl
  | succ fuel ih =>
    funext current
    rw [waitsForOwner, Search.search, ih]
    rfl

/-- **The deadlock check is exact** for the recorded waits. -/
theorem wouldDeadlock_iff :
    wouldDeadlock waiters owner blockers = true ↔
      ∃ b ∈ blockers, ReflTransGen (fun u v => v ∈ recorded waiters u) b owner := by
  let sources : Finset FileLockOwner := (waiters.entries.map (·.2.owner)).toFinset
  rw [wouldDeadlock, waitsForOwner_eq]
  constructor
  · intro h
    obtain ⟨b, hb, _, hfound⟩ := Search.anyM_true h
    exact ⟨b, hb, Search.search_sound hfound⟩
  · rintro ⟨b, hb, hpath⟩
    by_contra hno
    have hsources : ∀ u, recorded waiters u ≠ [] → u ∈ sources := by
      intro u hu
      obtain ⟨v, hv⟩ := exists_mem_of_ne_nil _ hu
      obtain ⟨w, waiting, hlookup, rfl, -⟩ := mem_recorded.mp hv
      exact mem_toFinset.mpr (mem_map.mpr ⟨⟨w, waiting⟩, AList.mem_lookup_iff.mp hlookup, rfl⟩)
    have hfuel : Search.remaining sources [] < waiters.keys.length + 2 := by
      have hcard : sources.card ≤ (waiters.entries.map (·.2.owner)).length := toFinset_card_le _
      have hkeys : waiters.keys.length = waiters.entries.length := length_map _
      rw [length_map] at hcard
      simp only [Search.remaining, toFinset_nil, Finset.sdiff_empty]
      omega
    have hexhausted := Search.exhausted_anyM (fun x seen hbound hx => Search.exhausted_search hsources hbound hx) hfuel
      (Bool.eq_false_iff.mpr hno)
    exact hexhausted.unreachable hb hpath

theorem mem_blockingOwners {locks o} :
    o ∈ blockingOwners locks request ↔ ∃ lock ∈ locks, conflicts lock request = true ∧ lock.owner = o := by
  have hfold (conflicting : List ActiveLock) (owners : List FileLockOwner) :
      o ∈ conflicting.foldl (fun owners lock => if lock.owner ∈ owners then owners else owners ++ [lock.owner]) owners ↔
        o ∈ owners ∨ ∃ lock ∈ conflicting, lock.owner = o := by
    induction conflicting generalizing owners with
    | nil => simp
    | cons lock rest ih =>
      simp only [foldl_cons, ih, mem_cons, exists_eq_or_imp, ← or_assoc]
      refine or_congr ?_ Iff.rfl
      split
      · next hmem => exact ⟨.inl, fun h => h.elim id fun heq => heq ▸ hmem⟩
      · rw [mem_append, mem_singleton, eq_comm]
  simp [blockingOwners, hfold, and_assoc]

/-! ## Answers -/

/-- An owner waits for another one: a registered request of the first conflicts with an active lock of the second. -/
def WaitsFor (s : LockSystem) (u v : FileLockOwner) : Prop :=
  ∃ thread request waiterId waiting, s.sleeping thread = some (request, waiterId) ∧
    s.table.waiters.lookup waiterId = some waiting ∧ request.owner = u ∧
    ∃ lock ∈ s.table.locks, conflicts lock request = true ∧ lock.owner = v

/-- The owner of the request is blocked by an active lock of an owner that waits for it. -/
def RealCycle (s : LockSystem) (request : LockRequest) : Prop :=
  ∃ lock ∈ s.table.locks, conflicts lock request = true ∧ ReflTransGen (WaitsFor s) lock.owner request.owner

/-- **No wake-up is pending**: the owners that a waiter has on record still have locks that its request conflicts
    with. -/
def RecordsHold (s : LockSystem) : Prop :=
  ∀ waiterId waiting, s.table.waiters.lookup waiterId = some waiting →
    ∃ thread request, s.sleeping thread = some (request, waiterId) ∧ request.owner = waiting.owner ∧
      ∀ o ∈ waiting.blockers, ∃ lock ∈ s.table.locks, conflicts lock request = true ∧ lock.owner = o

/-- **Deadlock answers are justified** in every state in which no wake-up is pending. -/
theorem deadlock_justified (limits : LockTableLimits) (turns : List LockTurn) (turn : LockTurn)
    (hrecords : RecordsHold (LockSystem.new.run limits turns))
    (hturn : (LockSystem.new.run limits turns).blocking turn = some (request, waiterId))
    (hanswer : ((LockSystem.new.run limits turns).step limits turn).1 = some (.set (.error .deadlock))) :
    RealCycle (LockSystem.new.run limits turns) request := by
  generalize LockSystem.new.run limits turns = s at hrecords hturn hanswer ⊢
  have hfound : wouldDeadlock s.table.waiters request.owner (blockingOwners s.table.locks request) = true := by
    rcases LockSystem.blocking_cases limits hturn with hstep | ⟨thread, registered, pass, hpass, hstep⟩
    · rw [hstep] at hanswer
      cases hanswer
    · rw [hstep] at hanswer
      have hdone := answer_afterPass.mp hanswer
      cases hpass.cases with
      | refused e hdeadlock =>
        cases hdone
        exact hdeadlock rfl
      | granted | waits => cases hdone
  obtain ⟨b, hb, hpath⟩ := wouldDeadlock_iff.mp hfound
  obtain ⟨lock, hlock, hconflict, rfl⟩ := mem_blockingOwners.mp hb
  refine ⟨lock, hlock, hconflict, ReflTransGen.mono (fun u v huv => ?_) _ _ hpath⟩
  obtain ⟨w, waiting, hlookup, rfl, hv⟩ := mem_recorded.mp huv
  obtain ⟨thread, request', hsleeping, howner, hblockers⟩ := hrecords w waiting hlookup
  exact ⟨thread, request', w, waiting, hsleeping, hlookup, howner, hblockers v hv⟩

/-- Two owners that wait for each other. -/
theorem deadlock_justified_two_owners :
    let a : FileLockOwner := ⟨"mount", 1⟩
    let b : FileLockOwner := ⟨"mount", 2⟩
    let turns : List LockTurn :=
      [.setlkNonblocking ⟨.posix, a, 1, ⟨0, 9⟩, .write⟩, .setlkNonblocking ⟨.posix, b, 2, ⟨10, 19⟩, .write⟩,
        .setlkBlocking 0 ⟨.posix, b, 2, ⟨0, 9⟩, .write⟩ ⟨"mount", 7⟩]
    RealCycle (LockSystem.new.run .default turns) ⟨.posix, a, 1, ⟨10, 19⟩, .write⟩ := by
  intro a b turns
  refine deadlock_justified .default turns (.setlkBlocking 1 ⟨.posix, a, 1, ⟨10, 19⟩, .write⟩ ⟨"mount", 8⟩)
    (fun w waiting hw => ?_) rfl (by decide +kernel)
  have hentries : (LockSystem.new.run .default turns).table.waiters.entries = [⟨⟨"mount", 7⟩, ⟨b, .posix, [a]⟩⟩] := by
    decide +kernel
  have hmem := AList.mem_lookup_iff.mp hw
  rw [hentries, mem_singleton] at hmem
  cases hmem
  exact ⟨0, ⟨.posix, b, 2, ⟨0, 9⟩, .write⟩, by decide +kernel, rfl, by decide +kernel⟩

/-- The owner that `b` waits for has given its lock up, but `b` has not run since then. -/
theorem unlocked_but_not_woken :
    let a : FileLockOwner := ⟨"mount", 1⟩
    let b : FileLockOwner := ⟨"mount", 2⟩
    let s := LockSystem.new.run .default
      [.setlkNonblocking ⟨.posix, a, 1, ⟨0, 9⟩, .write⟩, .setlkNonblocking ⟨.posix, b, 2, ⟨10, 19⟩, .write⟩,
        .setlkBlocking 0 ⟨.posix, b, 2, ⟨0, 9⟩, .write⟩ ⟨"mount", 7⟩,
        .setlkNonblocking ⟨.posix, a, 1, ⟨0, 9⟩, .unlock⟩]
    let request : LockRequest := ⟨.posix, a, 1, ⟨10, 19⟩, .write⟩
    (s.step .default (.setlkBlocking 1 request ⟨"mount", 8⟩)).1 = some (.set (.error .deadlock)) ∧
      ¬ RealCycle s request := by
  intro a b s request
  have hfree : ∀ lock ∈ s.table.locks, conflicts lock ⟨.posix, b, 2, ⟨0, 9⟩, .write⟩ = false := by decide +kernel
  have hnone (u v : FileLockOwner) : ¬ WaitsFor s u v := by
    rintro ⟨thread, r, w, -, hsleeping, -, -, lock, hlock, hconflict, -⟩
    obtain ⟨caller, hturn⟩ := LockSystem.sleeping_mem_turns hsleeping
    simp only [mem_cons, reduceCtorEq, LockTurn.setlkBlocking.injEq, not_mem_nil, false_or, or_false] at hturn
    obtain ⟨-, rfl, -⟩ := hturn
    cases (hfree lock hlock).symm.trans hconflict
  refine ⟨by decide +kernel, ?_⟩
  rintro ⟨lock, hlock, hconflict, hpath⟩
  rcases ReflTransGen.cases_head hpath with howner | ⟨v, hv, -⟩
  · simp [conflicts, howner] at hconflict
  · exact hnone _ _ hv

end Afs.Locks
