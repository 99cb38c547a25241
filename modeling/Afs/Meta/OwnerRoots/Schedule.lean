import Afs.Meta.Dfs.Script
import Afs.Meta.OwnerRoots.Runs

/-!
# `Meta.OwnerRoots.Schedule` — schedules that can be computed

A schedule says which request issues its next operation, so that requests interleave, and when requests arrive, nodes
register and time passes. Playing a schedule is a computation, and it is a run of the root authority. A condition on the
steps of the run is met if a check that can be computed finds it so at every event.
-/

namespace Afs.OwnerRoots

open Interaction Relation

/-- What a schedule may let happen next. -/
inductive OwnerEvent
  | arrive (r : OwnerRequest)
  | act (i : Nat)
  | register (request : RequestKey) (lease : NodeSessionLease)
  | clock (now : UInt64)

variable {event : OwnerEvent} {events : List OwnerEvent} {i : Nat} {r : OwnerRequest} {op : StoreOp}

/-- Request `i` issues its next operation. The store answers at once and without failures. -/
def takeTurn (c : OwnerPool) (i : Nat) : OwnerPool :=
  match c.procs[i]? with
  | some (r, .call op k) => ⟨(answer c.state op).2, c.procs.set i (r, k (answer c.state op).1)⟩
  | _ => c

/-- The pool after one event. -/
def play (c : OwnerPool) : OwnerEvent → OwnerPool
  | .arrive r => ⟨c.state, c.procs ++ [(r, handle r)]⟩
  | .act i => takeTurn c i
  | .register request lease =>
    ⟨⟨(c.state.store.registerNodeSession c.state.clock request lease).2, c.state.clock⟩, c.procs⟩
  | .clock now => ⟨⟨c.state.store, now⟩, c.procs⟩

/-- The pool after a schedule, from an empty store at time zero. -/
def playAll (events : List OwnerEvent) : OwnerPool := events.foldl play ⟨⟨StoreState.new, 0⟩, []⟩

theorem playAll_concat (events : List OwnerEvent) (event : OwnerEvent) :
    playAll (events ++ [event]) = play (playAll events) event := by
  rw [playAll, List.foldl_append]
  rfl

/-- The check finds every event of the schedule right. -/
def scheduleMeets (check : OwnerPool → OwnerEvent → Bool) : OwnerPool → List OwnerEvent → Bool
  | _, [] => true
  | c, event :: events => check c event && scheduleMeets check (play c event) events

variable {tick : Tick} {condition : StepCondition} {check : OwnerPool → OwnerEvent → Bool} {c : OwnerPool}

theorem serve_answer (s : System) (op : StoreOp) : serve s op (answer s op).1 (answer s op).2 := by
  cases op with
  | read | readView | commit => exact ⟨rfl, .inl rfl⟩
  | now => exact ⟨rfl, rfl⟩

theorem run_play (hclock : ∀ now, event = .clock now → tick c.state.clock now) (h : condition c (play c event)) :
    OwnerRun tick condition c (play c event) := by
  cases event with
  | arrive r => exact .single (.step (.arrive r rfl) h)
  | act i =>
    simp only [play, takeTurn] at h ⊢
    split at h
    · next r op k hi => exact .single (.step (.act i r op _ ⟨serve_answer _ _, k, hi, rfl⟩) h)
    · exact .refl
  | register request lease => exact .single (.step (.env (.register request lease) rfl) h)
  | clock now => exact .single (.step (.env (.tick now (hclock now rfl)) rfl) h)

section

variable (hclock : ∀ now, .clock now ∈ events → ∀ before, tick before now)
    (hcheck : ∀ c event, check c event = true → condition c (play c event))

include hclock hcheck

/-- **Playing a schedule is a run of the root authority.** -/
theorem run_schedule (h : scheduleMeets check c events = true) : OwnerRun tick condition c (events.foldl play c) := by
  induction events generalizing c with
  | nil => exact .refl
  | cons event rest ih =>
    rw [scheduleMeets, Bool.and_eq_true] at h
    refine .trans (run_play ?_ (hcheck c event h.1)) (ih (fun now hnow => hclock now (List.mem_cons_of_mem _ hnow)) h.2)
    rintro now rfl
    exact hclock now (List.mem_cons_self ..) _

theorem reachable_playAll (h : scheduleMeets check ⟨⟨StoreState.new, 0⟩, []⟩ events = true) :
    OwnerReachable tick condition (playAll events) := ⟨0, run_schedule hclock hcheck h⟩

end

theorem scheduleMeets_true (events : List OwnerEvent) (c : OwnerPool) :
    scheduleMeets (fun _ _ => true) c events = true := by
  induction events generalizing c with
  | nil => rfl
  | cons event rest ih => exact ih _

/-- Any schedule is a run. -/
theorem run_any (hclock : ∀ now, .clock now ∈ events → ∀ before, tick before now) (c : OwnerPool) :
    OwnerRun tick anyStep c (events.foldl play c) :=
  run_schedule hclock (fun _ _ _ => trivial) (scheduleMeets_true events c)

/-- The request and the answer of request `i`, once it has answered. -/
def answerOf (c : OwnerPool) (i : Nat) : Option (OwnerRequest × OwnerResponse) :=
  match c.procs[i]? with
  | some (r, .ret response) => some (r, response)
  | _ => none

theorem answers_of_answerOf {response} (h : answerOf c i = some (r, response)) : Answers c i r response := by
  unfold answerOf at h
  split at h
  · next hi =>
    cases h
    exact hi
  · cases h

/-! ## Which request commits -/

/-- An event in which a request commits is its turn. -/
theorem commits_play {txn} (h : Commits c i r txn (play c event)) :
    event = .act i ∧ ∃ k, c.procs[i]? = some (r, .call (.commit txn) k) := by
  obtain ⟨reply, hact⟩ := h.act
  obtain ⟨k, hi, hset⟩ := hact.procs
  refine ⟨?_, k, hi⟩
  have hlt : i < c.procs.length := (List.getElem?_eq_some_iff.mp hi).1
  have hafter : (play c event).procs[i]? = some (r, k reply) := by rw [hset, List.getElem?_set_self hlt]
  have hchanged : (play c event).procs[i]? ≠ c.procs[i]? := by
    rw [hafter, hi, ne_eq, Option.some.injEq, Prod.mk.injEq]
    exact fun he => Prog.continuation_ne _ _ k reply rfl he.2
  cases event with
  | arrive r' => exact absurd (List.getElem?_append_left hlt) hchanged
  | act j =>
    by_cases hij : j = i
    · rw [hij]
    · refine absurd ?_ hchanged
      rw [play, takeTurn]
      split
      · exact List.getElem?_set_ne hij
      · rfl
  | register | clock => exact absurd rfl hchanged

variable {k : op.Reply → OwnerProg OwnerResponse}

/-- A turn of a request that has an operation to issue. -/
theorem act_turn (hi : c.procs[i]? = some (r, .call op k)) :
    ∃ reply, Pool.Act ownerServe c i r op reply (play c (.act i)) := by
  have hturn : play c (.act i) = ⟨(answer c.state op).2, c.procs.set i (r, k (answer c.state op).1)⟩ := by
    simp only [play, takeTurn, hi]
  rw [hturn]
  exact ⟨_, serve_answer _ _, k, hi, rfl⟩

/-- A request that has arrived last acts. -/
theorem act_arrived (h : handle r = .call op k) (c : OwnerPool) :
    ∃ reply, Pool.Act ownerServe (play c (.arrive r)) c.procs.length r op reply
      (play (play c (.arrive r)) (.act c.procs.length)) := by
  apply act_turn (k := k)
  rw [play, List.getElem?_concat_length, h]

/-- Nobody but request `i` has an operation to issue. -/
def quietBut (c : OwnerPool) (i : Nat) : Bool :=
  (List.range c.procs.length).all fun j => j = i ||
    match c.procs[j]? with
    | some (_, .call _ _) => false
    | _ => true

theorem not_underWay_of_quiet {j p} (h : quietBut c i = true) (hij : j ≠ i)
    (hp : c.procs[j]? = some (r, p)) : ¬UnderWay handle r p := by
  rintro ⟨-, o, k, rfl⟩
  have hlt : j < c.procs.length := (List.getElem?_eq_some_iff.mp hp).1
  have hj := List.all_eq_true.mp h j (List.mem_range.mpr hlt)
  simp [hij, hp] at hj

/-! ## One root

Node `a` is the home of the root, node `b` uses it. -/

namespace Scene

def register (node session : String) : OwnerEvent :=
  .register ⟨node, session⟩ ⟨node, session, "", "", "", [], 60000⟩

def reserve : ReserveRootInput := ⟨"reserve", "root", "a", "a1", 1, "mkdir"⟩

def activate : ActivateRootInput where
  requestId := "activate"
  reservation := ⟨"root", 1, "a", "a1", "mkdir", (newReservation reserve).prepareToken⟩
  localPrepareId := "local"

/-- Node `b` acquires access. -/
def acquire (requestId : String) : AcquireRootInput := ⟨requestId, "root", "b", "b1", [.read], 0, 0⟩

/-- Node `a` recovers the root in one of its sessions. -/
def recover (requestId session : String) : RecoverRootInput := ⟨requestId, "root", 1, "a", session, "local"⟩

/-- Node `b` presents its grant of a generation, issued while `a` was in the given session. -/
def present (session : String) (generation : UInt64) : ValidateRootAccessInput :=
  ⟨"root", 1, session, "b", "b1", generation, fencingToken "root" "b1" generation⟩

/-- The request arrives as the one with index `i` and takes so many turns before anything else happens. -/
def serve (i turns : Nat) (r : OwnerRequest) : List OwnerEvent := .arrive r :: List.replicate turns (.act i)

/-- Both nodes are registered, and the root is active in the first session of its home. -/
def active : List OwnerEvent :=
  [register "a" "a1", register "b" "b1"] ++ serve 0 2 (.reserve reserve) ++ serve 1 2 (.activate activate)

end Scene

end Afs.OwnerRoots
