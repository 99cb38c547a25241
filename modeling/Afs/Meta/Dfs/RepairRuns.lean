import Afs.Lib.Phases
import Afs.Meta.Dfs.Runs
import Afs.Meta.Dfs.Script

/-!
# `Meta.Dfs.RepairRuns` — runs in which claims are not disturbed

A claim is made from a listing, and until it commits the listed records may change. `StepUnder` are the steps of runs
that a condition on the pool restricts, so that a run can be one in which no claim under way is disturbed.
What a claim then relies on is carried from its listing to its commit (`RepairCalm`); everything else about the steps is
said once in `RepairStepCase`.
-/

namespace Afs

open Interaction Relation

variable {events more : List Event}

/-! ## Runs under a condition on the steps -/

/-- A condition on the steps of a run. -/
abbrev StepCondition := ServicePool → ServicePool → Prop

def anyStep : StepCondition := fun _ _ => True

section

variable (service : DfsService) (tick : Tick) (condition : StepCondition)

/-- One step of a run whose steps meet a condition. -/
def StepUnder (c c' : ServicePool) : Prop := ServiceStep service tick anyRun c c' ∧ condition c c'

abbrev RunUnder := ReflTransGen (StepUnder service tick condition)

/-- A pool that such a run leads to from an empty store. -/
def ReachableUnder (c : ServicePool) : Prop := ∃ clock, RunUnder service tick condition (initialPool clock) c

end

/-- The transaction of handler `i` takes effect in the step. -/
structure TakesEffect (c : ServicePool) (i : Nat) (r : Request) (txn : MetaTxn) (c' : ServicePool) : Prop where
  act : ∃ reply, Pool.Act (served anyRun) c i r (.commit txn) reply c'
  applies : ∃ outcome, c.state.Applies txn outcome
  state : c'.state = committed c.state txn

variable {service : DfsService} {tick : Tick} {condition : StepCondition} {c c' : ServicePool}
  {rely : Rely} {s s' : System} {r : Request} {txn : MetaTxn}

theorem serviceRun_of_under (h : RunUnder service tick condition c c') : ServiceRun service tick anyRun c c' :=
  ReflTransGen.mono (fun _ _ hstep => hstep.1) _ _ h

theorem ReachableUnder.reachable (h : ReachableUnder service tick condition c) : Reachable service tick anyRun c := by
  obtain ⟨clock, hrun⟩ := h
  exact ⟨clock, serviceRun_of_under hrun⟩

theorem ReachableUnder.run (h : ReachableUnder service tick condition c) (hrun : RunUnder service tick condition c c') :
    ReachableUnder service tick condition c' := by
  obtain ⟨clock, hbefore⟩ := h
  exact ⟨clock, hbefore.trans hrun⟩

/-- Every run is one under the condition that asks for nothing. -/
theorem Reachable.reachableUnder (h : Reachable service tick anyRun c) : ReachableUnder service tick anyStep c := by
  obtain ⟨clock, hrun⟩ := h
  exact ⟨clock, ReflTransGen.mono (fun _ _ hstep => ⟨hstep, trivial⟩) _ _ hrun⟩

/-- A condition on the transactions that take effect, in the pool they do so in. -/
def onEffect (P : ServicePool → Request → MetaTxn → Prop) : StepCondition := fun c c' =>
  ∀ i r txn, TakesEffect c i r txn c' → P c r txn

/-! ## Calm pools -/

/-- Only claims rely on something. -/
def relyOf (rely : Rely) : Request → System → System → Prop
  | .claimReplicationTask _ => rely
  | _ => fun _ _ => True

/-- The preorders of what claims may rely on. -/
structure Reliable (rely : Rely) : Prop where
  refl : ∀ s, rely s s
  trans : ∀ s₁ s₂ s₃, rely s₁ s₂ → rely s₂ s₃ → rely s₁ s₃
  aside : ∀ s s', Aside s s' → rely s s'

theorem reliable_trivial : Reliable fun _ _ => True :=
  ⟨fun _ => trivial, fun _ _ _ _ _ => trivial, fun _ _ _ => trivial⟩

variable (service) in
theorem repairGuarantees (h : Reliable rely) :
    Guarantees (served anyRun) (handle service) (relyOf rely) (fun r => repairGuarantee (relyOf rely r) r)
      (fun _ _ _ => True) where
  refl r s := by
    unfold relyOf
    split
    · exact h.refl s
    · trivial
  trans r s₁ s₂ s₃ := by
    unfold relyOf
    split
    · exact h.trans s₁ s₂ s₃
    · exact fun _ _ => trivial
  safe r s := by
    refine (handle_repairs ?_ ?_ service r s).mono_step fun _ _ _ _ h => h.2
    · intro s
      unfold relyOf
      split
      · exact h.refl s
      · trivial
    · intro s₁ s₂ s₃
      unfold relyOf
      split
      · exact h.trans s₁ s₂ s₃
      · exact fun _ _ => trivial

/-- Every request that is under way finds what it relies on. -/
abbrev RepairCalm (rely : Rely) (c : ServicePool) : Prop :=
  Pool.Calm (served anyRun) (relyOf rely) (fun r => repairGuarantee (relyOf rely r) r) (fun _ _ _ => True) c

/-- A claim is under way: it has read something and has not answered. -/
def ClaimUnderWay (service : DfsService) (c : ServicePool) : Prop :=
  ∃ (j : Nat) (request : ClaimReplicationTask) (p : DfsProg Response),
    c.procs[j]? = some (.claimReplicationTask request, p) ∧ UnderWay (handle service) (.claimReplicationTask request) p

/-- What one step is, for the records of repair. -/
inductive RepairStepCase (service : DfsService) (tick : Tick) (rely : Rely) (c c' : ServicePool) : Prop
  | aside (h : Aside c.state c'.state)
  | applied (i : Nat) (r : Request) (txn : MetaTxn) (heffect : TakesEffect c i r txn c')
      (hissued : Issued service tick c.state r txn)
      (hrepair : r.repairs = true → RepairIssued (relyOf rely r) c.state r txn)

theorem RepairCalm.step_cases (h : Reliable rely) (hreach : Reachable service tick anyRun c) (hcalm : RepairCalm rely c)
    (hstep : ServiceStep service tick anyRun c c') : RepairStepCase service tick rely c c' := by
  cases hreach.step_cases hstep with
  | aside haside => exact .aside haside
  | applied i r txn reply outcome hact hissued happlies hstate =>
    exact .applied i r txn ⟨⟨reply, hact⟩, ⟨outcome, happlies⟩, hstate⟩ hissued
      (hcalm.act (repairGuarantees service h) hact)

/-- A step keeps the pool calm if the claims under way find what they rely on. -/
theorem RepairCalm.next (h : Reliable rely) (hcalm : RepairCalm rely c) (hstep : ServiceStep service tick anyRun c c')
    (hrely : ClaimUnderWay service c → rely c.state c'.state) : RepairCalm rely c' := by
  refine Pool.Calm.next (repairGuarantees service h) hcalm hstep ?_ ?_
  · intro i r o reply hact j r' p _ hj hunder
    unfold relyOf
    split
    · next request => exact hrely ⟨j, request, p, hj, hunder⟩
    · trivial
  · intro henv r
    unfold relyOf
    split
    · exact h.aside _ _ henv.aside
    · trivial

/-- **Invariants of such runs.** A transaction that takes effect keeps the invariant, and it keeps what the claims under
    way rely on. -/
theorem ReachableUnder.invariant {I : System → Prop} (h : Reliable rely) (hinit : ∀ clock, I ⟨StoreState.new, clock⟩)
    (haside : ∀ s s', Aside s s' → I s → I s')
    (happlied : ∀ c c' i r txn, condition c c' → I c.state → TakesEffect c i r txn c' →
      Issued service tick c.state r txn → (r.repairs = true → RepairIssued (relyOf rely r) c.state r txn) →
      I c'.state ∧ (ClaimUnderWay service c → rely c.state c'.state))
    (hreach : ReachableUnder service tick condition c) : RepairCalm rely c ∧ I c.state := by
  obtain ⟨clock, hrun⟩ := hreach
  induction hrun with
  | refl => exact ⟨.nil _, hinit clock⟩
  | @tail c c' hrun hstep ih =>
    obtain ⟨hcalm, hi⟩ := ih
    have hreach : ReachableUnder service tick condition c := ⟨clock, hrun⟩
    cases hcalm.step_cases h hreach.reachable hstep.1 with
    | aside hbeside => exact ⟨hcalm.next h hstep.1 fun _ => h.aside _ _ hbeside, haside _ _ hbeside hi⟩
    | applied i r txn heffect hissued hrepair =>
      obtain ⟨hi', hrely⟩ := happlied c c' i r txn hstep.2 hi heffect hissued hrepair
      exact ⟨hcalm.next h hstep.1 hrely, hi'⟩

/-! ## Scripts

In a script one request is served after the other, so whoever commits is alone. -/

/-- No handler but `i` has an operation to issue. -/
def Alone (c : ServicePool) (i : Nat) : Prop :=
  ∀ j r op k, c.procs[j]? = some (r, .call op k) → j = i

/-- Nobody else is making a claim while another request commits alone. -/
theorem Alone.not_claimUnderWay {i} (h : Alone c i) (heffect : TakesEffect c i r txn c')
    (hr : ∀ request, r ≠ .claimReplicationTask request) : ¬ClaimUnderWay service c := by
  rintro ⟨j, request, p, hj, -, op, k, rfl⟩
  obtain ⟨reply, hact⟩ := heffect.act
  obtain ⟨k', hi, -⟩ := hact.procs
  have hsame := h j _ op k hj
  subst hsame
  rw [hj] at hi
  cases hi
  exact hr request rfl

/-- Every handler has answered. -/
def AllAnswered (c : ServicePool) : Prop := ∀ (j : Nat) r op k, c.procs[j]? ≠ some (r, .call op k)

theorem AllAnswered.alone_concat (h : AllAnswered c) (s : System) (r : Request) (p : DfsProg Response) :
    Alone ⟨s, c.procs ++ [(r, p)]⟩ c.procs.length := by
  intro j r' op k hj
  by_cases hlt : j < c.procs.length
  · rw [List.getElem?_append_left hlt] at hj
    exact absurd hj (h j r' op k)
  · obtain ⟨hle, -⟩ := List.getElem?_eq_some_iff.mp hj
    simp only [List.length_append, List.length_singleton] at hle
    omega

theorem AllAnswered.not_takesEffect (h : AllAnswered c) {i} : ¬TakesEffect c i r txn c' := by
  intro heffect
  obtain ⟨reply, hact⟩ := heffect.act
  obtain ⟨k, hi, -⟩ := hact.procs
  exact h i r _ k hi

section Script

variable {P : ServicePool → Request → MetaTxn → Prop} {Q : RunCondition}
  (hQ : ∀ c i r txn c', Alone c i → TakesEffect c i r txn c' → Q r c.state (.commit txn) → P c r txn)

include hQ

/-- One handler that runs to its end after all others. -/
theorem runUnder_exec (hanswered : AllAnswered c) (p : DfsProg Response) (s : System)
    (hall : p.ExecAll answer (Q r) s) :
    RunUnder service tick (onEffect P) ⟨s, c.procs ++ [(r, p)]⟩
      ⟨(p.exec answer s).2, c.procs ++ [(r, Prog.lift (p.exec answer s).1)]⟩ := by
  induction p generalizing s with
  | ret a => exact .refl
  | fail e => exact .refl
  | call op k ih =>
    obtain ⟨hhere, hrest⟩ := hall
    refine .head ⟨.act c.procs.length r op (answer s op).1 ⟨?_, k, by simp, by simp⟩, ?_⟩ (ih _ _ hrest)
    · exact served_answer s op trivial
    · intro i r' txn heffect
      have halone := hanswered.alone_concat s r (.call op k)
      obtain ⟨reply, hact⟩ := heffect.act
      obtain ⟨k', hi, -⟩ := hact.procs
      have hsame := halone i r' _ k' hi
      subst hsame
      rw [List.getElem?_concat_length] at hi
      cases hi
      exact hQ _ _ _ _ _ halone heffect hhere

theorem runUnder_play {event} (hanswered : AllAnswered c)
    (hclock : ∀ now, event = .clock now → tick c.state.clock now) (h : EventMeets service Q c event) :
    RunUnder service tick (onEffect P) c (play service c event) := by
  cases event with
  | request r =>
    refine .head ⟨.arrive r rfl, ?_⟩ (runUnder_exec hQ hanswered (handle service r) c.state h)
    exact fun _ _ _ heffect => absurd heffect hanswered.not_takesEffect
  | register request lease =>
    exact .single ⟨.env (.register request lease) rfl, fun _ _ _ heffect => absurd heffect hanswered.not_takesEffect⟩
  | clock now =>
    exact .single ⟨.env (.tick now (hclock now rfl)) rfl,
      fun _ _ _ heffect => absurd heffect hanswered.not_takesEffect⟩

omit hQ in
theorem AllAnswered.play (h : AllAnswered c) (event : Event) : AllAnswered (play service c event) := by
  cases event with
  | request r =>
    intro j r' op k hj
    have hlast := h.alone_concat _ _ _ j r' op k hj
    subst hlast
    replace hj : (c.procs ++ [_])[c.procs.length]? = _ := hj
    rw [List.getElem?_concat_length] at hj
    obtain ⟨-, hlift⟩ := Prod.mk.inj (Option.some.inj hj)
    generalize ((handle service r).exec answer c.state).1 = result at hlift
    cases result <;> cases hlift
  | register | clock => exact h

omit hQ in
theorem scriptMeets_append :
    ScriptMeets service Q c (events ++ more) ↔
      ScriptMeets service Q c events ∧ ScriptMeets service Q (events.foldl (play service) c) more := by
  induction events generalizing c with
  | nil => simp [ScriptMeets]
  | cons event rest ih => simp [ScriptMeets, ih, and_assoc]

/-- **Playing a script is such a run** if every operation of the script meets the condition. -/
theorem runUnder_script (hanswered : AllAnswered c) (hclock : ∀ now, .clock now ∈ events → ∀ before, tick before now)
    (h : ScriptMeets service Q c events) :
    RunUnder service tick (onEffect P) c (events.foldl (play service) c) ∧
      AllAnswered (events.foldl (play service) c) := by
  induction events generalizing c with
  | nil => exact ⟨.refl, hanswered⟩
  | cons event rest ih =>
    obtain ⟨hevent, hrest⟩ := h
    obtain ⟨hrun, hall⟩ := ih (hanswered.play event) (fun now hnow => hclock now (List.mem_cons_of_mem _ hnow)) hrest
    refine ⟨.trans (runUnder_play hQ hanswered ?_ hevent) hrun, hall⟩
    rintro now rfl
    exact hclock now (List.mem_cons_self ..) _

/-- A longer script continues the run of a shorter one. -/
theorem runUnder_playAll_append (hclock : ∀ now, .clock now ∈ events ++ more → ∀ before, tick before now)
    (h : ScriptMeets service Q (initialPool 0) (events ++ more)) :
    ReachableUnder service tick (onEffect P) (playAll service events) ∧
      RunUnder service tick (onEffect P) (playAll service events) (playAll service (events ++ more)) := by
  have hinit : AllAnswered (initialPool 0) := by
    intro j r op k hj
    simp [initialPool] at hj
  obtain ⟨hfirst, hsecond⟩ := scriptMeets_append.mp h
  obtain ⟨hrun, hanswered⟩ := runUnder_script hQ hinit (fun now hnow => hclock now (List.mem_append_left _ hnow)) hfirst
  refine ⟨⟨0, hrun⟩, ?_⟩
  rw [show playAll service (events ++ more) = more.foldl (play service) (playAll service events) from
    List.foldl_append ..]
  exact (runUnder_script hQ hanswered (fun now hnow => hclock now (List.mem_append_right _ hnow)) hsecond).1

theorem reachableUnder_playAll (hclock : ∀ now, .clock now ∈ events → ∀ before, tick before now)
    (h : ScriptMeets service Q (initialPool 0) events) :
    ReachableUnder service tick (onEffect P) (playAll service events) :=
  ⟨0, (runUnder_script hQ (by intro j r op k hj; simp [initialPool] at hj) hclock h).1⟩

end Script

/-- What does not hold before a run and holds after it comes about in one of the steps. -/
theorem exists_step_of_run {α : Type*} {step : α → α → Prop} {a b : α} (h : ReflTransGen step a b) {B : α → Prop}
    (hbefore : ¬B a) (hafter : B b) : ∃ a' b', ReflTransGen step a a' ∧ step a' b' ∧ ¬B a' ∧ B b' := by
  induction h with
  | refl => exact absurd hafter hbefore
  | @tail b c hrun hstep ih =>
    by_cases hb : B b
    · exact ih hb
    · exact ⟨b, c, hrun, hstep, hb, hafter⟩

/-! ## Two copies

The cluster of `Script` with two desired copies, of which one is enough for a commit. -/

def pairService : DfsService := { plainService with replication := ⟨2, 1, 1, 1, .preferred⟩ }

namespace Pair

def target (node : String) : ReplicaTarget := ⟨node, 1, "", Cluster.device node⟩

/-- The epoch of the placement on the disks of the nodes. -/
def placementEpoch (nodes : List String) : UInt64 := placementHash pairService.replication (nodes.map target)

/-- A receipt for the chunk in the group of the nodes, acknowledged by some of them. -/
def receipt (nodes acknowledged : List String) : ChunkReceipt :=
  { Cluster.receipt "" 8 with
    placementEpoch := placementEpoch nodes
    replicaGroupId := ⟨"group:" ++ hex16 (placementEpoch nodes)⟩
    durableAcks := acknowledged.map fun node =>
      ⟨⟨"commit"⟩, ⟨"chunk"⟩, 1, placementEpoch nodes, node, 1, "disk", 1, 1, 8,
        ⟨.blake3, Vector.replicate 32 0⟩⟩ }

/-- The node commits the first version of its file with such a receipt. -/
def committing (node : String) (nodes acknowledged : List String) : Event :=
  .request (.commitFileVersion node { Cluster.commit node 8 with chunkReceipts := [receipt nodes acknowledged] })

def creating (node : String) : Event := .request (.create (Cluster.create node 1))

/-- The first node has committed its file, and a copy is missing. -/
def oneCopy : List Event :=
  [Cluster.register "a", .request .initializeReplicationConfig, creating "a", committing "a" ["a"] ["a"]]

end Pair

end Afs
