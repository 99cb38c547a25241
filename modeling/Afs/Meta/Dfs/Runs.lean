import Afs.Meta.Dfs.RepairGuarantee

/-!
# `Meta.Dfs.Runs` — steps and invariants of whole runs

Every step of a run either leaves the file system alone or applies one transaction of the service, in a state in
which all its conditions hold. Invariants of the records are proved with `Reachable.invariant`, which asks for nothing
but that; facts about single steps with `Reachable.step_cases`.
-/

namespace Afs

open Interaction Relation

variable {service : DfsService} {tick : Tick} {condition : RunCondition} {c c' : ServicePool}
  {s s' : System}

theorem Aside.refl (s : System) : Aside s s := ⟨fun _ _ => rfl, fun _ => .inl rfl⟩

/-- What one operation of a handler does to the system. -/
theorem applied_of_served {r op reply} (hserved : served condition r s op reply s')
    (hguar : guarantee service tick r s op reply s') :
    s' = s ∨ ∃ txn outcome, op = .commit txn ∧ condition r s (.commit txn) ∧ Issued service tick s r txn ∧
      s.Applies txn outcome ∧ s' = committed s txn := by
  obtain ⟨hcondition, hserve⟩ := hserved
  by_cases hop : ∃ txn, op = .commit txn
  · obtain ⟨txn, rfl⟩ := hop
    rcases serve_commit hserve with rfl | ⟨outcome, happlies, rfl⟩
    · exact .inl rfl
    · exact .inr ⟨txn, outcome, rfl, hcondition, hguar, happlies, rfl⟩
  · exact .inl (serve_eq hserve fun txn he => hop ⟨txn, he⟩)

/-- **Invariants of runs**: what the environment leaves alone and every applied transaction keeps. -/
theorem Reachable.invariant {I : System → Prop} (hinit : ∀ clock, I ⟨StoreState.new, clock⟩)
    (haside : ∀ s s', Aside s s' → I s → I s')
    (hcommit : ∀ r s txn outcome, I s → condition r s (.commit txn) → Issued service tick s r txn →
      s.Applies txn outcome → I (committed s txn)) (h : Reachable service tick condition c) : I c.state := by
  obtain ⟨clock, hrun⟩ := h
  refine Pool.invariant (service_sound service tick condition) (hinit clock) ?_ ?_ hrun
  · exact fun s s' hi henv => haside s s' henv.aside hi
  · intro r s op reply s' hi hserved hguar
    rcases applied_of_served hserved hguar with rfl | ⟨txn, outcome, rfl, hcondition, hissued, happlies, rfl⟩
    · exact hi
    · exact hcommit r s txn outcome hi hcondition hissued happlies

/-- What one step of a run is. -/
inductive StepCase (service : DfsService) (tick : Tick) (condition : RunCondition) (c c' : ServicePool) : Prop
  | aside (h : Aside c.state c'.state)
  | applied (i : Nat) (r : Request) (txn : MetaTxn) (reply : Result TxnOutcome) (outcome : RequestOutcome)
      (hact : Pool.Act (served condition) c i r (.commit txn) reply c')
      (hissued : Issued service tick c.state r txn) (happlies : c.state.Applies txn outcome)
      (hstate : c'.state = committed c.state txn)

section

variable (h : Reachable service tick condition c)

include h

theorem Reachable.step_cases
    (hstep : ServiceStep service tick condition c c') : StepCase service tick condition c c' := by
  obtain ⟨clock, hrun⟩ := h
  cases hstep with
  | act i r op reply hact =>
    have hguar := Pool.act_guar (service_sound service tick condition) hrun hact
    rcases applied_of_served hact.state hguar with he | ⟨txn, outcome, rfl, -, hissued, happlies, he⟩
    · exact .aside (he ▸ Aside.refl _)
    · exact .applied i r txn reply outcome hact hissued happlies he
  | arrive r h =>
    subst h
    exact .aside (Aside.refl _)
  | env h hp => exact .aside h.aside

theorem Reachable.step (hstep : ServiceStep service tick condition c c') : Reachable service tick condition c' := by
  obtain ⟨clock, hrun⟩ := h
  exact ⟨clock, hrun.tail hstep⟩

theorem Reachable.run (hrun : ServiceRun service tick condition c c') : Reachable service tick condition c' := by
  obtain ⟨clock, hbefore⟩ := h
  exact ⟨clock, hbefore.trans hrun⟩

/-- Outcomes, versions and layouts stay along a run. -/
theorem Reachable.evolves (hrun : ServiceRun service tick condition c c') : Evolves tick c.state c'.state := by
  obtain ⟨clock, hbefore⟩ := h
  have hsound := service_sound service tick condition
  exact ((Pool.good_nil _).run hsound hbefore).rely_run hsound hrun

end

/-- **A request commits** in the step from `c` to `c'`: it acts, and its outcome is recorded under its identity and
    its operation. -/
structure Commits (condition : RunCondition) (c c' : ServicePool) (r : Request) : Prop where
  act : ∃ i op reply, Pool.Act (served condition) c i r op reply c'
  fresh : c.state.store.outcome r.key = none
  recorded : ∃ outcome, c'.state.store.outcome r.key = some outcome ∧ outcome.operation = r.operation

theorem Commits.step {r} (h : Commits condition c c' r) : ServiceStep service tick condition c c' := by
  obtain ⟨i, op, reply, hact⟩ := h.act
  exact .act i r op reply hact

/-- A request commits by a transaction of its own operation. -/
theorem Commits.issued {r} (h : Commits condition c c' r) (hreach : Reachable service tick condition c) :
    ∃ txn outcome, (∃ i reply, Pool.Act (served condition) c i r (.commit txn) reply c') ∧
      Issued service tick c.state r txn ∧ c.state.Applies txn outcome ∧ txn.operation = r.operation ∧
      c'.state = committed c.state txn ∧ ∃ recorded, .recordRequestOutcome recorded ∈ txn.mutations ∧
        c'.state.store.outcome r.key = some recorded := by
  obtain ⟨clock, hrun⟩ := hreach
  obtain ⟨i, op, reply, hact⟩ := h.act
  obtain ⟨recorded, hrecorded, hop⟩ := h.recorded
  have hguar := Pool.act_guar (service_sound service tick condition) hrun hact
  rcases applied_of_served hact.state hguar with he | ⟨txn, outcome, rfl, -, hissued, happlies, he⟩
  · rw [he, h.fresh] at hrecorded
    cases hrecorded
  · rw [he] at hrecorded
    have hcase : (c.state.store.applyMutations txn.mutations).outcome r.key = c.state.store.outcome r.key ∨
        ∃ outcome, .recordRequestOutcome outcome ∈ txn.mutations ∧
          (c.state.store.applyMutations txn.mutations).outcome r.key = some outcome :=
      MemoryState.outcome_applyMutations_cases
    rcases hcase with hsame | ⟨written, hmem, hwritten⟩
    · rw [show (committed c.state txn).store.outcome r.key = _ from hsame, h.fresh] at hrecorded
      cases hrecorded
    · cases hwritten.symm.trans hrecorded
      refine ⟨txn, outcome, ⟨i, reply, hact⟩, hissued, happlies, ?_, he, recorded, hmem, he ▸ hrecorded⟩
      cases hissued.writes hmem
      exact hop

end Afs
