import Afs.Meta.OwnerRoots.Generations

/-!
# `Meta.OwnerRoots.Access` — which grants are accepted

`validate_root_access` compares the presented grant with the stored one, with the root's epoch and home session, with
the current sessions of both nodes and with the pending commands. It does not compare generations: the stored grant of
the holder may be of an older generation than the home grant. A recovery in a new session is noticed by the home
session, but a recovery in a session under which access has been granted leaves the old grants valid
(`old_generation_accepted`). `access_is_current` is about runs without such recoveries.
-/

namespace Afs.OwnerRoots

open Interaction Relation Scene

variable {tick : Tick} {s s' : System} {r : OwnerRequest} {txn : MetaTxn}
  {outcome : RequestOutcome} {c c' : OwnerPool} {id : String}

/-! ## The condition -/

/-- An acquisition relies on the home of its root while it is under way. -/
def accessRely : OwnerRequest → System → System → Prop
  | .acquire input, s, s' => HomeKept input.rootId s s'
  | _, _, _ => True

theorem accessRely_refl (r : OwnerRequest) (s : System) : accessRely r s s := by
  unfold accessRely
  split
  · exact .refl _ s
  · trivial

theorem accessRely_trans (r : OwnerRequest) (s₁ s₂ s₃ : System) (h : accessRely r s₁ s₂) (h' : accessRely r s₂ s₃) :
    accessRely r s₁ s₃ := by
  unfold accessRely at h h' ⊢
  split
  · exact HomeKept.trans h h'
  · trivial

theorem accessRely_guarantees : OwnerGuarantees accessRely := ownerGuarantees accessRely_refl accessRely_trans

theorem accessRely_of_kept (h : ∀ id, HomeKept id s s') (r : OwnerRequest) : accessRely r s s' := by
  unfold accessRely
  split
  · exact h _
  · trivial

/-- **A recovery that takes effect** finds nobody acquiring the root, and its session is one under which no other node
    or session has been granted access to it. -/
def recoversApart : StepCondition := fun c c' => ∀ i input txn, Commits c i (.recover input) txn c' →
  (∀ j other p, j ≠ i → c.procs[j]? = some (.acquire other, p) → UnderWay handle (.acquire other) p →
    other.rootId ≠ input.rootId) ∧
  ∀ node session grant, c.state.store.get (.rootGrant input.rootId node session) = some (.rootGrant grant) →
    grant.homeSessionId = input.homeSessionId → node = input.homeNodeId ∧ session = input.homeSessionId

/-! ## Grants of the present home session -/

/-- **The grants under the present home session** are of the generation of the home grant. -/
def AccessKept (s : System) : Prop :=
  ∀ id root node session grant, s.store.get (.root id) = some (.root root) →
    s.store.get (.rootGrant id node session) = some (.rootGrant grant) → grant.homeSessionId = root.homeSessionId →
    homeGeneration s id = some grant.accessGeneration

theorem AccessKept.of_same (h : AccessKept s) (hroot : ∀ id, s'.store.get (.root id) = s.store.get (.root id))
    (hgrant : ∀ id node session, s'.store.get (.rootGrant id node session) = s.store.get (.rootGrant id node session)) :
    AccessKept s' := by
  intro id root node session grant hget hstored hsession
  rw [hroot] at hget
  rw [hgrant] at hstored
  rw [homeGeneration, home_congr (hroot id) (hgrant id)]
  exact h id root node session grant hget hstored hsession

variable {input : AcquireRootInput}

/-- What an acquisition that was not disturbed has read is the present home. -/
theorem acquire_undisturbed (hissued : OwnerIssued (accessRely (.acquire input)) s (.acquire input) txn) :
    ∃ root home' held h, txn = acquireTxn input root home' held ∧ root.rootId = input.rootId ∧
      home s input.rootId = some h ∧ h.nodeId = root.homeNodeId ∧ h.sessionId = root.homeSessionId ∧
      h.generation = some home'.accessGeneration := by
  cases hissued with
  | @acquire _ s₁ s₂ root home' held h₁₂ h₂ hroot hhome =>
    have hlater := h₁₂ _ (home_of_get hroot)
    refine ⟨root, home', held, _, rfl, rootId_of_get hroot, h₂ _ hlater, rfl, rfl, ?_⟩
    rw [generation_eq hlater]
    show (grantOf (s₂.store.get (.rootGrant _ root.homeNodeId root.homeSessionId))).map _ = _
    rw [hhome]
    rfl

/-- An acquisition that was not disturbed changes no home. -/
theorem homeKept_acquires (hissued : OwnerIssued (accessRely (.acquire input)) s (.acquire input) txn) (id : String) :
    HomeKept id s (committed s txn) := by
  obtain ⟨root, home', held, h, rfl, hid, hhome, -, -, hgeneration⟩ := acquire_undisturbed hissued
  refine homeKept_acquire (fun present hpresent _ _ => ?_) id
  rw [hid, hhome, Option.some.injEq] at hpresent
  rw [← hpresent, hgeneration]

theorem AccessKept.acquire (h : AccessKept s)
    (hissued : OwnerIssued (accessRely (.acquire input)) s (.acquire input) txn) : AccessKept (committed s txn) := by
  have hkept := homeKept_acquires hissued
  obtain ⟨root, home', held, present, rfl, hid, hhome, -, -, hgeneration⟩ := acquire_undisturbed hissued
  intro id root' node session grant hget hstored hsession
  -- no home changes, and the grant that is added is of the present generation
  apply (hkept id).generation
  rw [get_acquireTxn] at hget hstored
  split at hstored
  · next hkey =>
    cases hkey
    cases hstored
    rw [homeGeneration, hid, hhome]
    exact hgeneration
  · exact h id root' node session grant (by simpa using hget) hstored hsession

theorem AccessKept.activate (h : AccessKept s) (hkept : RootsKept s) {input record}
    (happlies : s.Applies (activateTxn input record) outcome) :
    AccessKept (committed s (activateTxn input record)) := by
  have hfree : s.store.get (.root record.rootId) = none :=
    happlies.missing (by simp [activateTxn, ownerTxn, activatedRoot])
  intro id root node session grant hroot hgrant hsession
  by_cases hid : record.rootId = id
  · subst hid
    have hhome : homeGeneration (committed s (activateTxn input record)) record.rootId = some 1 := by
      have hactive : (committed s (activateTxn input record)).store.get (.root record.rootId) =
          some (.root (activatedRoot record input.localPrepareId)) := by simp [get_activateTxn]
      rw [homeGeneration, home_of_get hactive]
      simp [homeOf, get_activateTxn, activatedRoot, grantOf, homeGrant]
    simp only [get_activateTxn, reduceCtorEq, if_false] at hgrant
    split at hgrant
    · cases hgrant
      exact hhome
    · -- a root that was not there had no grants
      exact absurd hfree (hkept.granted _ _ _ _ hgrant)
  · simp only [get_activateTxn, reduceCtorEq, if_false, MetaKey.root.injEq, MetaKey.rootGrant.injEq, hid, false_and]
      at hroot hgrant
    have hsame : home (committed s (activateTxn input record)) id = home s id :=
      home_congr (by simp [get_activateTxn, hid]) fun _ _ => by simp [get_activateTxn, hid]
    rw [homeGeneration, hsame]
    exact h id root node session grant hroot hgrant hsession

theorem AccessKept.recover (h : AccessKept s) {input root generation}
    (hid : root.rootId = input.rootId) (hnode : root.homeNodeId = input.homeNodeId)
    (hnew : ∀ node session grant, s.store.get (.rootGrant input.rootId node session) = some (.rootGrant grant) →
      grant.homeSessionId = input.homeSessionId → node = input.homeNodeId ∧ session = input.homeSessionId) :
    AccessKept (committed s (recoverTxn input root generation)) := by
  intro id root' node session grant hroot hgrant hsession
  by_cases hne : root.rootId = id
  · subst hne
    rw [homeGeneration_recover]
    simp only [get_recoverTxn, reduceCtorEq, if_false, if_true, Option.some.injEq, MetaEntity.root.injEq,
      MetaKey.rootGrant.injEq, true_and] at hroot hgrant
    subst hroot
    split at hgrant
    · cases hgrant
      rfl
    · next hother =>
      obtain ⟨rfl, rfl⟩ := hnew node session grant (hid ▸ hgrant) hsession
      exact absurd ⟨hnode, rfl⟩ hother
  · rw [homeGeneration_recover_other hne]
    simp only [get_recoverTxn, reduceCtorEq, if_false, MetaKey.root.injEq, MetaKey.rootGrant.injEq, hne, false_and]
      at hroot hgrant
    exact h id root' node session grant hroot hgrant hsession

theorem AccessKept.commit (h : AccessKept s) (hkept : RootsKept s) (hissued : OwnerIssued (accessRely r) s r txn)
    (happlies : s.Applies txn outcome)
    (hnew : ∀ input, r = .recover input → ∀ node session grant,
      s.store.get (.rootGrant input.rootId node session) = some (.rootGrant grant) →
      grant.homeSessionId = input.homeSessionId → node = input.homeNodeId ∧ session = input.homeSessionId) :
    AccessKept (committed s txn) := by
  cases hissued with
  | reserve | abort | ack =>
    exact h.of_same (fun _ => by simp [get_reserveTxn, get_abortTxn, get_ackTxn])
      fun _ _ _ => by simp [get_reserveTxn, get_abortTxn, get_ackTxn]
  | activate => exact h.activate hkept happlies
  | acquire h₁₂ h₂ hroot hhome => exact h.acquire (.acquire h₁₂ h₂ hroot hhome)
  | recover h₁₂ h₂ hroot hnames =>
    simp only [RecoverRootInput.names, Bool.and_eq_true, decide_eq_true_eq] at hnames
    exact h.recover (rootId_of_get hroot) hnames.1.1 (hnew _ rfl)

/-- **In a run of recoveries apart no acquisition is disturbed.** -/
theorem OwnerReachable.apart (h : OwnerReachable tick recoversApart c) : OwnerCalm accessRely c := by
  obtain ⟨clock, hrun⟩ := h
  induction hrun with
  | refl => exact Pool.Calm.nil _
  | @tail _ _ _ hstep ih =>
    refine ih.next accessRely_guarantees hstep (fun haside => accessRely_of_kept haside.homeKept) ?_
    intro i r txn hcondition hcommits hissued j r' p hij hp hway
    obtain ⟨outcome, happlies⟩ := hcommits.applies
    rw [hcommits.state]
    cases r with
    | acquire input => exact accessRely_of_kept (homeKept_acquires hissued) r'
    | recover input =>
      cases r' with
      | acquire other =>
        have hne := (hcondition i input txn hcommits).1 j other p hij hp hway
        cases hissued with
        | recover _ _ hroot =>
          intro h hhome
          rw [home_recover_other (rootId_of_get hroot ▸ hne.symm), hhome]
      | _ => trivial
    | _ => exact accessRely_of_kept (homeKept_of_issued hissued happlies nofun nofun) r'

theorem OwnerReachable.accessKept (h : OwnerReachable tick recoversApart c) : AccessKept c.state := by
  obtain ⟨clock, hrun⟩ := h
  induction hrun with
  | refl =>
    intro id root node session grant hroot
    cases hroot
  | @tail c₁ c₂ hbefore hstep ih =>
    have hreach : OwnerReachable tick recoversApart c₁ := ⟨clock, hbefore⟩
    cases hreach.apart.step_cases accessRely_guarantees hstep with
    | aside haside => exact ih.of_same (fun _ => haside.get _ rfl) fun _ _ _ => haside.get _ rfl
    | commits i r txn hcommits hissued hcondition =>
      obtain ⟨outcome, happlies⟩ := hcommits.applies
      rw [hcommits.state]
      apply ih.commit hreach.rootsKept hissued happlies
      rintro input rfl
      exact (hcondition i input txn hcommits).2

/-! ## Validation -/

/-- **The presented access is current**: it is of the generation of the home grant, the home session it names is the
    live session of the home node, and no command revokes that generation. -/
structure AccessCurrent (s : System) (input : ValidateRootAccessInput) : Prop where
  generation : homeGeneration s input.rootId = some input.accessGeneration
  home : ∃ root, s.store.get (.root input.rootId) = some (.root root) ∧ root.rootEpoch = input.rootEpoch ∧
    root.homeSessionId = input.homeSessionId ∧
    s.store.currentSessionMatches s.clock root.homeNodeId input.homeSessionId = true
  commands : ∀ commandId command, s.store.get (.rootCommand commandId) = some (.rootCommand command) →
    ¬(command.rootId = input.rootId ∧ command.rootEpoch = input.rootEpoch ∧
      command.oldAccessGeneration = input.accessGeneration)

/-- What a read of a grant compares. -/
theorem grant_read {input : ValidateRootAccessInput} {grant : RootAccessGrant}
    (h : (s.store.read s.clock input.read).entity = some (.rootGrant grant)) :
    s.store.get (.rootGrant input.rootId input.holderNodeId input.holderSessionId) = some (.rootGrant grant) ∧
      grant.homeSessionId = input.homeSessionId ∧ grant.accessGeneration = input.accessGeneration ∧
      s.store.rootSessionMatches s.clock input.rootId input.rootEpoch input.homeSessionId = true ∧
      s.store.hasPendingRootCommand input.rootId input.rootEpoch input.accessGeneration = false := by
  simp only [MemoryState.read, ValidateRootAccessInput.read, MemoryState.readKey, Option.bind_some,
    Option.map_eq_some_iff, Option.filter_eq_some_iff] at h
  obtain ⟨⟨revision, entity⟩, ⟨hlookup, hadmits⟩, rfl⟩ := h
  simp only [MemoryState.readAdmits, Bool.and_eq_true, decide_eq_true_eq, Bool.not_eq_true'] at hadmits
  obtain ⟨⟨⟨⟨⟨⟨-, hsession⟩, hgeneration⟩, -⟩, -⟩, hroot⟩, hpending⟩ := hadmits
  refine ⟨?_, hsession, hgeneration, hroot, hpending⟩
  rw [MemoryState.get, hlookup]
  rfl

/-- **Accepted access is current**, in every run of recoveries apart. -/
theorem access_is_current (h : OwnerReachable tick recoversApart c) {i : Nat} {input : ValidateRootAccessInput}
    {output : ValidateRootAccessOutput} {op : StoreOp} {reply : op.Reply}
    (hact : Pool.Act ownerServe c i (.validate input) op reply c')
    (hanswer : Answers c' i (.validate input) (.validated output)) : AccessCurrent c.state input := by
  have hread : (c'.state.store.read c'.state.clock input.read).entity = some (.rootGrant output.grant) :=
    h.calm.act_answer anyChange_guarantees hact hanswer
  have hsame : c'.state = c.state := by
    rcases commits_of_act hact with hsame | ⟨txn, rfl, hcommits⟩
    · exact hsame
    · cases h.calm.issued anyChange_guarantees hcommits
  rw [hsame] at hread
  obtain ⟨hgrant, hsession, hgeneration, hroot, hpending⟩ := grant_read hread
  unfold MemoryState.rootSessionMatches at hroot
  split at hroot
  · next root hget =>
    simp only [Bool.and_eq_true, decide_eq_true_eq] at hroot
    obtain ⟨⟨hepoch, hhome⟩, hlive⟩ := hroot
    refine ⟨?_, ⟨root, hget, hepoch, hhome, hlive⟩, ?_⟩
    · rw [← hgeneration]
      exact h.accessKept _ root _ _ _ hget hgrant (hsession.trans hhome.symm)
    · intro commandId command hcommand
      rw [MemoryState.get, Option.map_eq_some_iff] at hcommand
      obtain ⟨⟨revision, entity⟩, hlookup, rfl⟩ := hcommand
      have hentry := List.any_eq_false.mp hpending _ (AList.mem_lookup_iff.mp hlookup)
      simpa [and_assoc] using hentry
  · cases hroot

/-- A recovery that commits while nobody else has an operation to issue, in a session under which no one else has a
    grant. -/
def apartAt (c : OwnerPool) : OwnerEvent → Bool
  | .act i =>
    match c.procs[i]? with
    | some (.recover input, .call (.commit _) _) =>
      quietBut c i && c.state.store.entities.entries.all fun
        | ⟨.rootGrant id node session, ⟨_, .rootGrant grant⟩⟩ =>
          !(id = input.rootId && grant.homeSessionId = input.homeSessionId)
            || (node = input.homeNodeId && session = input.homeSessionId)
        | _ => true
    | _ => true
  | _ => true

theorem recoversApart_of_apartAt (c : OwnerPool) (event : OwnerEvent) (h : apartAt c event = true) :
    recoversApart c (play c event) := by
  intro i input txn hcommits
  obtain ⟨rfl, k, hi⟩ := commits_play hcommits
  simp only [apartAt, hi, Bool.and_eq_true] at h
  refine ⟨fun j other p hij hp hway => absurd hway (not_underWay_of_quiet h.1 hij hp), ?_⟩
  intro node session grant hgrant hsession
  rw [MemoryState.get, Option.map_eq_some_iff] at hgrant
  obtain ⟨⟨revision, entity⟩, hlookup, rfl⟩ := hgrant
  have hentry := List.all_eq_true.mp h.2 _ (AList.mem_lookup_iff.mp hlookup)
  simpa [hsession] using hentry

/-- A schedule and then a validation that has arrived. -/
def presenting (events : List OwnerEvent) (input : ValidateRootAccessInput) : OwnerPool :=
  play (playAll events) (.arrive (.validate input))

/-- The validation has answered. -/
def validated (events : List OwnerEvent) (input : ValidateRootAccessInput) : OwnerPool :=
  play (presenting events input) (.act (playAll events).procs.length)

/-- The home node comes back in a new session and recovers the root; the other node acquires access again. -/
def movedHome : List OwnerEvent :=
  Scene.active ++ Scene.serve 2 4 (.acquire (Scene.acquire "before")) ++ [Scene.register "a" "a2"]
    ++ Scene.serve 3 3 (.recover (Scene.recover "recover" "a2")) ++ Scene.serve 4 4 (.acquire (Scene.acquire "after"))

theorem access_is_current_after_recovery :
    AccessCurrent (presenting movedHome (Scene.present "a2" 2)).state (Scene.present "a2" 2) := by
  have hreach : OwnerReachable (fun _ _ => False) recoversApart (presenting movedHome (present "a2" 2)) := by
    rw [presenting, ← playAll_concat]
    exact reachable_playAll (by simp [movedHome, Scene.active, Scene.serve, Scene.register]) recoversApart_of_apartAt
      (by decide +kernel)
  obtain ⟨reply, hact⟩ := act_arrived (r := .validate (present "a2" 2)) rfl (playAll movedHome)
  have hanswer : Answers (validated movedHome (present "a2" 2)) (playAll movedHome).procs.length
      (.validate (present "a2" 2))
      (.validated ⟨⟨"root", 1, "a", "a2", "b", "b1", 2, [.read], fencingToken "root" "b1" 2, 0⟩, 8⟩) :=
    answers_of_answerOf (by decide +kernel)
  exact access_is_current hreach hact hanswer

/-- The root is recovered in the session that access was granted in. -/
def recoveredInPlace : List OwnerEvent :=
  Scene.active ++ Scene.serve 2 4 (.acquire (Scene.acquire "acquire"))
    ++ Scene.serve 3 3 (.recover (Scene.recover "recover" "a1"))

/-- **A grant of an older generation is accepted** after a recovery in the same session: the home grant is of generation
    2, and the grant of generation 1 that the other node holds is found current. -/
theorem old_generation_accepted :
    OwnerReachable (fun before after => before ≤ after) anyStep (presenting recoveredInPlace (Scene.present "a1" 1)) ∧
    homeGeneration (presenting recoveredInPlace (Scene.present "a1" 1)).state "root" = some 2 ∧
    (∃ reply, Pool.Act ownerServe (presenting recoveredInPlace (Scene.present "a1" 1)) 4
      (.validate (Scene.present "a1" 1)) (.read (Scene.present "a1" 1).read) reply
      (validated recoveredInPlace (Scene.present "a1" 1))) ∧
    ∃ output, Answers (validated recoveredInPlace (Scene.present "a1" 1)) 4 (.validate (Scene.present "a1" 1))
      (.validated output) ∧ output.grant.accessGeneration = 1 := by
  have hlength : (playAll recoveredInPlace).procs.length = 4 := by decide +kernel
  refine ⟨?_, by decide +kernel, ?_, ⟨⟨"root", 1, "a", "a1", "b", "b1", 1, [.read], fencingToken "root" "b1" 1, 0⟩, 5⟩,
    answers_of_answerOf (by decide +kernel), rfl⟩
  · rw [presenting, ← playAll_concat]
    exact ⟨0, run_any (by simp [recoveredInPlace, Scene.active, Scene.serve, Scene.register]) _⟩
  · rw [← hlength]
    exact act_arrived rfl _

end Afs.OwnerRoots
