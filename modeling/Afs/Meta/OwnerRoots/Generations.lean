import Afs.Meta.OwnerRoots.Lifecycle

/-!
# `Meta.OwnerRoots.Generations` — access generations

A recovery counts the generation of the home grant on by one. It counts from what it has read, and its transaction
compares neither the grant nor the home session it read, so two recoveries that overlap hand out one generation, and a
slow one takes the root back to an older generation (`recoveries_share_generation`). In the same way the home node's own
`acquire_root` may write the generation it read before a recovery over the new one. `generations_grow` is about runs in
which a recovery that commits disturbs nobody who has read the generation and is still to write it.
-/

namespace Afs.OwnerRoots

open Interaction Relation

variable {rely : Rely} {tick : Tick} {s s' s'' : System} {r : OwnerRequest} {txn : MetaTxn}
  {outcome : RequestOutcome} {c c' : OwnerPool} {id : String}

/-! ## The home of a root -/

/-- Where a root is at home, and the generation of the home grant. -/
structure Home where
  (nodeId sessionId : String)
  generation : Option UInt64

variable {h : Home} {root : RootRecord} {input : RecoverRootInput} {grant : RootAccessGrant} {key : RequestKey}

def homeOf (s : System) (id : String) (root : RootRecord) : Home where
  nodeId := root.homeNodeId
  sessionId := root.homeSessionId
  generation := (grantOf (s.store.get (.rootGrant id root.homeNodeId root.homeSessionId))).map (·.accessGeneration)

def home (s : System) (id : String) : Option Home := (rootOf (s.store.get (.root id))).map (homeOf s id)

/-- The access generation stored in the home grant of a root. -/
def homeGeneration (s : System) (id : String) : Option UInt64 := (home s id).bind (·.generation)

theorem home_eq_some :
    home s id = some h ↔ ∃ root, s.store.get (.root id) = some (.root root) ∧ homeOf s id root = h := by
  simp [home, Option.map_eq_some_iff, rootOf_eq_some]

theorem home_of_get (h : s.store.get (.root id) = some (.root root)) : home s id = some (homeOf s id root) :=
  home_eq_some.mpr ⟨root, h, rfl⟩

theorem home_eq_none (h : s.store.get (.root id) = none) : home s id = none := by
  rw [home, h]
  rfl

/-- The generation is that of the grant under the home's own key. -/
theorem generation_eq (hhome : home s id = some h) :
    h.generation = (grantOf (s.store.get (.rootGrant id h.nodeId h.sessionId))).map (·.accessGeneration) := by
  obtain ⟨root, -, rfl⟩ := home_eq_some.mp hhome
  rfl

/-- The home of a root is read off its own records. -/
theorem home_congr (hroot : s'.store.get (.root id) = s.store.get (.root id))
    (hgrant : ∀ node session, s'.store.get (.rootGrant id node session) = s.store.get (.rootGrant id node session)) :
    home s' id = home s id := by
  have hsame : homeOf s' id = homeOf s id := by
    funext root
    simp only [homeOf, hgrant]
  rw [home, home, hroot, hsame]

/-- The home stays as it is, once there is one. -/
def HomeKept (id : String) (s s' : System) : Prop := ∀ h, home s id = some h → home s' id = some h

theorem HomeKept.refl (id : String) (s : System) : HomeKept id s s := fun _ h => h

theorem HomeKept.trans (h : HomeKept id s s') (h' : HomeKept id s' s'') : HomeKept id s s'' :=
  fun _ hhome => h' _ (h _ hhome)

theorem RootsAside.home (h : RootsAside s s') (id : String) : OwnerRoots.home s' id = OwnerRoots.home s id :=
  home_congr (h.get _ rfl) fun _ _ => h.get _ rfl

theorem RootsAside.homeKept (h : RootsAside s s') (id : String) : HomeKept id s s' := by
  intro hm hhome
  rw [h.home, hhome]

/-- In a state of a run every root has a generation. -/
theorem RootsKept.generation (hkept : RootsKept s) (hhome : home s id = some h) :
    ∃ generation, h.generation = some generation := by
  obtain ⟨root, hroot, rfl⟩ := home_eq_some.mp hhome
  obtain ⟨grant, hgrant, -⟩ := hkept.homeGranted id root hroot
  exact ⟨grant.accessGeneration, by rw [homeOf, hgrant]; rfl⟩

/-! ## What the transactions do to it -/

/-- The transactions other than acquisitions and recoveries leave the home of an active root alone. -/
theorem homeKept_of_issued (hissued : OwnerIssued rely s r txn) (happlies : s.Applies txn outcome)
    (hacquire : ∀ input, r ≠ .acquire input) (hrecover : ∀ input, r ≠ .recover input) (id : String) :
    HomeKept id s (committed s txn) := by
  intro h hhome
  cases hissued with
  | reserve | abort | ack =>
    rw [← hhome]
    exact home_congr (by simp [get_reserveTxn, get_abortTxn, get_ackTxn])
      fun _ _ => by simp [get_reserveTxn, get_abortTxn, get_ackTxn]
  | @activate _ record =>
    have hfree : s.store.get (.root record.rootId) = none :=
      happlies.missing (by simp [activateTxn, ownerTxn, activatedRoot])
    have hne : record.rootId ≠ id := by
      rintro rfl
      rw [home_eq_none hfree] at hhome
      cases hhome
    rw [← hhome]
    exact home_congr (by simp [get_activateTxn, hne]) fun _ _ => by simp [get_activateTxn, hne]
  | acquire => exact absurd rfl (hacquire _)
  | recover => exact absurd rfl (hrecover _)

/-- An acquisition leaves the home alone, unless it writes another generation into the home grant. -/
theorem homeKept_acquire {input held}
    (hsame : ∀ h, home s root.rootId = some h → h.nodeId = input.requesterNodeId → h.sessionId = input.sessionId →
      h.generation = some grant.accessGeneration) (id : String) :
    HomeKept id s (committed s (acquireTxn input root grant held)) := by
  intro h hhome
  obtain ⟨current, hcurrent, rfl⟩ := home_eq_some.mp hhome
  have hcurrent' : (committed s (acquireTxn input root grant held)).store.get (.root id) = some (.root current) := by
    simp [get_acquireTxn, hcurrent]
  rw [home_of_get hcurrent', Option.some.injEq]
  by_cases hkey : root.rootId = id ∧ input.requesterNodeId = current.homeNodeId ∧
    input.sessionId = current.homeSessionId
  · obtain ⟨rfl, hnode, hsession⟩ := hkey
    have hgeneration := hsame _ hhome hnode.symm hsession.symm
    rw [homeOf, homeOf, get_acquireTxn, if_pos (by rw [hnode, hsession]), Home.mk.injEq]
    exact ⟨rfl, rfl, hgeneration.symm⟩
  · simp only [homeOf, get_acquireTxn, MetaKey.rootGrant.injEq, if_neg hkey]

/-- A recovery gives the root its new home and leaves the others alone. -/
theorem home_recover (input : RecoverRootInput) (root : RootRecord) (generation : UInt64) :
    home (committed s (recoverTxn input root generation)) root.rootId =
      some ⟨root.homeNodeId, input.homeSessionId, some generation⟩ := by
  have hroot : (committed s (recoverTxn input root generation)).store.get (.root root.rootId) =
      some (.root { root with homeSessionId := input.homeSessionId }) := by
    simp [get_recoverTxn]
  rw [home_of_get hroot, homeOf, get_recoverTxn, if_pos rfl]
  rfl

theorem home_recover_other {generation} (hne : root.rootId ≠ id) :
    home (committed s (recoverTxn input root generation)) id = home s id :=
  home_congr (by simp [get_recoverTxn, hne]) fun _ _ => by simp [get_recoverTxn, hne]

/-! ## Undisturbed recoveries -/

/-- What the requests that write a home grant rely on while they are under way: a recovery, that nobody changes the
    home of the root; an acquisition, that the home node stays, and all of the home if it is made by the home node. -/
def homeRely : OwnerRequest → System → System → Prop
  | .recover input, s, s' => HomeKept input.rootId s s'
  | .acquire input, s, s' => ∀ h, home s input.rootId = some h →
      ∃ h', home s' input.rootId = some h' ∧ h'.nodeId = h.nodeId ∧ (h.nodeId = input.requesterNodeId → h' = h)
  | _, _, _ => True

theorem homeRely_refl (r : OwnerRequest) (s : System) : homeRely r s s := by
  unfold homeRely
  split
  · exact .refl _ s
  · exact fun h hhome => ⟨h, hhome, rfl, fun _ => rfl⟩
  · trivial

theorem homeRely_trans (r : OwnerRequest) (s₁ s₂ s₃ : System) (h : homeRely r s₁ s₂) (h' : homeRely r s₂ s₃) :
    homeRely r s₁ s₃ := by
  unfold homeRely at h h' ⊢
  split
  · exact HomeKept.trans h h'
  · intro h₁ hhome
    obtain ⟨h₂, hhome₂, hnode₂, hsame₂⟩ := h h₁ hhome
    obtain ⟨h₃, hhome₃, hnode₃, hsame₃⟩ := h' h₂ hhome₂
    refine ⟨h₃, hhome₃, hnode₃.trans hnode₂, fun hrequester => ?_⟩
    rw [hsame₃ (hnode₂.trans hrequester), hsame₂ hrequester]
  · trivial

theorem homeRely_guarantees : OwnerGuarantees homeRely := ownerGuarantees homeRely_refl homeRely_trans

/-- Where no home changes, every request finds what it relies on. -/
theorem homeRely_of_kept (h : ∀ id, HomeKept id s s') (r : OwnerRequest) : homeRely r s s' := by
  unfold homeRely
  split
  · exact h _
  · exact fun h₁ hhome => ⟨h₁, h _ h₁ hhome, rfl, fun _ => rfl⟩
  · trivial

/-- The request writes the home grant of the root that is recovered. -/
def Disturbed (input : RecoverRootInput) : OwnerRequest → Prop
  | .recover other => other.rootId = input.rootId
  | .acquire other => other.rootId = input.rootId ∧ other.requesterNodeId = input.homeNodeId
  | _ => False

/-- **A recovery that takes effect** finds no other request under way that it would disturb, and the generations are not
    used up. -/
def recoversAlone : StepCondition := fun c c' => ∀ i input txn, Commits c i (.recover input) txn c' →
  (∀ j r p, j ≠ i → c.procs[j]? = some (r, p) → UnderWay handle r p → ¬Disturbed input r) ∧
    homeGeneration c.state input.rootId ≠ some .maxValue

/-- A transaction of a request that was not disturbed, and is not a recovery, changes no home. -/
theorem homeKept_undisturbed (hissued : OwnerIssued (homeRely r) s r txn)
    (happlies : s.Applies txn outcome) (hrecover : ∀ input, r ≠ .recover input) (id : String) :
    HomeKept id s (committed s txn) := by
  by_cases hacquire : ∃ input, r = .acquire input
  · obtain ⟨input, rfl⟩ := hacquire
    cases hissued with
    | @acquire _ _ s₂ root _ _ h₁₂ h₂ hroot hgrant =>
      refine homeKept_acquire (fun h hhome hnode hsession => ?_) id
      -- the home node is the one that was read, so all of the home is what was read
      obtain ⟨later, hlater, hnode₂, hsame₂⟩ := h₁₂ _ (home_of_get hroot)
      obtain ⟨present, hpresent, hnode₃, hsame₃⟩ := h₂ _ hlater
      rw [rootId_of_get hroot, hpresent, Option.some.injEq] at hhome
      subst hhome
      have hrequester : later.nodeId = input.requesterNodeId := hnode₃.symm.trans hnode
      have hread := hsame₂ (hnode₂.symm.trans hrequester)
      rw [hsame₃ hrequester, generation_eq hlater, hread]
      show (grantOf (s₂.store.get (.rootGrant _ root.homeNodeId root.homeSessionId))).map _ = _
      rw [hgrant]
      rfl
  · exact homeKept_of_issued hissued happlies (fun input he => hacquire ⟨input, he⟩) hrecover id

/-- A recovery that was not disturbed counts on from the present generation. -/
theorem recover_undisturbed (hkept : RootsKept s)
    (hissued : OwnerIssued (homeRely (.recover input)) s (.recover input) txn) :
    ∃ h generation root, home s input.rootId = some h ∧ h.nodeId = input.homeNodeId ∧ h.generation = some generation ∧
      root.rootId = input.rootId ∧ root.homeNodeId = input.homeNodeId ∧
      txn = recoverTxn input root (generation.saturatingAdd 1) := by
  cases hissued with
  | @recover _ s₁ s₂ root h₁₂ h₂ hroot hnames =>
    have hhome₂ := h₁₂ _ (home_of_get hroot)
    have hhome := h₂ _ hhome₂
    obtain ⟨generation, hgeneration⟩ := hkept.generation hhome
    simp only [RecoverRootInput.names, Bool.and_eq_true, decide_eq_true_eq] at hnames
    refine ⟨_, generation, root, hhome, hnames.1.1, hgeneration, rootId_of_get hroot, hnames.1.1, ?_⟩
    rw [generation_eq hhome₂, Option.map_eq_some_iff] at hgeneration
    obtain ⟨grant, hgrant, rfl⟩ := hgeneration
    rw [show grantOf (s₂.store.get (.rootGrant input.rootId root.homeNodeId root.homeSessionId)) = some grant from
      hgrant]
    rfl

/-- What a recovery leaves to the requests that it does not disturb. -/
theorem homeRely_recover {generation} (hhome : home s input.rootId = some h)
    (hnode : h.nodeId = input.homeNodeId) (hid : root.rootId = input.rootId)
    (hroot : root.homeNodeId = input.homeNodeId) (hfree : ¬Disturbed input r) :
    homeRely r s (committed s (recoverTxn input root generation)) := by
  cases r with
  | recover other =>
    have hne : root.rootId ≠ other.rootId := fun he => hfree (he.symm.trans hid)
    intro h' hother
    rw [home_recover_other hne, hother]
  | acquire other =>
    intro h' hother
    by_cases he : other.rootId = input.rootId
    · rw [he, hhome, Option.some.injEq] at hother
      subst hother
      refine ⟨⟨root.homeNodeId, input.homeSessionId, some generation⟩, ?_, hroot.trans hnode.symm, fun hrequester => ?_⟩
      · rw [he, ← hid]
        exact home_recover input root generation
      · exact absurd ⟨he, hrequester.symm.trans hnode⟩ hfree
    · have hne : root.rootId ≠ other.rootId := fun heq => he (heq.symm.trans hid)
      exact ⟨h', by rw [home_recover_other hne, hother], rfl, fun _ => rfl⟩
  | _ => trivial

/-- **In a run of undisturbed recoveries every request is undisturbed.** -/
theorem OwnerReachable.undisturbed (h : OwnerReachable tick recoversAlone c) : OwnerCalm homeRely c := by
  obtain ⟨clock, hrun⟩ := h
  induction hrun with
  | refl => exact Pool.Calm.nil _
  | @tail c₁ c₂ hbefore hstep ih =>
    refine ih.next homeRely_guarantees hstep (fun haside => homeRely_of_kept haside.homeKept) ?_
    intro i r txn hcondition hcommits hissued j r' p hij hp hway
    obtain ⟨outcome, happlies⟩ := hcommits.applies
    rw [hcommits.state]
    by_cases hrecover : ∃ input, r = .recover input
    · obtain ⟨input, rfl⟩ := hrecover
      have hkept := OwnerReachable.rootsKept ⟨clock, hbefore⟩
      obtain ⟨h, generation, root, hhome, hnode, -, hid, hroot, rfl⟩ := recover_undisturbed hkept hissued
      exact homeRely_recover hhome hnode hid hroot ((hcondition i input _ hcommits).1 j r' p hij hp hway)
    · exact homeRely_of_kept (homeKept_undisturbed hissued happlies fun input he => hrecover ⟨input, he⟩) r'

/-! ## Generations grow -/

theorem HomeKept.generation (h : HomeKept id s s') {generation}
    (hgeneration : homeGeneration s id = some generation) : homeGeneration s' id = some generation := by
  obtain ⟨hm, hhome, hg⟩ := Option.bind_eq_some_iff.mp hgeneration
  rw [homeGeneration, h hm hhome]
  exact hg

theorem homeGeneration_recover (input : RecoverRootInput) (root : RootRecord) (generation : UInt64) :
    homeGeneration (committed s (recoverTxn input root generation)) root.rootId = some generation := by
  rw [homeGeneration, home_recover]
  rfl

theorem homeGeneration_recover_other {generation} (hne : root.rootId ≠ id) :
    homeGeneration (committed s (recoverTxn input root generation)) id = homeGeneration s id := by
  rw [homeGeneration, home_recover_other hne, homeGeneration]

theorem lt_next_generation {generation : UInt64} (h : generation ≠ .maxValue) :
    generation < generation.saturatingAdd 1 := by
  have hlt := generation.toNat_lt
  have hne : generation.toNat ≠ 18446744073709551615 := by
    exact fun he => h (UInt64.toNat_inj.mp he)
  rw [UInt64.lt_iff_toNat_lt, UInt64.toNat_saturatingAdd]
  have hone : (1 : UInt64).toNat = 1 := rfl
  omega

/-- The grant of a recovery is recorded. -/
def RecordedRecovery (s : System) (key : RequestKey) (grant : RootAccessGrant) : Prop :=
  Recorded s key .recoverRoot (.rootGrant grant)

/-- What a step does to the generations, in a run of undisturbed recoveries. -/
inductive GenerationCase (c c' : OwnerPool) : Prop
  | kept (hhome : ∀ id, HomeKept id c.state c'.state)
      (hrecords : ∀ key grant, RecordedRecovery c'.state key grant → RecordedRecovery c.state key grant)
  | recovered (input : RecoverRootInput) (root : RootRecord) (generation : UInt64) (hmax : generation ≠ .maxValue)
      (hgeneration : homeGeneration c.state root.rootId = some generation)
      (hstate : c'.state = committed c.state (recoverTxn input root (generation.saturatingAdd 1)))

theorem recordedRecovery_of_outcome (h : s'.store.outcome key = s.store.outcome key ∨
      s.store.outcome key = none ∧ ∃ o, s'.store.outcome key = some o ∧ o.operation ≠ .recoverRoot)
    (hrecorded : RecordedRecovery s' key grant) : RecordedRecovery s key grant := by
  obtain ⟨o, hout, hop, hresult⟩ := hrecorded
  rcases h with hsame | ⟨-, o', hnew, hne⟩
  · exact ⟨o, hsame ▸ hout, hop, hresult⟩
  · cases hout.symm.trans hnew
    exact absurd hop hne

theorem OwnerIssued.operation_ne (h : OwnerIssued rely s r txn) (hrecover : ∀ input, r ≠ .recover input) :
    txn.operation ≠ .recoverRoot := by
  cases h with
  | recover => exact absurd rfl (hrecover _)
  | _ => exact nofun

theorem OwnerReachable.generation_cases (h : OwnerReachable tick recoversAlone c)
    (hstep : OwnerStep tick recoversAlone c c') : GenerationCase c c' := by
  have hcase := h.undisturbed.step_cases homeRely_guarantees hstep
  cases hcase with
  | aside haside =>
    refine .kept haside.homeKept fun key grant => recordedRecovery_of_outcome ?_
    rcases haside.outcome key with hsame | ⟨hnone, o, hnew, hop⟩
    · exact .inl hsame
    · exact .inr ⟨hnone, o, hnew, fun he => hop (he ▸ by decide)⟩
  | commits i r txn hcommits hissued hcondition =>
    obtain ⟨outcome, happlies⟩ := hcommits.applies
    by_cases hrecover : ∃ input, r = .recover input
    · obtain ⟨input, rfl⟩ := hrecover
      obtain ⟨hm, generation, root, hhome, -, hgeneration, hid, -, rfl⟩ := recover_undisturbed h.rootsKept hissued
      have hpresent : homeGeneration c.state root.rootId = some generation := by
        rw [homeGeneration, hid, hhome]
        exact hgeneration
      refine .recovered input root generation (fun hmax => (hcondition i input _ hcommits).2 ?_) hpresent hcommits.state
      rw [← hid, hpresent, hmax]
    · have hother : ∀ input, r ≠ .recover input := fun input he => hrecover ⟨input, he⟩
      refine .kept (fun id => hcommits.state ▸ homeKept_undisturbed hissued happlies hother id) fun key grant =>
        recordedRecovery_of_outcome ?_
      rw [hcommits.state]
      rcases outcome_cases_of_applies happlies hissued.ownerFsTxn.records key with hsame | ⟨hfresh, o, hnew, hop⟩
      · exact .inl hsame
      · exact .inr ⟨hfresh, o, hnew, hop ▸ hissued.operation_ne hother⟩

/-- One step takes no generation back. -/
theorem GenerationCase.le (h : GenerationCase c c') {generation : UInt64}
    (hgeneration : homeGeneration c.state id = some generation) :
    ∃ generation', homeGeneration c'.state id = some generation' ∧ generation ≤ generation' := by
  cases h with
  | kept hhome _ => exact ⟨generation, (hhome id).generation hgeneration, UInt64.le_refl _⟩
  | recovered _ root _ hmax hpresent hstate =>
    rw [hstate]
    by_cases hid : root.rootId = id
    · subst hid
      cases hpresent.symm.trans hgeneration
      exact ⟨_, homeGeneration_recover .., UInt64.le_of_lt (lt_next_generation hmax)⟩
    · exact ⟨generation, by rw [homeGeneration_recover_other hid, hgeneration], UInt64.le_refl _⟩

/-- What holds of the recoveries that are recorded: their generations are not above the present one, and no two of a
    root have the same. -/
structure RecoveriesKept (s : System) : Prop where
  le : ∀ key grant, RecordedRecovery s key grant →
    ∃ generation, homeGeneration s grant.rootId = some generation ∧ grant.accessGeneration ≤ generation
  apart : ∀ key key' grant grant', RecordedRecovery s key grant → RecordedRecovery s key' grant' → key ≠ key' →
    grant.rootId = grant'.rootId → grant.accessGeneration ≠ grant'.accessGeneration

theorem recordedRecovery_recover {generation}
    (h : RecordedRecovery (committed s (recoverTxn input root generation)) key grant) :
    RecordedRecovery s key grant ∨ key = requestKey root.homeNodeId input.homeSessionId input.requestId ∧
      grant = homeGrant { root with homeSessionId := input.homeSessionId } generation := by
  obtain ⟨o, hout, hop, hresult⟩ := h
  have hcommitted : (committed s (recoverTxn input root generation)).store.outcome key =
      if requestKey root.homeNodeId input.homeSessionId input.requestId = key then
        some ⟨requestKey root.homeNodeId input.homeSessionId input.requestId, .recoverRoot,
          .rootGrant (homeGrant { root with homeSessionId := input.homeSessionId } generation)⟩
      else s.store.outcome key := by
    show (s.store.applyMutations _).outcome key = _
    rw [StoreState.outcome_applyMutations]
    rfl
  rw [hcommitted] at hout
  split at hout
  · next hkey =>
    cases hout
    cases hresult
    exact .inr ⟨hkey.symm, rfl⟩
  · exact .inl ⟨o, hout, hop, hresult⟩

theorem RecoveriesKept.next (hkept : RecoveriesKept c.state) (h : GenerationCase c c') : RecoveriesKept c'.state := by
  have hold : ∀ key grant, RecordedRecovery c.state key grant →
      ∃ generation, homeGeneration c'.state grant.rootId = some generation ∧ grant.accessGeneration ≤ generation := by
    intro key grant hrecorded
    obtain ⟨generation, hgeneration, hle⟩ := hkept.le key grant hrecorded
    obtain ⟨generation', hgeneration', hle'⟩ := h.le hgeneration
    exact ⟨generation', hgeneration', UInt64.le_trans hle hle'⟩
  cases h with
  | kept _ hrecords =>
    exact ⟨fun key grant hrecorded => hold key grant (hrecords key grant hrecorded),
      fun key key' grant grant' h₁ h₂ => hkept.apart key key' grant grant' (hrecords _ _ h₁) (hrecords _ _ h₂)⟩
  | recovered input root generation hmax hgeneration hstate =>
    -- the new generation is above all that were handed out for the root
    have hnew : ∀ key grant, RecordedRecovery c.state key grant → grant.rootId = root.rootId →
        grant.accessGeneration < generation.saturatingAdd 1 := by
      intro key grant hrecorded hid
      obtain ⟨present, hpresent, hle⟩ := hkept.le key grant hrecorded
      rw [hid, hgeneration, Option.some.injEq] at hpresent
      subst hpresent
      exact UInt64.lt_of_le_of_lt hle (lt_next_generation hmax)
    rw [hstate] at hold ⊢
    refine ⟨fun key grant hrecorded => ?_, fun key key' grant grant' h₁ h₂ hne hid => ?_⟩
    · rcases recordedRecovery_recover hrecorded with hbefore | ⟨-, rfl⟩
      · exact hold key grant hbefore
      · exact ⟨_, homeGeneration_recover .., UInt64.le_refl _⟩
    · rcases recordedRecovery_recover h₁ with hbefore | ⟨rfl, rfl⟩ <;>
        rcases recordedRecovery_recover h₂ with hbefore' | ⟨rfl, rfl⟩
      · exact hkept.apart key key' grant grant' hbefore hbefore' hne hid
      · exact UInt64.ne_of_lt (hnew key grant hbefore hid)
      · exact (UInt64.ne_of_lt (hnew key' grant' hbefore' hid.symm)).symm
      · exact absurd rfl hne

theorem OwnerReachable.recoveriesKept (h : OwnerReachable tick recoversAlone c) : RecoveriesKept c.state := by
  obtain ⟨clock, hrun⟩ := h
  induction hrun with
  | refl =>
    have hnone : ∀ key grant, ¬RecordedRecovery ⟨StoreState.new, clock⟩ key grant := by
      rintro key grant ⟨o, hout, -⟩
      cases hout
    exact ⟨fun key grant h => absurd h (hnone key grant), fun key _ grant _ h => absurd h (hnone key grant)⟩
  | tail hbefore hstep ih => exact ih.next (OwnerReachable.generation_cases ⟨clock, hbefore⟩ hstep)

/-- **Generations grow.** In a run of undisturbed recoveries the generation of a root is never taken back, and two
    recoveries of a root that are not one request answered twice hand out different generations. -/
theorem generations_grow (h : OwnerReachable tick recoversAlone c) :
    (∀ c' id generation, OwnerRun tick recoversAlone c c' → homeGeneration c.state id = some generation →
      ∃ generation', homeGeneration c'.state id = some generation' ∧ generation ≤ generation') ∧
    ∀ i j input input' grant grant', Answers c i (.recover input) (.granted grant) →
      Answers c j (.recover input') (.granted grant') → grant.rootId = grant'.rootId → input.key ≠ input'.key →
      grant.accessGeneration ≠ grant'.accessGeneration := by
  refine ⟨fun c' id generation hrun hgeneration => ?_, fun i j input input' grant grant' hi hj hid hkey => ?_⟩
  · induction hrun with
    | refl => exact ⟨generation, hgeneration, UInt64.le_refl _⟩
    | tail hbefore hstep ih =>
      obtain ⟨present, hpresent, hle⟩ := ih
      obtain ⟨next, hnext, hle'⟩ := ((h.run hbefore).generation_cases hstep).le hpresent
      exact ⟨next, hnext, UInt64.le_trans hle hle'⟩
  · exact h.recoveriesKept.apart input.key input'.key grant grant' (h.answered i _ _ hi) (h.answered j _ _ hj) hkey hid

/-- A recovery that commits while nobody else has an operation to issue. -/
def aloneAt (c : OwnerPool) : OwnerEvent → Bool
  | .act i =>
    match c.procs[i]? with
    | some (.recover input, .call (.commit _) _) =>
      quietBut c i && homeGeneration c.state input.rootId ≠ some .maxValue
    | _ => true
  | _ => true

theorem recoversAlone_of_aloneAt (c : OwnerPool) (event : OwnerEvent) (h : aloneAt c event = true) :
    recoversAlone c (play c event) := by
  intro i input txn hcommits
  obtain ⟨rfl, k, hi⟩ := commits_play hcommits
  simp only [aloneAt, hi, Bool.and_eq_true, decide_eq_true_eq] at h
  exact ⟨fun j r p hij hp hway => absurd hway (not_underWay_of_quiet h.1 hij hp), h.2⟩

/-- Two recoveries, one after the other. -/
def recoveredTwice : List OwnerEvent :=
  Scene.active ++ Scene.serve 2 3 (.recover (Scene.recover "first" "a1"))
    ++ Scene.serve 3 3 (.recover (Scene.recover "second" "a1"))

theorem generations_grow_over_two_recoveries :
    ∃ grant grant', Answers (playAll recoveredTwice) 2 (.recover (Scene.recover "first" "a1")) (.granted grant) ∧
      Answers (playAll recoveredTwice) 3 (.recover (Scene.recover "second" "a1")) (.granted grant') ∧
      grant.accessGeneration ≠ grant'.accessGeneration := by
  have hreach : OwnerReachable (fun _ _ => False) recoversAlone (playAll recoveredTwice) :=
    reachable_playAll (by simp [recoveredTwice, Scene.active, Scene.serve, Scene.register]) recoversAlone_of_aloneAt
      (by decide +kernel)
  have hfirst : Answers (playAll recoveredTwice) 2 (.recover (Scene.recover "first" "a1"))
      (.granted (homeGrant ⟨"root", 1, "a", "a1", "local", 0, 0⟩ 2)) := answers_of_answerOf (by decide +kernel)
  have hsecond : Answers (playAll recoveredTwice) 3 (.recover (Scene.recover "second" "a1"))
      (.granted (homeGrant ⟨"root", 1, "a", "a1", "local", 0, 0⟩ 3)) := answers_of_answerOf (by decide +kernel)
  exact ⟨_, _, hfirst, hsecond, (generations_grow hreach).2 2 3 _ _ _ _ hfirst hsecond rfl (by decide)⟩

/-- A recovery that has read the generation, and two more that commit before it does. -/
def overtaken : List OwnerEvent :=
  Scene.active ++ Scene.serve 2 2 (.recover (Scene.recover "slow" "a1"))
    ++ Scene.serve 3 3 (.recover (Scene.recover "first" "a1")) ++
      Scene.serve 4 3 (.recover (Scene.recover "second" "a1"))

/-- **Recoveries that overlap share a generation**, and the slower one takes the root back to it: the generation of the
    home grant is 3 before the last commit and 2 after it, and 2 is handed out to two recoveries. -/
theorem recoveries_share_generation :
    OwnerReachable (fun before after => before ≤ after) anyStep (playAll overtaken) ∧
    OwnerRun (fun before after => before ≤ after) anyStep (playAll overtaken) (play (playAll overtaken) (.act 2)) ∧
    homeGeneration (playAll overtaken).state "root" = some 3 ∧
    homeGeneration (play (playAll overtaken) (.act 2)).state "root" = some 2 ∧
    ∃ grant grant',
      Answers (play (playAll overtaken) (.act 2)) 2 (.recover (Scene.recover "slow" "a1")) (.granted grant) ∧
      Answers (play (playAll overtaken) (.act 2)) 3 (.recover (Scene.recover "first" "a1")) (.granted grant') ∧
      grant.rootId = grant'.rootId ∧ (Scene.recover "slow" "a1").key ≠ (Scene.recover "first" "a1").key ∧
      grant.accessGeneration = grant'.accessGeneration := by
  refine ⟨⟨0, run_any (by simp [overtaken, Scene.active, Scene.serve, Scene.register]) _⟩, run_play nofun trivial,
    by decide +kernel, by decide +kernel, homeGrant ⟨"root", 1, "a", "a1", "local", 0, 0⟩ 2,
    homeGrant ⟨"root", 1, "a", "a1", "local", 0, 0⟩ 2, answers_of_answerOf (by decide +kernel),
    answers_of_answerOf (by decide +kernel), rfl, by decide, rfl⟩

end Afs.OwnerRoots
