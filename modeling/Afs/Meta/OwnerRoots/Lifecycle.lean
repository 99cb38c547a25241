import Afs.Meta.OwnerRoots.Schedule

/-!
# `Meta.OwnerRoots.Lifecycle` — from reservation to root

A root id is free, reserved, or active. A reservation ends in one of two ways: it is activated, and the root takes its
place, or it is aborted. `RootsKept` is what holds in every state of a run; `Consumes` is the end of a reservation. A
reservation names the request that made it, and that request is recorded, so a reservation that has ended is never made
again, and nothing can end it a second time.
-/

namespace Afs.OwnerRoots

open Interaction Relation

variable {rely : Rely} {tick : Tick} {condition : StepCondition} {s s' : System}
  {r : OwnerRequest} {txn : MetaTxn} {outcome : RequestOutcome} {c c' c₁ c₂ c₃ : OwnerPool}

variable {id node session : String} {grant : MetaEntity} {record : RootReservationRecord}

/-! ## What the transactions write -/

section Get

variable (key : MetaKey)

theorem get_committed (txn : MetaTxn) :
    (committed s txn).store.get key =
      txn.mutations.foldl (fun old mutation => mutation.effect key old) (s.store.get key) :=
  StoreState.get_applyMutations txn.mutations key

theorem get_reserveTxn (input : ReserveRootInput) :
    (committed s (reserveTxn input)).store.get key =
      if .rootReservation input.rootId = key then some (.rootReservation (newReservation input))
      else s.store.get key := get_committed ..

theorem get_activateTxn (input : ActivateRootInput) (record : RootReservationRecord) :
    (committed s (activateTxn input record)).store.get key =
      if .rootReservation record.rootId = key then none
      else if .rootGrant record.rootId record.homeNodeId record.homeSessionId = key then
        some (.rootGrant (homeGrant (activatedRoot record input.localPrepareId) 1))
      else if .root record.rootId = key then some (.root (activatedRoot record input.localPrepareId))
      else s.store.get key := get_committed ..

theorem get_abortTxn (input : AbortRootInput) (record : RootReservationRecord) :
    (committed s (abortTxn input record)).store.get key =
      if .rootReservation input.rootId = key then none else s.store.get key := get_committed ..

theorem get_acquireTxn (input : AcquireRootInput) (root : RootRecord) (home : RootAccessGrant)
    (held : Option StoreRevision × List RootRight) :
    (committed s (acquireTxn input root home held)).store.get key =
      if .rootGrant root.rootId input.requesterNodeId input.sessionId = key then
        some (.rootGrant (acquiredGrant input root home held.2))
      else s.store.get key := get_committed ..

theorem get_ackTxn (input : AckRevocationInput) :
    (committed s (ackTxn input)).store.get key =
      if .rootCommandAck input.commandId input.nodeId input.sessionId = key then
        some (.rootCommandAck (rootCommandAck input))
      else s.store.get key := get_committed ..

theorem get_recoverTxn (input : RecoverRootInput) (root : RootRecord) (generation : UInt64) :
    (committed s (recoverTxn input root generation)).store.get key =
      if .rootGrant root.rootId root.homeNodeId input.homeSessionId = key then
        some (.rootGrant (homeGrant { root with homeSessionId := input.homeSessionId } generation))
      else if .root root.rootId = key then some (.root { root with homeSessionId := input.homeSessionId })
      else s.store.get key := get_committed ..

end Get

/-- The root that a transaction has in its conditions. -/
theorem root_of_applies {epoch} (h : s.Applies txn outcome) (hmem : .rootEpochEquals id epoch ∈ txn.conditions) :
    ∃ root, s.store.get (.root id) = some (.root root) ∧ root.rootEpoch = epoch := by
  have hcondition := h.conditions _ hmem
  simp only [MemoryState.conditionMatches] at hcondition
  split at hcondition
  · next root hroot => exact ⟨root, hroot, by simpa using hcondition⟩
  · cases hcondition

/-- A reservation comes from a reserve request; every other transaction finds it there. -/
theorem reservation_cases (hissued : OwnerIssued rely s r txn) {entity}
    (h : (committed s txn).store.get (.rootReservation id) = some entity) :
    s.store.get (.rootReservation id) = some entity ∨
      ∃ input, txn = reserveTxn input ∧ entity = .rootReservation (newReservation input) ∧ id = input.rootId := by
  cases hissued with
  | reserve input =>
    rw [get_reserveTxn] at h
    split at h
    · next hid =>
      cases hid
      exact .inr ⟨input, rfl, (Option.some.inj h).symm, rfl⟩
    · exact .inl h
  | activate | abort =>
    simp only [get_activateTxn, get_abortTxn, reduceCtorEq, if_false] at h
    split at h
    · cases h
    · exact .inl h
  | acquire | ack | recover =>
    simp only [get_acquireTxn, get_ackTxn, get_recoverTxn, reduceCtorEq, if_false] at h
    exact .inl h

/-- Roots are created by activations; a recovery needs one to be there. -/
theorem root_cases (hissued : OwnerIssued rely s r txn) (happlies : s.Applies txn outcome) (id : String) :
    (s.store.get (.root id) = none ↔ (committed s txn).store.get (.root id) = none) ∨
      ∃ input record, r = .activate input ∧ txn = activateTxn input record ∧ id = record.rootId ∧
        s.store.get (.root id) = none := by
  cases hissued with
  | reserve input => simp [get_reserveTxn]
  | @activate input record =>
    by_cases he : record.rootId = id
    · subst he
      exact .inr ⟨input, record, rfl, rfl, rfl, happlies.missing (by simp [activateTxn, ownerTxn, activatedRoot])⟩
    · simp [get_activateTxn, he]
  | abort hid => simp [get_abortTxn]
  | acquire => simp [get_acquireTxn]
  | ack input => simp [get_ackTxn]
  | @recover _ _ _ root =>
    by_cases he : root.rootId = id
    · obtain ⟨current, hcurrent, -⟩ := root_of_applies happlies (.tail _ (.tail _ (.head _)))
      subst he
      simp [get_recoverTxn, hcurrent]
    · simp [get_recoverTxn, he]

/-- A new grant is one for a root that is there. -/
theorem grant_cases (hissued : OwnerIssued rely s r txn) (happlies : s.Applies txn outcome)
    (h : (committed s txn).store.get (.rootGrant id node session) = some grant) :
    s.store.get (.rootGrant id node session) = some grant ∨ (committed s txn).store.get (.root id) ≠ none := by
  cases hissued with
  | reserve | abort | ack =>
    simp only [get_reserveTxn, get_abortTxn, get_ackTxn, reduceCtorEq, if_false] at h
    exact .inl h
  | activate | recover =>
    simp only [get_activateTxn, get_recoverTxn, reduceCtorEq, if_false, MetaKey.rootGrant.injEq, MetaKey.root.injEq]
      at h ⊢
    split at h
    · next hkey =>
      rw [if_pos hkey.1]
      exact .inr nofun
    · exact .inl h
  | acquire =>
    simp only [get_acquireTxn, reduceCtorEq, if_false, MetaKey.rootGrant.injEq] at h ⊢
    split at h
    · next hkey =>
      obtain ⟨current, hcurrent, -⟩ := root_of_applies happlies (.tail _ (.tail _ (.head _)))
      rw [← hkey.1, hcurrent]
      exact .inr nofun
    · exact .inl h

/-! ## The invariant -/

/-- A request that is recorded stays recorded. -/
theorem recorded_aside {key} (haside : RootsAside s s') (h : s.store.outcome key ≠ none) :
    s'.store.outcome key ≠ none := by
  rcases haside.outcome key with hsame | ⟨hnone, -⟩
  · rwa [hsame]
  · exact absurd hnone h

theorem recorded_commit {key} (hissued : OwnerIssued rely s r txn)
    (happlies : s.Applies txn outcome) (h : s.store.outcome key ≠ none) :
    (committed s txn).store.outcome key ≠ none := by
  obtain ⟨recorded, hrecorded⟩ := Option.ne_none_iff_exists'.mp h
  have hkept := outcome_of_applies happlies (fun o ho => (hissued.ownerFsTxn.records o ho).1) hrecorded
  exact fun hnone => nomatch hnone.symm.trans hkept

/-- **What holds in every state.** -/
structure RootsKept (s : System) : Prop where
  exclusive : ∀ id record, s.store.get (.rootReservation id) = some record → s.store.get (.root id) = none
  homeGranted : ∀ id root, s.store.get (.root id) = some (.root root) →
    ∃ grant, s.store.get (.rootGrant id root.homeNodeId root.homeSessionId) = some (.rootGrant grant) ∧
      grant.rootEpoch = root.rootEpoch
  granted : ∀ id node session grant, s.store.get (.rootGrant id node session) = some grant →
    s.store.get (.root id) ≠ none
  /-- A reservation was made by a request that is recorded. -/
  reserved : ∀ id record, s.store.get (.rootReservation id) = some (.rootReservation record) →
    ∃ input, record = newReservation input ∧ s.store.outcome input.key ≠ none

namespace RootsKept

theorem aside (h : RootsKept s) (haside : RootsAside s s') : RootsKept s' where
  exclusive id record hrecord := by
    rw [haside.get _ rfl] at hrecord ⊢
    exact h.exclusive id record hrecord
  homeGranted id root hroot := by
    rw [haside.get _ rfl] at hroot ⊢
    exact h.homeGranted id root hroot
  granted id node session grant hgrant := by
    rw [haside.get _ rfl] at hgrant ⊢
    exact h.granted id node session grant hgrant
  reserved id record hrecord := by
    rw [haside.get _ rfl] at hrecord
    obtain ⟨input, hinput, hout⟩ := h.reserved id record hrecord
    exact ⟨input, hinput, recorded_aside haside hout⟩

section Commit

variable (h : RootsKept s) (hissued : OwnerIssued rely s r txn) (happlies : s.Applies txn outcome)

include h hissued happlies

theorem exclusive_commit {record} (hrecord : (committed s txn).store.get (.rootReservation id) = some record) :
    (committed s txn).store.get (.root id) = none := by
  rcases root_cases hissued happlies id with hsame | ⟨input, reservation, -, rfl, rfl, -⟩
  · rw [← hsame]
    rcases reservation_cases hissued hrecord with hbefore | ⟨input, rfl, -, rfl⟩
    · exact h.exclusive id record hbefore
    · exact happlies.missing (by simp [reserveTxn, ownerTxn])
  · -- the activation has deleted the reservation
    rw [get_activateTxn, if_pos rfl] at hrecord
    cases hrecord

theorem homeGranted_commit {root} (hroot : (committed s txn).store.get (.root id) = some (.root root)) :
    ∃ grant, (committed s txn).store.get (.rootGrant id root.homeNodeId root.homeSessionId) = some (.rootGrant grant) ∧
      grant.rootEpoch = root.rootEpoch := by
  cases hissued with
  | reserve | abort | ack =>
    simp only [get_reserveTxn, get_abortTxn, get_ackTxn, reduceCtorEq, if_false] at hroot ⊢
    exact h.homeGranted id root hroot
  | activate | recover =>
    simp only [get_activateTxn, get_recoverTxn, reduceCtorEq, if_false, MetaKey.root.injEq, MetaKey.rootGrant.injEq]
      at hroot ⊢
    split at hroot
    · next hid =>
      cases hroot
      rw [if_pos ⟨hid, rfl, rfl⟩]
      exact ⟨_, rfl, rfl⟩
    · next hne =>
      rw [if_neg fun he => hne he.1]
      exact h.homeGranted id root hroot
  | @acquire input _ _ read home =>
    simp only [get_acquireTxn, reduceCtorEq, if_false, MetaKey.rootGrant.injEq] at hroot ⊢
    by_cases hkey : read.rootId = id ∧ input.requesterNodeId = root.homeNodeId ∧ input.sessionId = root.homeSessionId
    · -- the home node has acquired its own root; the epoch it read is compared
      obtain ⟨current, hcurrent, hepoch⟩ := root_of_applies happlies (.tail _ (.tail _ (.head _)))
      rw [hkey.1, hroot] at hcurrent
      cases hcurrent
      rw [if_pos hkey]
      exact ⟨_, rfl, hepoch.symm⟩
    · rw [if_neg hkey]
      exact h.homeGranted id root hroot

theorem granted_commit (hgrant : (committed s txn).store.get (.rootGrant id node session) = some grant) :
    (committed s txn).store.get (.root id) ≠ none := by
  rcases grant_cases hissued happlies hgrant with hbefore | hroot
  · have hthere := h.granted id node session grant hbefore
    rcases root_cases hissued happlies id with hsame | ⟨input, reservation, -, -, -, hnone⟩
    · rwa [ne_eq, ← hsame]
    · exact absurd hnone hthere
  · exact hroot

theorem reserved_commit
    (hrecord : (committed s txn).store.get (.rootReservation id) = some (.rootReservation record)) :
    ∃ input, record = newReservation input ∧ (committed s txn).store.outcome input.key ≠ none := by
  rcases reservation_cases hissued hrecord with hbefore | ⟨input, rfl, hnew, -⟩
  · obtain ⟨input, hinput, hout⟩ := h.reserved id record hbefore
    exact ⟨input, hinput, recorded_commit hissued happlies hout⟩
  · obtain ⟨recorded, hrecorded, -⟩ := hissued.recorded happlies
    exact ⟨input, MetaEntity.rootReservation.inj hnew, fun hnone => nomatch hnone.symm.trans hrecorded⟩

end Commit

end RootsKept

theorem rootsKept_new (clock : UInt64) : RootsKept ⟨StoreState.new, clock⟩ := by
  have hnew : ∀ key, StoreState.new.get key = none := fun _ => rfl
  have hempty : ∀ key entity, StoreState.new.get key ≠ some entity := fun key entity h => by rw [hnew] at h; cases h
  exact ⟨fun _ _ _ => hnew _, fun _ _ h => absurd h (hempty _ _), fun _ _ _ _ h => absurd h (hempty _ _),
    fun _ _ h => absurd h (hempty _ _)⟩

theorem OwnerReachable.rootsKept (h : OwnerReachable tick condition c) : RootsKept c.state := by
  obtain ⟨clock, hrun⟩ := h
  refine run_invariant (fun s s' haside hkept => hkept.aside haside) (fun r s txn outcome hkept hissued happlies => ?_)
    ⟨clock, .refl⟩ hrun (rootsKept_new clock)
  exact ⟨fun _ _ => hkept.exclusive_commit hissued happlies, fun _ _ => hkept.homeGranted_commit hissued happlies,
    fun _ _ _ _ => hkept.granted_commit hissued happlies, fun _ _ => hkept.reserved_commit hissued happlies⟩

/-! ## The end of a reservation -/

/-- What ends a reservation. -/
inductive Consumer
  | activate | abort

def Consumer.of : OwnerRequest → Option Consumer
  | .activate _ => some .activate
  | .abort _ => some .abort
  | _ => none

/-- **The reservation ends** in the step from `c` to `c'`: a request of this kind commits, the reservation is there
    before and not after, and the root is there after an activation only. -/
structure Consumes (how : Consumer) (c c' : OwnerPool) (record : RootReservationRecord) : Prop where
  commits : ∃ i r txn, Commits c i r txn c' ∧ Consumer.of r = some how
  before : c.state.store.get (.rootReservation record.rootId) = some (.rootReservation record)
  after : c'.state.store.get (.rootReservation record.rootId) = none
  root : c'.state.store.get (.root record.rootId) ≠ none ↔ how = .activate

/-- A transaction that changes a reservation ends it. -/
theorem reservation_ends (hkept : RootsKept s) (hissued : OwnerIssued rely s r txn) (happlies : s.Applies txn outcome)
    (hbefore : s.store.get (.rootReservation id) = some (.rootReservation record))
    (hafter : (committed s txn).store.get (.rootReservation id) ≠ some (.rootReservation record)) :
    ∃ how, Consumer.of r = some how ∧ (committed s txn).store.get (.rootReservation id) = none ∧
      ((committed s txn).store.get (.root id) ≠ none ↔ how = .activate) := by
  cases hissued with
  | reserve input =>
    rw [get_reserveTxn] at hafter
    split at hafter
    · next hid =>
      cases hid
      have hfree : s.store.get (.rootReservation input.rootId) = none :=
        happlies.missing (by simp [reserveTxn, ownerTxn])
      rw [hfree] at hbefore
      cases hbefore
    · exact absurd hbefore hafter
  | @activate _ _ hid =>
    simp only [get_activateTxn, reduceCtorEq, if_false, MetaKey.rootReservation.injEq, MetaKey.root.injEq] at hafter ⊢
    split at hafter
    · next hid =>
      rw [if_pos hid, if_pos hid]
      exact ⟨.activate, rfl, rfl, fun _ => rfl, by simp⟩
    · exact absurd hbefore hafter
  | @abort _ _ hid =>
    simp only [get_abortTxn, reduceCtorEq, if_false, MetaKey.rootReservation.injEq] at hafter ⊢
    split at hafter
    · next hid =>
      rw [if_pos hid, hkept.exclusive id _ hbefore]
      exact ⟨.abort, rfl, rfl, fun h => absurd rfl h, by simp⟩
    · exact absurd hbefore hafter
  | acquire | ack | recover =>
    simp only [get_acquireTxn, get_ackTxn, get_recoverTxn, reduceCtorEq, if_false] at hafter
    exact absurd hbefore hafter

theorem Consumes.step {how record} (h : Consumes how c c' record) : OwnerStep tick anyStep c c' := by
  obtain ⟨i, r, txn, hcommits, -⟩ := h.commits
  obtain ⟨reply, hact⟩ := hcommits.act
  exact .step (.act i r _ reply hact) trivial

/-- A reservation is ended by an activation or an abort, and by nothing else. -/
theorem OwnerReachable.consumes (h : OwnerReachable tick condition c) (hstep : OwnerStep tick condition c c')
    (hbefore : c.state.store.get (.rootReservation id) = some (.rootReservation record))
    (hafter : c'.state.store.get (.rootReservation id) ≠ some (.rootReservation record)) :
    ∃ how, Consumes how c c' record := by
  cases reservationId_of_get hbefore
  cases h.step_cases hstep with
  | aside haside =>
    rw [haside.get _ rfl] at hafter
    exact absurd hbefore hafter
  | commits i r txn hcommits hissued _ =>
    obtain ⟨outcome, happlies⟩ := hcommits.applies
    rw [hcommits.state] at hafter
    obtain ⟨how, hof, hgone, hroot⟩ := reservation_ends h.rootsKept hissued happlies hbefore hafter
    rw [← hcommits.state] at hgone hroot
    exact ⟨how, ⟨i, r, txn, hcommits, hof⟩, hbefore, hgone, hroot⟩

/-! ## Once and for all -/

/-- The request that would make the reservation is recorded, and the reservation is not there. -/
def Ended (record : RootReservationRecord) (s : System) : Prop :=
  (∃ input, record = newReservation input ∧ s.store.outcome input.key ≠ none) ∧
    s.store.get (.rootReservation record.rootId) ≠ some (.rootReservation record)

/-- The token of a reservation holds the id of the request that made it. -/
theorem key_of_newReservation {input input'} (h : newReservation input = newReservation input') :
    input.key = input'.key := by
  have hnode := congrArg RootReservationRecord.homeNodeId h
  have hsession := congrArg RootReservationRecord.homeSessionId h
  have hroot := congrArg RootReservationRecord.rootId h
  have hintent := congrArg RootReservationRecord.createIntentId h
  have htoken := congrArg RootReservationRecord.prepareToken h
  simp only [newReservation] at hnode hsession hroot hintent htoken
  rw [hroot, hsession, hintent, String.append_right_inj] at htoken
  rw [ReserveRootInput.key, ReserveRootInput.key, hnode, hsession, htoken]

theorem Ended.aside (h : Ended record s) (haside : RootsAside s s') : Ended record s' := by
  obtain ⟨⟨input, hinput, hout⟩, hgone⟩ := h
  refine ⟨⟨input, hinput, recorded_aside haside hout⟩, ?_⟩
  rw [haside.get _ rfl]
  exact hgone

/-- No transaction makes an ended reservation again: its request is recorded. -/
theorem Ended.commit {record} (h : Ended record s) (hissued : OwnerIssued rely s r txn)
    (happlies : s.Applies txn outcome) : Ended record (committed s txn) := by
  obtain ⟨⟨input, hinput, hout⟩, hgone⟩ := h
  refine ⟨⟨input, hinput, recorded_commit hissued happlies hout⟩, fun hagain => ?_⟩
  rcases reservation_cases hissued hagain with hbefore | ⟨input', rfl, hnew, -⟩
  · exact hgone hbefore
  · have hkey : input'.key = input.key :=
      key_of_newReservation ((MetaEntity.rootReservation.inj hnew).symm.trans hinput)
    exact hout (hkey ▸ happlies.fresh)

theorem Ended.run (hreach : OwnerReachable tick condition c) (h : Ended record c.state)
    (hrun : OwnerRun tick condition c c') : Ended record c'.state :=
  hreach.run_invariant (fun _ _ haside h => h.aside haside) (fun _ _ _ _ h => h.commit) hrun h

/-- A root stays. -/
theorem OwnerReachable.root_run (h : OwnerReachable tick condition c) (hrun : OwnerRun tick condition c c')
    (hroot : c.state.store.get (.root id) ≠ none) : c'.state.store.get (.root id) ≠ none := by
  refine h.run_invariant (I := fun s => s.store.get (.root id) ≠ none) (fun s s' haside hroot => ?_)
    (fun r s txn outcome hroot hissued happlies => ?_) hrun hroot
  · rw [haside.get _ rfl]
    exact hroot
  · rcases root_cases hissued happlies id with hsame | ⟨input, record, -, -, -, hnone⟩
    · rwa [ne_eq, ← hsame]
    · exact absurd hnone hroot

/-- A root comes from the activation of its reservation. -/
theorem OwnerReachable.activates (h : OwnerReachable tick condition c) (hstep : OwnerStep tick condition c c')
    (hbefore : c.state.store.get (.root id) = none) (hafter : c'.state.store.get (.root id) ≠ none) :
    ∃ record, record.rootId = id ∧ Consumes .activate c c' record := by
  cases h.step_cases hstep with
  | aside haside =>
    rw [haside.get _ rfl] at hafter
    exact absurd hbefore hafter
  | commits i r txn hcommits hissued _ =>
    obtain ⟨outcome, happlies⟩ := hcommits.applies
    rcases root_cases hissued happlies id with hsame | ⟨input, record, rfl, rfl, rfl, -⟩
    · rw [hcommits.state, ne_eq, ← hsame] at hafter
      exact absurd hbefore hafter
    · have hequals : .entityEquals (.rootReservation record) ∈ (activateTxn input record).conditions := by
        simp [activateTxn, ownerTxn]
      refine ⟨record, rfl, ⟨i, _, _, hcommits, rfl⟩, happlies.entityEquals hequals, ?_, fun _ => rfl, fun _ => hafter⟩
      rw [hcommits.state, get_activateTxn, if_pos rfl]

/-- **The lifecycle of roots**, at a pool and from there on. -/
structure RootLifecycle (tick : Tick) (c : OwnerPool) : Prop where
  exclusive : ∀ id, ¬(c.state.store.get (.root id) ≠ none ∧ c.state.store.get (.rootReservation id) ≠ none)
  homeGrant : ∀ id root, c.state.store.get (.root id) = some (.root root) → ∃ grant,
    c.state.store.get (.rootGrant id root.homeNodeId root.homeSessionId) = some (.rootGrant grant) ∧
      grant.holderNodeId = root.homeNodeId ∧ grant.holderSessionId = root.homeSessionId ∧
      grant.rootEpoch = root.rootEpoch
  /-- A reservation that is no longer there was activated or aborted. -/
  ended : ∀ c' id record, OwnerStep tick anyStep c c' →
    c.state.store.get (.rootReservation id) = some (.rootReservation record) →
    c'.state.store.get (.rootReservation id) ≠ some (.rootReservation record) → ∃ how, Consumes how c c' record
  /-- It is activated or aborted once, and not both. -/
  endedOnce : ∀ c₁ c₂ c₃ how how' record, Consumes how c c₁ record → OwnerRun tick anyStep c₁ c₂ →
    ¬Consumes how' c₂ c₃ record
  /-- A root comes from the activation of a reservation. -/
  created : ∀ c' id, OwnerStep tick anyStep c c' → c.state.store.get (.root id) = none →
    c'.state.store.get (.root id) ≠ none → ∃ record, record.rootId = id ∧ Consumes .activate c c' record
  /-- It is activated once, from whatever reservation. -/
  activatedOnce : ∀ c₁ c₂ c₃ record record', Consumes .activate c c₁ record → OwnerRun tick anyStep c₁ c₂ →
    Consumes .activate c₂ c₃ record' → record'.rootId ≠ record.rootId

theorem root_lifecycle (h : OwnerReachable tick anyStep c) : RootLifecycle tick c where
  exclusive id hboth := by
    obtain ⟨record, hrecord⟩ := Option.ne_none_iff_exists'.mp hboth.2
    exact hboth.1 (h.rootsKept.exclusive id record hrecord)
  homeGrant id root hroot := by
    obtain ⟨grant, hgrant, hepoch⟩ := h.rootsKept.homeGranted id root hroot
    have hkey := StoreState.entityKey_of_get hgrant nofun
    simp only [entityKey, MetaKey.rootGrant.injEq] at hkey
    exact ⟨grant, hgrant, hkey.2.1, hkey.2.2, hepoch⟩
  ended c' id record hstep hbefore hafter := h.consumes hstep hbefore hafter
  endedOnce c₁ c₂ c₃ how how' record hfirst hrun hsecond := by
    have hended : Ended record c₁.state := by
      obtain ⟨input, hinput, hout⟩ := h.rootsKept.reserved _ record hfirst.before
      obtain ⟨recorded, hrecorded⟩ := Option.ne_none_iff_exists'.mp hout
      have hkept := (h.step_cases hfirst.step).outcome hrecorded
      refine ⟨⟨input, hinput, fun hnone => nomatch hnone.symm.trans hkept⟩, ?_⟩
      rw [hfirst.after]
      exact nofun
    exact (hended.run (h.step hfirst.step) hrun).2 hsecond.before
  created c' id hstep hbefore hafter := h.activates hstep hbefore hafter
  activatedOnce c₁ c₂ c₃ record record' hfirst hrun hsecond hid := by
    have hreach := h.step hfirst.step
    have hroot := hreach.root_run hrun (hfirst.root.mpr rfl)
    -- a second activation would find the id reserved and active
    rw [← hid, (hreach.run hrun).rootsKept.exclusive _ _ hsecond.before] at hroot
    exact hroot rfl

theorem root_lifecycle_of_active :
    (playAll Scene.active).state.store.get (.root "root") ≠ none ∧
      RootLifecycle (fun _ _ => False) (playAll Scene.active) :=
  ⟨by decide +kernel,
    root_lifecycle ⟨0, run_any (by simp [Scene.active, Scene.serve, Scene.register]) _⟩⟩

end Afs.OwnerRoots
