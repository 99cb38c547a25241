import Afs.Meta.Dfs.Writes

/-!
# `Meta.Dfs.Footprint` — how every step lets the system evolve

A transaction of the service records outcomes of its own request only and writes a file version or a layout only
under an id that is not taken. With the same facts about registrations and OwnerFs transactions, every step of a run
lets the system evolve as the requests rely on (`Evolves`); what the environment does leaves the file system aside.
-/

namespace Afs

open Interaction Relation MemoryState

variable {service : DfsService} {tick : Tick} {s s' : System} {r : Request} {txn : MetaTxn}

variable {store : StoreState} {request : RequestKey} {outcome : RequestOutcome} {now : UInt64}

/-! ## How the system evolves -/

/-- Recorded outcomes of other requests stay. -/
theorem outcome_applyMutations_of_ne {mutations}
    (h : ∀ outcome, .recordRequestOutcome outcome ∈ mutations → outcome.request ≠ request) :
    (store.applyMutations mutations).outcome request = store.outcome request := by
  rw [StoreState.outcome_applyMutations]
  generalize store.outcome request = old
  induction mutations generalizing old with
  | nil => rfl
  | cons mutation rest ih =>
    have hhead : mutation.outcomeEffect request old = old := by
      cases mutation with
      | put entity => rfl
      | delete key => rfl
      | recordRequestOutcome outcome => exact if_neg (h outcome (List.mem_cons_self ..))
    rw [List.foldl_cons, hhead]
    exact ih (fun outcome ho => h outcome (List.mem_cons_of_mem _ ho)) old

/-- What `compareAndCommit` leaves of the system. -/
def committed (s : System) (txn : MetaTxn) : System := ⟨s.store.applyMutations txn.mutations, s.clock⟩

/-- The transaction is applied now, with this outcome. -/
abbrev System.Applies (s : System) (txn : MetaTxn) (outcome : RequestOutcome) : Prop :=
  s.store.Applies s.clock txn outcome

/-- An applied transaction that records its own request only keeps all outcomes. -/
theorem outcome_of_applies {recorded} (happlies : store.Applies now txn outcome)
    (hrecords : ∀ o, .recordRequestOutcome o ∈ txn.mutations → o.request = txn.request)
    (h : store.outcome request = some recorded) :
    (store.applyMutations txn.mutations).outcome request = some recorded := by
  rw [outcome_applyMutations_of_ne, h]
  intro o ho he
  rw [← he, hrecords o ho, happlies.fresh] at h
  cases h

theorem Issued.evolves (h : Issued service tick s r txn) (happlies : s.Applies txn outcome) :
    Evolves tick s (committed s txn) where
  clock := .refl
  outcomes request recorded ho := by
    refine outcome_of_applies happlies (fun o hm => ?_) ho
    cases h.writes hm
    rfl
  versions id version hv := by
    show (s.store.applyMutations txn.mutations).get _ = _
    rw [← hv]
    refine get_applyMutations_of_untouched fun mutation hm htarget => ?_
    -- a version is only written under an id that was missing
    cases h.writes hm with
    | @version parts hcommit =>
      rw [TxnMutation.target, Option.some.injEq] at htarget
      have hnone := happlies.missing hcommit.versionMissing
      rw [show MetaKey.dfsFileVersion parts.commit.fileVersion.id = .dfsFileVersion id from htarget, hv] at hnone
      cases hnone
    | _ => cases htarget
  layouts id layout hl := by
    show (s.store.applyMutations txn.mutations).get _ = _
    rw [← hl]
    refine get_applyMutations_of_untouched fun mutation hm htarget => ?_
    cases h.writes hm with
    | @layout parts hcommit =>
      rw [TxnMutation.target, Option.some.injEq] at htarget
      have hnone := happlies.missing hcommit.layoutMissing
      rw [show MetaKey.dfsLayoutRoot parts.commit.layoutRoot.id = .dfsLayoutRoot id from htarget, hl] at hnone
      cases hnone
    | _ => cases htarget

/-- Apart from directory entries nothing is deleted: a record stays, or one of the mutations replaces it. -/
theorem Issued.stays (h : Issued service tick s r txn) {key} (hkey : ∀ dentry, key ≠ .dfsDentry dentry)
    {entity} (hget : s.store.get key = some entity) :
    ∃ entity', (committed s txn).store.get key = some entity' ∧
      (entity' = entity ∨ .put entity' ∈ txn.mutations ∧ entityKey entity' = key) := by
  have hsome : (committed s txn).store.get key ≠ none := by
    refine get_applyMutations_ne_none (fun hm => ?_) (by rw [hget]; exact nofun)
    cases h.writes hm
    exact absurd rfl (hkey _)
  obtain ⟨entity', hentity⟩ := Option.ne_none_iff_exists'.mp hsome
  refine ⟨entity', hentity, ?_⟩
  rcases get_applyMutations_eq_some hentity with hold | hput
  · rw [hget] at hold
    cases hold
    exact .inl rfl
  · exact .inr hput

/-! ## Steps of the environment -/

/-- The keys of OwnerFs records and node sessions, which the DFS service never writes. -/
def MetaKey.isForeign : MetaKey → Bool
  | .nodeSession _ _ | .currentNodeSession _ | .currentNodeSessions | .root _ | .rootReservation _
  | .rootGrant _ _ _ | .rootCommand _ | .rootCommandAck _ _ _ => true
  | _ => false

/-- **The environment leaves the file system alone**: only the clock, foreign records and new outcomes of foreign
    operations change. -/
structure Aside (s s' : System) : Prop where
  get : ∀ key : MetaKey, key.isForeign = false → s'.store.get key = s.store.get key
  outcome : ∀ request, s'.store.outcome request = s.store.outcome request ∨
    s.store.outcome request = none ∧ ∃ outcome, s'.store.outcome request = some outcome ∧
      (outcome.operation = .registerNode ∨ outcome.operation ∈ [.reserveRoot, .abortRoot, .activateRoot, .acquireRoot,
        .recoverRoot, .beginRootRevocation, .commitRootRevocation, .ackRootCommand])

/-- What a transaction that records its own request does to the outcomes. -/
theorem outcome_cases_of_applies (happlies : store.Applies now txn outcome)
    (hrecords : ∀ o, .recordRequestOutcome o ∈ txn.mutations → o.request = txn.request ∧ o.operation = txn.operation)
    (request : RequestKey) :
    (store.applyMutations txn.mutations).outcome request = store.outcome request ∨
      store.outcome request = none ∧ ∃ o, (store.applyMutations txn.mutations).outcome request = some o ∧
        o.operation = txn.operation := by
  by_cases hk : txn.request = request
  · subst hk
    have hcase : (store.applyMutations txn.mutations).outcome txn.request = store.outcome txn.request ∨
        ∃ outcome, .recordRequestOutcome outcome ∈ txn.mutations ∧
          (store.applyMutations txn.mutations).outcome txn.request = some outcome :=
      outcome_applyMutations_cases
    rcases hcase with hsame | ⟨outcome', hmem, hnew⟩
    · exact .inl hsame
    · exact .inr ⟨happlies.fresh, outcome', hnew, (hrecords outcome' hmem).2⟩
  · refine .inl (outcome_applyMutations_of_ne fun o ho => ?_)
    rw [(hrecords o ho).1]
    exact hk

/-- A registration writes sessions and nothing else, and records a registration. -/
theorem registerNodeSession_aside (store : StoreState) (now : UInt64) (request : RequestKey)
    (lease : NodeSessionLease) :
    (∀ key : MetaKey, (∀ node, .currentNodeSession node ≠ key) → (∀ node session, .nodeSession node session ≠ key) →
      (store.registerNodeSession now request lease).2.get key = store.get key) ∧
    ∀ request', (store.registerNodeSession now request lease).2.outcome request' = store.outcome request' ∨
      store.outcome request' = none ∧ ∃ o, (store.registerNodeSession now request lease).2.outcome request' = some o ∧
        o.operation = .registerNode := by
  have hcases := store.registerNodeSession_cases now request lease
  generalize (store.registerNodeSession now request lease).1 = reply at hcases
  generalize (store.registerNodeSession now request lease).2 = next at hcases ⊢
  cases hcases with
  | rejected | replayed => exact ⟨fun _ _ _ => rfl, fun _ => .inl rfl⟩
  | registered _ _ hfresh =>
    refine ⟨fun key hcurrent hkey => ?_, fun request' => ?_⟩
    · rw [StoreState.get_applyRegistration, if_neg (hcurrent _), if_neg (hkey _ _)]
    · rw [StoreState.outcome_applyRegistration]
      by_cases hk : request = request'
      · subst hk
        exact .inr ⟨hfresh, _, if_pos rfl, rfl⟩
      · exact .inl (if_neg hk)

theorem OwnerFsTxn.aside (h : OwnerFsTxn txn) (happlies : s.Applies txn outcome) : Aside s (committed s txn) where
  get key hkey := by
    refine get_applyMutations_of_untouched fun mutation hm htarget => ?_
    rcases h.targets mutation hm key htarget with ⟨_, rfl⟩ | ⟨_, rfl⟩ | ⟨_, _, _, rfl⟩ | ⟨_, rfl⟩ | ⟨_, _, _, rfl⟩ <;>
      cases hkey
  outcome request := by
    rcases outcome_cases_of_applies happlies h.records request with hsame | ⟨hfresh, outcome', hnew, hop⟩
    · exact .inl hsame
    · exact .inr ⟨hfresh, outcome', hnew, .inr (hop ▸ h.operation)⟩

theorem EnvStep.aside (h : EnvStep tick s s') : Aside s s' := by
  cases h with
  | tick clock h => exact ⟨fun _ _ => rfl, fun _ => .inl rfl⟩
  | register request lease =>
    obtain ⟨hget, hout⟩ := registerNodeSession_aside s.store s.clock request lease
    refine ⟨fun key hkey => hget key ?_ ?_, fun request' => ?_⟩
    · rintro node rfl
      cases hkey
    · rintro node session rfl
      cases hkey
    · rcases hout request' with hsame | ⟨hfresh, outcome, hnew, hop⟩
      · exact .inl hsame
      · exact .inr ⟨hfresh, outcome, hnew, .inl hop⟩
  | ownerFs txn htxn =>
    rcases s.store.compareAndCommit_eq s.clock txn with hsame | ⟨outcome, happlies, hnext⟩
    · rw [hsame]
      exact ⟨fun _ _ => rfl, fun _ => .inl rfl⟩
    · rw [hnext]
      exact htxn.aside happlies

theorem EnvStep.clock (h : EnvStep tick s s') : s'.clock = s.clock ∨ tick s.clock s'.clock := by
  cases h with
  | tick clock h => exact .inr h
  | register | ownerFs => exact .inl rfl

theorem EnvStep.evolves (h : EnvStep tick s s') : Evolves tick s s' where
  clock := by
    rcases h.clock with hc | hc
    · rw [hc]
    · exact .single hc
  outcomes request outcome ho := by
    rcases h.aside.outcome request with hsame | ⟨hnone, -⟩
    · rw [hsame, ho]
    · rw [hnone] at ho
      cases ho
  versions id version hv := by rw [h.aside.get _ rfl, hv]
  layouts id layout hl := by rw [h.aside.get _ rfl, hl]

end Afs
