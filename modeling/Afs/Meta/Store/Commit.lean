import Afs.Meta.Store.State

/-!
# `Meta.Store.Commit` — applying transactions and node registrations

`compareAndCommit` is the one way the file-system services change the authority state, and
`registerNodeSession` the one way nodes do. Both work on `StoreState`, so their definitions carry the proof that
the stored entities stay under their own keys and that no revision runs ahead of the state.

The effect of a transaction on the entities is stated once, by `get_applyMutations` in `Effect`: the value under a
key is what the last mutation that touches the key wrote, and the old value if none does.
-/

namespace Afs

namespace MemoryState

/-- Writes an entity under a key and logs the change. -/
def putAt (state : MemoryState) (eventIndex : UInt32) (key : MetaKey) (entity : MetaEntity) : MemoryState :=
  { state with
    entities := state.entities.insert key ⟨state.revision, entity⟩
    events := state.events ++ [⟨state.revision, eventIndex, key, .put entity⟩] }

def deleteAt (state : MemoryState) (eventIndex : UInt32) (key : MetaKey) : MemoryState :=
  { state with
    entities := state.entities.erase key
    events := state.events ++ [⟨state.revision, eventIndex, key, .delete⟩] }

def recordOutcome (state : MemoryState) (outcome : RequestOutcome) : MemoryState :=
  { state with requests := state.requests.insert outcome.request outcome }

/-- Applies one mutation at the state's revision; the counter is the next event's index. -/
def applyMutation : MemoryState × UInt32 → TxnMutation → MemoryState × UInt32
  | (state, eventIndex), .put entity => (state.putAt eventIndex (entityKey entity) entity, eventIndex + 1)
  | (state, eventIndex), .delete key => (state.deleteAt eventIndex key, eventIndex + 1)
  | (state, eventIndex), .recordRequestOutcome outcome => (state.recordOutcome outcome, eventIndex)

/-- The state after all mutations of a transaction, at the next revision. -/
def applyMutations (state : MemoryState) (mutations : List TxnMutation) : MemoryState :=
  (mutations.foldl applyMutation ({ state with revision := state.revision.next }, 0)).1

end MemoryState

/-! ## The store keeps its well-formedness -/

namespace MemoryState.WellFormed

variable {state : MemoryState}

theorem next_revision_le (state : MemoryState) : state.revision ≤ StoreRevision.next state.revision := by
  rw [UInt64.le_iff_toNat_le]
  have := state.revision.toNat_lt
  simp [StoreRevision.next]
  omega

theorem advance (h : state.WellFormed) : { state with revision := state.revision.next }.WellFormed where
  keyed := h.keyed
  revisions key versioned hv := UInt64.le_trans (h.revisions key versioned hv) (next_revision_le state)
  requestsKeyed := h.requestsKeyed
  eventRevisions event he := UInt64.le_trans (h.eventRevisions event he) (next_revision_le state)

theorem putAt (h : state.WellFormed) (eventIndex : UInt32) {key entity}
    (hkey : keyMatches key entity) : (state.putAt eventIndex key entity).WellFormed where
  keyed key' versioned hv := by
    by_cases hk : key' = key
    · subst hk
      simp only [MemoryState.putAt, AList.lookup_insert, Option.some.injEq] at hv
      rw [← hv]; exact hkey
    · rw [MemoryState.putAt, AList.lookup_insert_ne hk] at hv
      exact h.keyed key' versioned hv
  revisions key' versioned hv := by
    by_cases hk : key' = key
    · subst hk
      simp only [MemoryState.putAt, AList.lookup_insert, Option.some.injEq] at hv
      rw [← hv]; exact UInt64.le_refl _
    · rw [MemoryState.putAt, AList.lookup_insert_ne hk] at hv
      exact h.revisions key' versioned hv
  requestsKeyed := h.requestsKeyed
  eventRevisions event he := by
    rcases List.mem_append.mp he with he | he
    · exact h.eventRevisions event he
    · rw [List.mem_singleton.mp he]; exact UInt64.le_refl _

theorem deleteAt (h : state.WellFormed) (eventIndex : UInt32) (key : MetaKey) :
    (state.deleteAt eventIndex key).WellFormed := by
  have hold : ∀ key' versioned, (state.entities.erase key).lookup key' = some versioned →
      state.entities.lookup key' = some versioned := by
    intro key' versioned hv
    by_cases hk : key' = key
    · subst hk; rw [AList.lookup_erase] at hv; cases hv
    · rwa [AList.lookup_erase_ne hk] at hv
  refine ⟨fun key' v hv => h.keyed key' v (hold key' v hv), fun key' v hv => h.revisions key' v (hold key' v hv),
    h.requestsKeyed, ?_⟩
  intro event he
  rcases List.mem_append.mp he with he | he
  · exact h.eventRevisions event he
  · rw [List.mem_singleton.mp he]; exact UInt64.le_refl _

theorem recordOutcome (h : state.WellFormed) (outcome : RequestOutcome) :
    (state.recordOutcome outcome).WellFormed where
  keyed := h.keyed
  revisions := h.revisions
  requestsKeyed key found hf := by
    by_cases hk : key = outcome.request
    · subst hk
      simp only [MemoryState.recordOutcome, AList.lookup_insert, Option.some.injEq] at hf
      rw [← hf]
    · rw [MemoryState.recordOutcome, AList.lookup_insert_ne hk] at hf
      exact h.requestsKeyed key found hf
  eventRevisions := h.eventRevisions

theorem keyMatches_entityKey (entity : MetaEntity) : keyMatches (entityKey entity) entity := by
  simp [keyMatches]

theorem applyMutation {eventIndex} (h : state.WellFormed) (mutation : TxnMutation) :
    (MemoryState.applyMutation (state, eventIndex) mutation).1.WellFormed := by
  cases mutation with
  | put entity => exact h.putAt eventIndex (keyMatches_entityKey entity)
  | delete key => exact h.deleteAt eventIndex key
  | recordRequestOutcome outcome => exact h.recordOutcome outcome

theorem applyMutations (h : state.WellFormed) (mutations : List TxnMutation) :
    (state.applyMutations mutations).WellFormed := by
  suffices hfold : ∀ start : MemoryState × UInt32, start.1.WellFormed →
      (mutations.foldl MemoryState.applyMutation start).1.WellFormed from hfold _ h.advance
  induction mutations with
  | nil => exact fun _ hs => hs
  | cons mutation rest ih => exact fun start hs => ih _ (hs.applyMutation mutation)

end MemoryState.WellFormed

/-! ## Transactions -/

namespace StoreState

def applyMutations (state : StoreState) (mutations : List TxnMutation) : StoreState :=
  ⟨state.toMemoryState.applyMutations mutations, state.wf.applyMutations mutations⟩

/-- `MetaStore::compare_and_commit`: the reply and the state it leaves. A transaction whose request already has
    an outcome is answered with that outcome and changes nothing; otherwise all conditions are evaluated on the
    same state the mutations are then applied to. -/
def compareAndCommit (state : StoreState) (now : UInt64) (txn : MetaTxn) : Result TxnOutcome × StoreState :=
  match txn.validate with
  | .error e => (.error e, state)
  | .ok () =>
    match state.outcome txn.request with
    | some existing => (.ok (.conditionFailed state.revision (some existing)), state)
    | none =>
      if txn.conditions.all (state.conditionMatches now) then
        match txn.recordedOutcome with
        | none => (.error (invalidContract "missing request outcome"), state)
        | some outcome =>
          (.ok (.committed (StoreRevision.next state.revision) outcome), state.applyMutations txn.mutations)
      else (.ok (.conditionFailed state.revision none), state)

/-! ## Node sessions -/

/-- The epoch of a registration: kept by a renewal of the live current session, otherwise the node's next. -/
def registrationEpoch (state : StoreState) (now : UInt64) (lease : NodeSessionLease) :
    UInt64 × AList (fun _ : String => UInt64) :=
  let next := ((state.nodeEpochs.lookup lease.nodeId).getD 0).saturatingAdd 1
  match state.get (.currentNodeSession lease.nodeId) with
  | some (.nodeSession session) =>
    if session.sessionId = lease.sessionId ∧ session.isLiveAtUnixMs now then
      (session.leaseEpoch, state.nodeEpochs)
    else (next, state.nodeEpochs.insert lease.nodeId next)
  | _ => (next, state.nodeEpochs.insert lease.nodeId next)

/-- The session a registration writes. -/
def registeredSession (now : UInt64) (lease : NodeSessionLease) (epoch : UInt64) : NodeSession where
  nodeId := lease.nodeId
  sessionId := lease.sessionId
  grpcAddr := lease.grpcAddr
  dataAddr := lease.dataAddr
  restAddr := lease.restAddr
  storageDevices := lease.storageDevices
  leaseEpoch := epoch
  expiresAtUnixMs := now.saturatingAdd (UInt64.ofNat (min lease.leaseTtlMs (UInt64.size - 1)))

/-- The state after a registration: the session is put under its own key and as the current one of its node.
    The event index is the length of the event log, as a `u32`. -/
def applyRegistration (state : StoreState) (session : NodeSession)
    (nodeEpochs : AList (fun _ : String => UInt64)) (outcome : RequestOutcome) : StoreState :=
  let advanced : MemoryState := { state.toMemoryState with revision := state.revision.next, nodeEpochs }
  have hadvanced : advanced.WellFormed :=
    ⟨state.wf.advance.keyed, state.wf.advance.revisions, state.wf.requestsKeyed, state.wf.advance.eventRevisions⟩
  let own := advanced.putAt (UInt32.ofNat advanced.events.length) (.nodeSession session.nodeId session.sessionId)
    (.nodeSession session)
  have hown : own.WellFormed := hadvanced.putAt _ (by simp [keyMatches, entityKey])
  let current := own.putAt (UInt32.ofNat own.events.length) (.currentNodeSession session.nodeId)
    (.nodeSession session)
  have hcurrent : current.WellFormed := hown.putAt _ (by simp [keyMatches, entityKey])
  ⟨current.recordOutcome outcome, hcurrent.recordOutcome outcome⟩

/-- The session to be renewed is recorded and has expired. -/
def renewsExpired (state : StoreState) (now : UInt64) (lease : NodeSessionLease) : Bool :=
  match state.get (.nodeSession lease.nodeId lease.sessionId) with
  | some (.nodeSession session) => !session.isLiveAtUnixMs now
  | _ => false

/-- `MetaStore::register_node_session`. -/
def registerNodeSession (state : StoreState) (now : UInt64) (request : RequestKey) (lease : NodeSessionLease) :
    Result TxnOutcome × StoreState :=
  if lease.nodeId.isEmpty || lease.sessionId.isEmpty || lease.leaseTtlMs = 0 then
    (.error (invalidContract "node_id, session_id and positive lease_ttl are required"), state)
  else
    match state.outcome request with
    | some existing => (.ok (.conditionFailed state.revision (some existing)), state)
    | none =>
      if !request.isValid then
        (.error (invalidContract "request key must include caller_id and request_id"), state)
      else if state.renewsExpired now lease then
        (.error (invalidContract "expired node session cannot be renewed; start a new session_id"), state)
      else
        let (epoch, nodeEpochs) := state.registrationEpoch now lease
        let session := registeredSession now lease epoch
        let outcome : RequestOutcome := ⟨request, .registerNode, .nodeSession session⟩
        (.ok (.committed (StoreRevision.next state.revision) outcome),
          state.applyRegistration session nodeEpochs outcome)

end StoreState

end Afs
