import Afs.Meta.Dfs.Guarantee

/-!
# `Meta.Dfs.RepairIssued` — the transactions that write repair records, in full

`Issued` leaves open which repair task a claim was made for and what a report decides. `RepairIssued rely s r txn` says
it: a claim is made for a task that was listed, or for a placement that was listed without one, and the state of the
listing is related to the state of the commit by `rely` and by nothing else; a report is about the running claim of its
task; a corruption report keeps what it observed. With a `rely` that says nothing this holds in every run; a `rely` that
says more is what a claim may count on while nobody disturbs it.
-/

namespace Afs

open Interaction Relation

/-! ## Listings -/

namespace StoreState

variable {s : StoreState} {now : UInt64}

/-- What a listing shows is stored. -/
theorem exists_get_of_mem_entities {q entity} (h : entity ∈ (s.read now q).entities) :
    ∃ key, s.get key = some entity := by
  simp only [MemoryState.read] at h
  split at h
  · simp only [MemoryState.listing, List.map_map, List.mem_map, List.mem_insertionSort, Function.comp_apply] at h
    obtain ⟨item, hitem, rfl⟩ := h
    obtain ⟨⟨key, versioned⟩, hentry, hmatch⟩ := List.mem_filterMap.mp hitem
    have hget : s.get key = some versioned.entity := by
      rw [MemoryState.get, AList.mem_lookup_iff.mpr hentry]
      rfl
    have hitem : item.2.2 = versioned := by
      split at hmatch
      · split at hmatch <;> cases hmatch
        rfl
      all_goals cases hmatch
      all_goals rfl
    exact ⟨key, by rw [hget, hitem]⟩
  · cases h

/-- An entity that is no session is stored under its own key only. -/
theorem get_entityKey {key entity} (h : s.get key = some entity)
    (hentity : ∀ session, entity ≠ .nodeSession session) : s.get (entityKey entity) = some entity := by
  have hown : ∀ nodeId, entityKey entity ≠ .currentNodeSession nodeId := by
    cases entity <;> simp [entityKey]
  rw [entityKey_of_get h, h]
  rintro nodeId rfl
  have hmatch := keyMatches_of_get h
  unfold keyMatches at hmatch
  split at hmatch
  · exact hentity _ rfl
  · simp [hown nodeId] at hmatch

/-- The listed tasks are those that are stored. -/
theorem mem_tasks {task} :
    .dfsReplicationTask task ∈ (s.read now .dfsReplicationTasks).entities ↔
      s.get (.dfsReplicationTask task.id) = some (.dfsReplicationTask task) := by
  constructor
  · intro h
    obtain ⟨key, hget⟩ := exists_get_of_mem_entities h
    exact get_entityKey hget nofun
  · intro hget
    obtain ⟨versioned, hlookup, he⟩ := Option.map_eq_some_iff.mp hget
    simp only [MemoryState.read, MemoryState.isListing, if_true, MemoryState.listing, List.map_map, List.mem_map,
      List.mem_insertionSort, Function.comp_apply]
    refine ⟨([task.id.value], [], versioned),
      List.mem_filterMap.mpr ⟨⟨.dfsReplicationTask task.id, versioned⟩, ?_, ?_⟩, he⟩
    · exact AList.mem_lookup_iff.mp hlookup
    · simp [he]

end StoreState

/-! ## The transactions -/

/-- Every acknowledgement of the receipt is about its chunk, and no node acknowledges twice. -/
structure ReceiptChecked (receipt : ChunkReceipt) : Prop where
  proves : ∀ ack ∈ receipt.durableAcks, ackProves receipt ack = true
  nodes : (receipt.durableAcks.map (·.nodeId)).Nodup

/-- The report says that the repair is finished. -/
def ReportReplicationTask.finished (request : ReportReplicationTask) : Bool :=
  !request.sourceInvalid && request.error.isNone

/-- So it is with the acknowledgements of a finished repair, of which there are enough. -/
structure RepairAcksChecked (request : ReportReplicationTask) : Prop where
  finished : request.finished = true
  enough : request.claim.replication.desiredCopies.toNat ≤ request.durableAcks.length
  proves : ∀ ack ∈ request.durableAcks, ackProvesClaim request.claim ack = true
  nodes : (request.durableAcks.map (·.nodeId)).Nodup

/-- What a claim is made for, from the placements of `s₁` and the tasks of `s₂`: an open task, or a new one for a
    placement, which counts its attempts on from the task of the same name. -/
inductive Candidate (s₁ s₂ : System) : ReplicationTask → Prop
  | listed {task} (hget : s₂.store.get (.dfsReplicationTask task.id) = some (.dfsReplicationTask task))
      (hopen : task.state ≠ .completed) : Candidate s₁ s₂ task
  | added {task placement} (hget : s₁.store.get (.dfsPlacement task.chunkId) = some (.dfsPlacement placement))
      (hid : task.id = repairTaskId task.chunkId) (hepoch : task.placementEpoch = placement.placementEpoch)
      (hstate : task.state = .pending) (hclaim : task.claim = none)
      (hattempt : ∀ stored, s₂.store.get (.dfsReplicationTask task.id) = some (.dfsReplicationTask stored) →
        task.attempt = stored.attempt) : Candidate s₁ s₂ task

/-- A candidate whose listing is related to the present state by `rely`. -/
def ListedCandidate (rely : Rely) (s : System) (task : ReplicationTask) : Prop :=
  ∃ s₁ s₂, rely s₁ s₂ ∧ rely s₂ s ∧ Candidate s₁ s₂ task

/-- The stored task is the candidate, a completed one that it takes up again, or there is none. -/
inductive TaskCondition (task : ReplicationTask) : TxnCondition → Prop
  | same : TaskCondition task (.entityEquals (.dfsReplicationTask task))
  | completed {current : ReplicationTask} (hid : current.id = task.id) (hchunk : current.chunkId = task.chunkId)
      (hstate : current.state = .completed) (hpending : task.state = .pending) :
      TaskCondition task (.entityEquals (.dfsReplicationTask current))
  | missing : TaskCondition task (.missing (.dfsReplicationTask task.id))

/-- What a claim selects: the next attempt of the task, in a placement of the task's epoch. -/
structure Selected (request : ClaimReplicationTask) (task : ReplicationTask) (selection : ClaimSelection) : Prop where
  taskId : selection.claim.taskId = task.id
  operationId : selection.claim.operationId = request.operationId
  workerNodeId : selection.claim.workerNodeId = request.callerId
  fence : selection.claim.fence = (task.attempt.saturatingAdd 1).toUInt64
  chunk : selection.claim.chunk.id = task.chunkId
  updated : selection.updated =
    { task with
      state := .running
      attempt := task.attempt.saturatingAdd 1
      claim := some selection.claim
      lastError := none
      nextRetryUnixMs := selection.claim.expiresAtUnixMs }
  condition : ∃ condition ∈ selection.conditions, TaskCondition task condition
  placement : ∃ placement, .entityEquals (.dfsPlacement placement) ∈ selection.conditions ∧
    placement.chunkId = task.chunkId ∧ placement.placementEpoch = task.placementEpoch

/-- The copies a finished repair reports. -/
def repairedCopies (request : ReportReplicationTask) : List CopyRecord :=
  request.durableAcks.map (replicaAckCopyRecord · request.claim.chunk)

/-- The placement that a finished repair leaves. -/
def repairedPlacement (request : ReportReplicationTask) (placement : PlacementRecord) : PlacementRecord where
  chunkId := placement.chunkId
  replicaGroupId := request.claim.replicaGroup.id
  placementEpoch := request.claim.replicaGroup.placementEpoch
  desiredCopies := request.claim.replication.desiredCopies
  copies := mergeCopies placement.copies (repairedCopies request)
  health := .satisfied

/-- The task that a finished repair leaves. -/
def repairedTask (request : ReportReplicationTask) (task : ReplicationTask) (placement : PlacementRecord) :
    ReplicationTask :=
  { task with
    state := .completed
    placementEpoch := request.claim.replicaGroup.placementEpoch
    desiredCopies := request.claim.replication.desiredCopies
    existingCopies := mergeCopies placement.copies (repairedCopies request)
    claim := none
    lastError := none
    nextRetryUnixMs := 0 }

/-- What a report decides. -/
inductive Decides (request : ReportReplicationTask) (task : ReplicationTask) (placement : PlacementRecord)
    (source : CopyRecord) : ReportDecision → Prop
  | sourceInvalid {health state error retry}
      (hsource : copyMatchesChunk source request.claim.chunk = true) (hhealth : health ≠ .satisfied)
      (hstate : state = .blockedNoSource ∨ state = .retryWaiting) :
      Decides request task placement source
        { conditions := []
          mutations :=
            [.put (.dfsCopy { source with state := .corrupt }), .put (.dfsPlacement { placement with health })]
          updated := { task with state, claim := none, lastError := error, nextRetryUnixMs := retry } }
  | retry (error : String) (now : UInt64) : Decides request task placement source (decideRetry task error now)
  | completed {conditions} (hacks : RepairAcksChecked request) :
      Decides request task placement source
        { conditions
          mutations := (repairedCopies request).map (fun copy => .put (.dfsCopy copy)) ++
            [.put (.dfsPlacement (repairedPlacement request placement))]
          updated := repairedTask request task placement }

/-- A report is about the running claim of the task. -/
structure ReportChecked (request : ReportReplicationTask) (task : ReplicationTask) (placement : PlacementRecord)
    (chunk : ChunkObject) : Prop where
  taskId : task.id = request.claim.taskId
  state : task.state = .running
  claim : task.claim = some request.claim
  chunk : chunk = request.claim.chunk
  placement : placement.chunkId = request.claim.chunk.id

/-- A corruption report has read the chunk, its placement with all the copies that it lists, and its repair task. -/
structure CorruptionRead (request : ReportChunkCorruption) (chunk : ChunkObject) (placement : PlacementRecord)
    (observed : Option ReplicationTask) (copies : List CopyRecord) : Prop where
  chunkId : chunk.id = request.chunkId
  placementId : placement.chunkId = request.chunkId
  taskId : ∀ task, observed = some task → task.id = repairTaskId request.chunkId
  listed : copies.map (·.id) = placement.copies

/-- **The transactions of a request that concern repair**, at the state the store receives them in. -/
inductive RepairIssued (rely : Rely) (s : System) : Request → MetaTxn → Prop
  | config (r : Request) (config : ReplicationConfig) : RepairIssued rely s r (replicationConfigTxn config)
  | commit {callerId commit txn} (hreceipts : ∀ receipt ∈ commit.chunkReceipts, ReceiptChecked receipt) :
      RepairIssued rely s (.commitFileVersion callerId commit) txn
  | blocked {request digest retired placement task condition now}
      (hlisted : ListedCandidate rely s task) (hplacement : placement.chunkId = task.chunkId)
      (hcondition : TaskCondition task condition) :
      RepairIssued rely s (.claimReplicationTask request)
        (blockedTxn request digest retired placement task condition now)
  | waiting {request digest retired placement task condition replication} (hlisted : ListedCandidate rely s task)
    (hplacement : placement.chunkId = task.chunkId)
      (hstate : task.state = .pending) (hcondition : TaskCondition task condition) :
      RepairIssued rely s (.claimReplicationTask request)
        (waitingTxn request digest retired placement task condition replication)
  | claimed {request digest retired replication task selection}
      (hlisted : ListedCandidate rely s task) (hselected : Selected request task selection) :
      RepairIssued rely s (.claimReplicationTask request)
        (claimTxn request digest retired selection.conditions replication selection.claim selection.updated)
  | report {request digest task placement chunk source replication decision}
    (hchecked : ReportChecked request task placement chunk)
      (hdecision : Decides request task placement source decision) :
      RepairIssued rely s (.reportReplicationTask request)
        (reportTxn request digest task placement chunk source replication decision)
  | corruption {request digest session chunk placement replication observed copies health blocked now}
    (hread : CorruptionRead request chunk placement observed copies)
      (hsome : (copies.filter (isReportedCorrupt request chunk)).isEmpty = false) (hhealth : health ≠ .satisfied) :
      RepairIssued rely s (.reportChunkCorruption request)
        (corruptionTxn (Request.reportChunkCorruption request).key digest
          (corruptionConditions request session chunk placement replication observed copies)
          ((copies.filter (isReportedCorrupt request chunk)).map fun copy => { copy with state := .corrupt })
          { placement with health } (corruptionTask request placement observed blocked now))
  | corruptionEmpty {request digest session chunk placement replication observed copies}
      (hread : CorruptionRead request chunk placement observed copies)
      (hnone : (copies.filter (isReportedCorrupt request chunk)).isEmpty = true) :
      RepairIssued rely s (.reportChunkCorruption request)
        (emptyNamespaceTxn (Request.reportChunkCorruption request).key .dfsReportChunkCorruption digest
          (corruptionConditions request session chunk placement replication observed copies))

/-- The requests that write repair records. -/
def Request.repairs : Request → Bool
  | .commitFileVersion _ _ | .claimReplicationTask _ | .reportReplicationTask _ | .reportChunkCorruption _ => true
  | _ => false

/-- What a request guarantees about its operations. -/
def repairGuarantee (rely : Rely) (r : Request) (s : System) :
    (op : StoreOp) → op.Reply → System → Prop
  | .commit txn, _, _ => r.repairs = true → RepairIssued rely s r txn
  | _, _, _ => True

/-- The program serves `r` and relies on `rely`. -/
abbrev Repairs {α : Type} (rely : Rely) (r : Request) (post : α → System → Prop) (p : DfsProg α)
    (s : System) : Prop :=
  Safe serve rely (repairGuarantee rely r) post p s

end Afs
