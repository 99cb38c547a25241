import Afs.Meta.Dfs.RepairTasks

/-!
# `Meta.Dfs.RepairReports` — what repair workers and nodes report

`report_replication_task` and `report_chunk_corruption` of `meta/dfs.rs`. A finished repair merges its copies into
the placement; a copy that failed verification is marked corrupt and stays listed.
-/

namespace Afs

open Interaction
open Prog (lift check)

/-! ## Repair reports -/

/-- The acknowledgement is about the claimed chunk. -/
def ackProvesClaim (claim : ReplicationClaim) (ack : ReplicaAck) : Bool :=
  ack.operationId = claim.operationId && ack.chunkId = claim.chunk.id
    && ack.placementRevision = claim.placementRevision
    && ack.placementEpoch = claim.replicaGroup.placementEpoch
    && ack.persistedBytes = claim.chunk.length && ack.verifiedDigest = claim.chunk.contentDigest

/-- What the acknowledgements of a repair add up to, with the sessions they depend on. -/
structure RepairTally where
  (nodes domains : List String)
  copies : List CopyRecord
  conditions : List TxnCondition

def tallyRepairAcks (claim : ReplicationClaim) (now : UInt64) :
    List ReplicaAck → RepairTally → DfsProg RepairTally
  | [], tally => return tally
  | ack :: acks, tally => do
    check (ackProvesClaim claim ack) (invalid "repair ReplicaAck does not prove the claim chunk")
    check (ack.nodeId ∉ tally.nodes) (invalid "repair report contains duplicate Node ACKs")
    let target ← Prog.require (assignedTarget claim.replicaGroup ack)
      (conflict "repair ACK target is not in the claim group")
    let session ← currentSession ack.nodeId ack.nodeEpoch none now
    let device ← Prog.require (session.storageDevices.find? fun device =>
      device.deviceId = ack.deviceId && device.deviceEpoch = ack.deviceEpoch)
      (conflict "repair ACK references a stale storage device")
    check (ack.catalogRevision ≥ target.device.catalogRevision)
      (conflict "repair ACK catalog is below claim floor")
    tallyRepairAcks claim now acks
      { nodes := tally.nodes ++ [ack.nodeId]
        domains := tally.domains.insert device.failureDomain
        copies := tally.copies ++ [replicaAckCopyRecord ack claim.chunk]
        conditions := tally.conditions ++ [.nodeSessionCurrent session.nodeId session.sessionId] }

def validateRepairAcks (claim : ReplicationClaim) (durableAcks : List ReplicaAck) (now : UInt64) :
    DfsProg RepairTally := do
  check (durableAcks.length ≥ claim.replication.desiredCopies.toNat)
    (invalid "repair report has fewer ACKs than desired replicas")
  let tally ← tallyRepairAcks claim now durableAcks ⟨[], [], [], []⟩
  check (tally.nodes.length ≥ claim.replication.minDistinctNodes.toNat
      && tally.domains.length ≥ claim.replication.minDistinctFailureDomains.toNat
      && tally.nodes.contains claim.workerNodeId)
    (invalid "repair ACKs do not satisfy placement constraints")
  return tally

/-- The copies of a placement with the accepted ones added, each once. -/
def mergeCopies (copies : List CopyId) (accepted : List CopyRecord) : List CopyId :=
  accepted.foldl (fun ids copy => if copy.id ∈ ids then ids else ids ++ [copy.id]) copies

/-- What a report decides: conditions and mutations beyond the common ones, and the task afterwards. -/
structure ReportDecision where
  conditions : List TxnCondition
  mutations : List TxnMutation
  updated : ReplicationTask

/-- The source copy failed verification on the worker that holds it. -/
def decideSourceInvalid (request : ReportReplicationTask) (callerSession : NodeSession) (task : ReplicationTask)
    (placement : PlacementRecord) (sourceCopy : CopyRecord) (now : UInt64) : DfsProg ReportDecision := do
  check (copyIsOnNode sourceCopy request.callerId && copyMatchesChunk sourceCopy request.claim.chunk
      && (servingReadCopy sourceCopy callerSession now).isSome)
    (permissionDenied "source_invalid can only mark the worker's bound source copy")
  let remaining ← liveReadyCopyCountExcluding placement now (some sourceCopy.id)
  return {
    conditions := []
    mutations :=
      [.put (.dfsCopy { sourceCopy with state := .corrupt }),
        .put (.dfsPlacement
          { placement with health := if remaining = 0 then .blockedNoSource else .underReplicated })]
    updated :=
      { task with
        state := if remaining = 0 then .blockedNoSource else .retryWaiting
        claim := none
        lastError := some "source copy failed local verification"
        nextRetryUnixMs := now.saturatingAdd (retryBackoffMs task.attempt) } }

/-- The repair failed and is retried later. -/
def decideRetry (task : ReplicationTask) (error : String) (now : UInt64) : ReportDecision where
  conditions := []
  mutations := []
  updated :=
    { task with
      state := .retryWaiting
      claim := none
      lastError := some error
      nextRetryUnixMs := now.saturatingAdd (retryBackoffMs task.attempt) }

/-- The repair is complete: its copies join the placement. -/
def decideCompleted (request : ReportReplicationTask) (task : ReplicationTask) (placement : PlacementRecord)
    (now : UInt64) : DfsProg ReportDecision := do
  let tally ← validateRepairAcks request.claim request.durableAcks now
  let copyIds := mergeCopies placement.copies tally.copies
  check (copyIds.length ≥ request.claim.replication.desiredCopies.toNat)
    (invalid "replication report does not include the full repaired target set")
  return {
    conditions := tally.conditions
    mutations := tally.copies.map (fun copy => .put (.dfsCopy copy)) ++
      [.put (.dfsPlacement
        { chunkId := placement.chunkId
          replicaGroupId := request.claim.replicaGroup.id
          placementEpoch := request.claim.replicaGroup.placementEpoch
          desiredCopies := request.claim.replication.desiredCopies
          copies := copyIds
          health := .satisfied })]
    updated :=
      { task with
        state := .completed
        placementEpoch := request.claim.replicaGroup.placementEpoch
        desiredCopies := request.claim.replication.desiredCopies
        existingCopies := copyIds
        claim := none
        lastError := none
        nextRetryUnixMs := 0 } }

def decideReport (request : ReportReplicationTask) (callerSession : NodeSession) (task : ReplicationTask)
    (placement : PlacementRecord) (sourceCopy : CopyRecord) (now : UInt64) : DfsProg ReportDecision :=
  if request.sourceInvalid then decideSourceInvalid request callerSession task placement sourceCopy now
  else
    match request.error with
    | some error => return decideRetry task error now
    | none => decideCompleted request task placement now

def reportTxn (request : ReportReplicationTask) (requestDigest : Digest) (task : ReplicationTask)
    (placement : PlacementRecord) (chunk : ChunkObject) (sourceCopy : CopyRecord)
    (replication : ReplicationConfig) (decision : ReportDecision) : MetaTxn :=
  let key : RequestKey := ⟨request.callerId, request.operationId.value⟩
  { request := key
    operation := .dfsReportReplicationTask
    conditions :=
      [.requestAbsent key, .entityEquals (.dfsReplicationTask task), .entityEquals (.dfsPlacement placement),
        .entityEquals (.dfsChunk chunk), .entityEquals (.dfsCopy sourceCopy),
        .entityEquals (.dfsReplicationConfig replication),
        .nodeSessionCurrent request.callerId request.callerSessionId] ++ decision.conditions
    mutations := decision.mutations ++
      [.put (.dfsReplicationTask decision.updated),
        .recordRequestOutcome ⟨key, .dfsReportReplicationTask,
          namespaceResult requestDigest (.dfsReplicationTask decision.updated)⟩] }

def repairSuperseded : Error :=
  ⟨.metaDfsRepairSuperseded, "replication report does not match the current claim"⟩

def reportReplicationTask (service : DfsService) (request : ReportReplicationTask) : DfsProg ReplicationTask := do
  let requestDigest ← lift (service.codec.namespaceRequestDigest (.reportReplicationTask request))
  lift (requireId request.callerId "caller_id")
  lift (requireId request.callerSessionId "caller_session_id")
  lift (requireId request.operationId.value "operation_id")
  check (request.callerNodeEpoch ≠ 0) (invalid "caller_node_epoch is required")
  replayOr (replayedReplicationTask request.callerId request.operationId .dfsReportReplicationTask requestDigest)
    do
      let now ← nowUnixMs
      let callerSession ← currentSession request.callerId request.callerNodeEpoch (some request.callerSessionId) now
      let task ← readReplicationTask request.claim.taskId
      check (task.state = .running && task.claim = some request.claim) repairSuperseded
      check (request.claim.workerNodeId = request.callerId
          && request.claim.workerNodeEpoch = request.callerNodeEpoch
          && request.claim.workerSessionId = request.callerSessionId)
        (permissionDenied "replication report caller does not own the claim")
      let placement ← readPlacement request.claim.chunk.id
      let chunk ← readChunk request.claim.chunk.id
      check (chunk = request.claim.chunk) (conflict "replication report references a changed chunk")
      let sourceCopy ← readCopy request.claim.sourceCopyId
      let replication ← currentReplicationConfig service
      let decision ← decideReport request callerSession task placement sourceCopy now
      let reply ← storeCommit (reportTxn request requestDigest task placement chunk sourceCopy replication decision)
      lift (replicationTaskOutcome reply .dfsReportReplicationTask requestDigest)

/-! ## Corruption reports -/

section

variable (request : ReportChunkCorruption) (chunk : ChunkObject) (copy : CopyRecord)

/-- The copy of the caller's reported device: its catalog revision, if the copy is one. -/
def reportedDeviceCopy : Option UInt64 :=
  match copy.location with
  | .node nodeId _ deviceId deviceEpoch catalogRevision =>
    if copyMatchesChunk copy chunk && copy.role = .durableReplica && nodeId = request.callerId
        && deviceId = request.deviceId && deviceEpoch = request.deviceEpoch then some catalogRevision
    else none
  | .external _ _ _ => none

/-- A ready copy of the reported device below the reported catalog revision. -/
def isReportedCorrupt : Bool :=
  (reportedDeviceCopy request chunk copy).any fun catalogRevision =>
    copy.state = .ready && catalogRevision < request.catalogRevision

/-- A copy of the reported device that a newer acknowledgement or an earlier report has settled. -/
def isSuperseding : Bool :=
  (reportedDeviceCopy request chunk copy).any fun catalogRevision =>
    catalogRevision ≥ request.catalogRevision || copy.state = .corrupt

end

def readCopies : List CopyId → DfsProg (List CopyRecord)
  | [] => return []
  | copyId :: copyIds => do return (← readCopy copyId) :: (← readCopies copyIds)

/-- The conditions of a corruption report: everything it looked at is unchanged. -/
def corruptionConditions (request : ReportChunkCorruption) (callerSession : NodeSession) (chunk : ChunkObject)
    (placement : PlacementRecord) (replication : ReplicationConfig) (observedTask : Option ReplicationTask)
    (copies : List CopyRecord) : List TxnCondition :=
  [.entityEquals (.nodeSession callerSession), .nodeSessionCurrent request.callerId request.callerSessionId,
    .entityEquals (.dfsChunk chunk), .entityEquals (.dfsPlacement placement),
    .entityEquals (.dfsReplicationConfig replication),
    match observedTask with
    | some task => .entityEquals (.dfsReplicationTask task)
    | none => .missing (.dfsReplicationTask (repairTaskId request.chunkId))] ++
    copies.map fun copy => .entityEquals (.dfsCopy copy)

/-- `record_empty_namespace_outcome`: only the outcome is recorded. -/
def emptyNamespaceTxn (request : RequestKey) (operation : StoreOperation) (requestDigest : Digest)
    (conditions : List TxnCondition) : MetaTxn where
  request := request
  operation := operation
  conditions := .requestAbsent request :: conditions
  mutations := [.recordRequestOutcome ⟨request, operation, namespaceResult requestDigest .empty⟩]

def corruptionTxn (request : RequestKey) (requestDigest : Digest) (conditions : List TxnCondition)
    (changed : List CopyRecord) (placement : PlacementRecord) (task : ReplicationTask) : MetaTxn where
  request := request
  operation := .dfsReportChunkCorruption
  conditions := .requestAbsent request :: conditions
  mutations := changed.map (fun copy => .put (.dfsCopy copy)) ++
    [.put (.dfsPlacement placement), .put (.dfsReplicationTask task),
      .recordRequestOutcome ⟨request, .dfsReportChunkCorruption, namespaceResult requestDigest .empty⟩]

/-- The repair task a corruption report leaves. -/
def corruptionTask (request : ReportChunkCorruption) (placement : PlacementRecord)
    (observedTask : Option ReplicationTask) (blocked : Bool) (now : UInt64) : ReplicationTask where
  id := repairTaskId request.chunkId
  chunkId := request.chunkId
  placementEpoch := placement.placementEpoch
  desiredCopies := placement.desiredCopies
  existingCopies := placement.copies
  state := if blocked then .blockedNoSource else .pending
  attempt := (observedTask.map (·.attempt)).getD 0
  nextRetryUnixMs := if blocked then now.saturatingAdd 5000 else now
  lastError := some ("corruption reported by " ++ request.callerId ++ " on device " ++ request.deviceId
    ++ " at catalog revision " ++ toString request.catalogRevision.toNat)
  claim := none

/-- The repair task that is stored for a chunk, if one is. -/
def observedRepairTask (chunkId : ChunkId) : DfsProg (Option ReplicationTask) := do
  match (← storeRead (.dfsReplicationTask (repairTaskId chunkId))).entity with
  | some (.dfsReplicationTask task) => return some task
  | none => return none
  | some _ => throw (invalid "DFS repair task record has wrong type")

def reportChunkCorruption (service : DfsService) (request : ReportChunkCorruption) : DfsProg Unit := do
  let requestDigest ← lift (service.codec.namespaceRequestDigest (.reportChunkCorruption request))
  lift (requireId request.callerId "caller_id")
  lift (requireId request.callerSessionId "caller_session_id")
  lift (requireId request.operationId.value "operation_id")
  lift (requireId request.chunkId.value "chunk_id")
  lift (requireId request.deviceId "device_id")
  check (request.callerNodeEpoch ≠ 0) (invalid "caller_node_epoch is required")
  check (request.deviceEpoch ≠ 0) (invalid "device_epoch is required")
  check (request.catalogRevision ≠ 0) (invalid "catalog_revision is required")
  match ← replayedNamespaceResult request.callerId request.operationId .dfsReportChunkCorruption requestDigest with
  | some _ => return ()
  | none =>
    let now ← nowUnixMs
    let callerSession ← currentSession request.callerId request.callerNodeEpoch (some request.callerSessionId) now
    check (callerSession.storageDevices.any fun device =>
        device.deviceId = request.deviceId && device.deviceEpoch = request.deviceEpoch)
      (permissionDenied "corruption report device is not owned by the live caller session")
    let chunk ← readChunk request.chunkId
    let placement ← readPlacement request.chunkId
    let replication ← currentReplicationConfig service
    let observedTask ← observedRepairTask request.chunkId
    let copies ← readCopies placement.copies
    check (copies.any fun copy => (reportedDeviceCopy request chunk copy).isSome)
      (permissionDenied "corruption report found no caller-owned durable copy on the reported device")
    let reported := copies.filter (isReportedCorrupt request chunk)
    let liveNodes ← liveObservedNodes now (reported.map (·.id)) copies []
    let blocked : Bool := liveNodes.isEmpty
    let key : RequestKey := ⟨request.callerId, request.operationId.value⟩
    let conditions := corruptionConditions request callerSession chunk placement replication observedTask copies
    if reported.isEmpty then
      check (copies.any (isSuperseding request chunk)) (invalid
        "corruption report found no Ready same-device copy below the reported catalog revision")
      let reply ← storeCommit (emptyNamespaceTxn key .dfsReportChunkCorruption requestDigest conditions)
      lift (emptyNamespaceOutcome reply .dfsReportChunkCorruption requestDigest)
    else
      let reply ← storeCommit (corruptionTxn key requestDigest conditions
        (reported.map fun copy => { copy with state := .corrupt })
        { placement with health := if blocked then .blockedNoSource else .underReplicated }
        (corruptionTask request placement observedTask blocked now))
      lift (emptyNamespaceOutcome reply .dfsReportChunkCorruption requestDigest)

end Afs
