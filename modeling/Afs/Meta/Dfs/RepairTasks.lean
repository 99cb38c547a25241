import Afs.Meta.Dfs.Repair

/-!
# `Meta.Dfs.RepairTasks` — claiming repair work

`claim_replication_task` of `meta/dfs.rs` walks the stored tasks and the placements that need one, and commits at the
first candidate it can decide: a claim, a task that is blocked for want of a live source, or a task that waits for
capacity. Each of the three transactions is conditional on the placement and the task that it was computed from.
-/

namespace Afs

open Interaction
open Prog (lift check)

/-! ## Candidates -/

def taskIsClaimable (task : ReplicationTask) (now : UInt64) : Bool :=
  match task.state with
  | .pending => true
  | .retryWaiting => task.nextRetryUnixMs ≤ now
  -- the caller checks the worker's liveness; time alone cannot decide this state
  | .running => true
  | .completed => false
  | .blockedNoSource => task.nextRetryUnixMs ≤ now

def taskReactivatesCompleted (task current : ReplicationTask) : Bool :=
  current.id = task.id && current.chunkId = task.chunkId && current.state = .completed && task.state = .pending

def retryBackoffMs (attempt : UInt32) : UInt64 :=
  (1000 : UInt64).saturatingMul (1 <<< (min attempt 6).toUInt64)

/-- A pending task for a placement, on top of a completed one of the same name if there is one. -/
def pendingTask (tasks : List ReplicationTask) (placement : PlacementRecord) (now : UInt64) : ReplicationTask :=
  { id := repairTaskId placement.chunkId
    chunkId := placement.chunkId
    placementEpoch := placement.placementEpoch
    desiredCopies := placement.desiredCopies
    existingCopies := placement.copies
    state := .pending
    attempt := ((tasks.find? fun task => task.id = repairTaskId placement.chunkId).map (·.attempt)).getD 0
    nextRetryUnixMs := now
    lastError := none
    claim := none }

/-- The placement has the copies it asks for and enough of them are served by live nodes. -/
def placementIsHealthy (placement : PlacementRecord) (now : UInt64) : DfsProg Bool := do
  if placement.desiredCopies ≤ UInt16.ofNat placement.copies.length && placement.health = .satisfied then
    return (← liveReadyCopyCount placement now) ≥ placement.desiredCopies.toNat
  else return false

/-- Adds a candidate for every placement that needs repair and has none. -/
def addPlacementCandidates (tasks : List ReplicationTask) (now : UInt64) :
    List PlacementRecord → List ReplicationTask → DfsProg (List ReplicationTask)
  | [], candidates => return candidates
  | placement :: placements, candidates => do
    if ← placementIsHealthy placement now then addPlacementCandidates tasks now placements candidates
    else if candidates.any fun task => task.chunkId = placement.chunkId then
      addPlacementCandidates tasks now placements candidates
    else addPlacementCandidates tasks now placements (candidates ++ [pendingTask tasks placement now])

def sortTasks (tasks : List ReplicationTask) : List ReplicationTask :=
  tasks.insertionSort fun left right => left.id.value ≤ right.id.value

/-! ## Claims -/

/-- Whether a task may be taken from its present worker: `none` while that very process is live, else the
    conditions that freeze the evidence of its retirement. -/
def retiredWorkerConditions (task : ReplicationTask) (now : UInt64) : DfsProg (Option (List TxnCondition)) := do
  match task.claim with
  | none => return some []
  | some claim =>
    if claim.expiresAtUnixMs > now then
      let snapshot ← storeRead (.currentNodeSession claim.workerNodeId)
      match snapshot.entity with
      | some (.nodeSession session) =>
        if session.sessionId = claim.workerSessionId && session.leaseEpoch = claim.workerNodeEpoch
            && session.isLiveAtUnixMs now then return none
        else
          return some [.revisionEquals (.currentNodeSession session.nodeId) snapshot.revision,
            .entityEquals (.nodeSession session)]
      | none => return some [.missing (.currentNodeSession claim.workerNodeId)]
      | some _ => throw (invalid "repair worker session record has wrong type")
    else return some []

/-- The stored task a candidate stands for, as a condition; `none` when the candidate is out of date. -/
def taskCondition (task : ReplicationTask) (accepts : ReplicationTask → Bool) :
    DfsProg (Option TxnCondition) := do
  match (← storeRead (.dfsReplicationTask task.id)).entity with
  | some (.dfsReplicationTask current) =>
    if accepts current then return some (.entityEquals (.dfsReplicationTask current)) else return none
  | none => return some (.missing (.dfsReplicationTask task.id))
  | some _ => return none

def claimOutcome (request : RequestKey) (requestDigest : Digest) (claim : Option ReplicationClaim) : RequestOutcome :=
  ⟨request, .dfsClaimReplicationTask, .dfsReplicationClaim requestDigest claim⟩

section

variable (request : ClaimReplicationTask) (requestDigest : Digest)

section

variable (retired : List TxnCondition) (placement : PlacementRecord) (task : ReplicationTask) (condition : TxnCondition)

/-- No live source: the task and the placement are marked blocked. -/
def blockedTxn (now : UInt64) : MetaTxn :=
  let key : RequestKey := ⟨request.callerId, request.operationId.value⟩
  { request := key
    operation := .dfsClaimReplicationTask
    conditions := retired ++
      [.requestAbsent key, .entityEquals (.dfsPlacement placement),
        .nodeSessionCurrent request.callerId request.callerSessionId, condition]
    mutations :=
      [.put (.dfsPlacement { placement with health := .blockedNoSource }),
        .put (.dfsReplicationTask
          { task with
            state := .blockedNoSource
            claim := none
            nextRetryUnixMs := now.saturatingAdd 5000
            lastError := some "no live source for replication repair" }),
        .recordRequestOutcome (claimOutcome key requestDigest none)] }

/-- Too little capacity: the repair debt is recorded without a claim. -/
def waitingTxn (replication : ReplicationConfig) : MetaTxn :=
  let key : RequestKey := ⟨request.callerId, request.operationId.value⟩
  { request := key
    operation := .dfsClaimReplicationTask
    conditions := retired ++
      [.requestAbsent key, condition, .entityEquals (.dfsPlacement placement),
        .entityEquals (.dfsReplicationConfig replication),
        .nodeSessionCurrent request.callerId request.callerSessionId]
    mutations :=
      [.put (.dfsPlacement { placement with health := .underReplicated }), .put (.dfsReplicationTask task),
        .recordRequestOutcome (claimOutcome key requestDigest none)] }

end

def claimTxn (retired conditions : List TxnCondition) (replication : ReplicationConfig) (claim : ReplicationClaim)
    (updated : ReplicationTask) : MetaTxn :=
  let key : RequestKey := ⟨request.callerId, request.operationId.value⟩
  { request := key
    operation := .dfsClaimReplicationTask
    conditions := [.requestAbsent key] ++ retired ++ conditions ++
      [.entityEquals (.dfsReplicationConfig replication),
        .nodeSessionCurrent request.callerId request.callerSessionId]
    mutations :=
      [.put (.dfsReplicationTask updated), .recordRequestOutcome (claimOutcome key requestDigest (some claim))] }

/-- The first copy of the placement that the caller serves. -/
def findSource (chunk : ChunkObject) (callerSession : NodeSession) (callerId : String) (now : UInt64) :
    List CopyId → DfsProg (Option CopyRecord)
  | [] => return none
  | copyId :: copyIds => do
    let copy ← readCopy copyId
    if copyMatchesChunk copy chunk && copy.location.nodeId? = some callerId
        && (servingReadCopy copy callerSession now).isSome then return some copy
    else findSource chunk callerSession callerId now copyIds

/-- The claim on a task, the task under it, and what both depend on. -/
structure ClaimSelection where
  claim : ReplicationClaim
  updated : ReplicationTask
  conditions : List TxnCondition

/-- The replica group of a repair: all desired copies, led by the worker. -/
def repairGroup (repair : ReplicationConfig) (sessions : List NodeSession) : Result (Option ReplicaGroup) :=
  match buildReplicaGroups request.callerId repair sessions with
  -- insufficient live capacity is a normal wait state
  | .error _ => .ok none
  | .ok groups =>
    match groups.find? fun group => group.targets.head?.any fun target =>
        target.nodeId = request.callerId && target.nodeEpoch = request.callerNodeEpoch with
    | none => .error (conflict "no repair replica group starts with the source worker")
    | some group =>
      if group.targets.length < repair.desiredCopies.toNat then
        .error (conflict "repair placement cannot satisfy desired replicas")
      else .ok (some group)

/-- The end of `build_replication_claim`, once the group is known. -/
def selectClaim (task : ReplicationTask) (chunk : ChunkObject) (placement : PlacementRecord) (source : CopyRecord)
    (repair : ReplicationConfig) (group : ReplicaGroup) (placementRevision leaseSeconds now : UInt64) :
    DfsProg (Option ClaimSelection) := do
  let claim : ReplicationClaim :=
    { taskId := task.id
      operationId := request.operationId
      workerNodeId := request.callerId
      workerNodeEpoch := request.callerNodeEpoch
      workerSessionId := request.callerSessionId
      expiresAtUnixMs := now.saturatingAdd (leaseSeconds.saturatingMul 1000)
      fence := (task.attempt.saturatingAdd 1).toUInt64
      chunk := chunk
      sourceCopyId := source.id
      placementRevision := placementRevision
      replicaGroup := group
      replication := repair }
  let updated : ReplicationTask :=
    { task with
      state := .running
      attempt := task.attempt.saturatingAdd 1
      claim := some claim
      lastError := none
      nextRetryUnixMs := claim.expiresAtUnixMs }
  match ← taskCondition task fun current => current = task || taskReactivatesCompleted task current with
  | none => return none
  | some condition =>
    return some ⟨claim, updated, [condition, .entityEquals (.dfsPlacement placement),
      .entityEquals (.dfsChunk chunk), .entityEquals (.dfsCopy source)]⟩

def buildReplicationClaim (callerSession : NodeSession) (task : ReplicationTask) (replication : ReplicationConfig)
    (leaseSeconds now : UInt64) : DfsProg (Option ClaimSelection) := do
  let chunk ← readChunk task.chunkId
  match ← Prog.attempt (readPlacement task.chunkId) with
  | .error _ => return none
  | .ok placement =>
    if placement.placementEpoch ≠ task.placementEpoch then return none
    else
      match ← findSource chunk callerSession request.callerId now placement.copies with
      | none => return none
      | some source =>
        let repair := { replication with syncRequiredCopies := replication.desiredCopies, localCopy := .required }
        let snapshot ← storeRead .currentNodeSessions
        let sessions := snapshot.entities.filterMap fun
          | .nodeSession session =>
            if session.isLiveAtUnixMs now ∧ ¬session.storageDevices.isEmpty then some session else none
          | _ => none
        match ← lift (repairGroup request repair sessions) with
        | none => return none
        | some group =>
          selectClaim request task chunk placement source repair group snapshot.revision leaseSeconds now

/-- The candidate after its placement was read: blocked, claimed, waiting, or passed over (`none`). -/
def tryCandidate (callerSession : NodeSession) (replication : ReplicationConfig) (leaseSeconds now : UInt64)
    (task : ReplicationTask) (retired : List TxnCondition) (placement : PlacementRecord) :
    DfsProg (Option (Option ReplicationClaim)) := do
  if (← liveReadyCopyCount placement now) = 0 then
    if task.state ≠ .blockedNoSource || placement.health ≠ .blockedNoSource then
      match ← taskCondition task fun current => current = task || taskReactivatesCompleted task current with
      | none => return none
      | some condition =>
        let reply ← storeCommit (blockedTxn request requestDigest retired placement task condition now)
        return some (← lift (replicationClaimOutcome reply requestDigest))
    else return none
  else
    match ← buildReplicationClaim request callerSession task replication leaseSeconds now with
    | some selection =>
      let reply ← storeCommit (claimTxn request requestDigest retired selection.conditions replication
        selection.claim selection.updated)
      return some (← lift (replicationClaimOutcome reply requestDigest))
    | none =>
      -- repair debt exists independently of the capacity to repair it
      if task.state ≠ .pending then return none
      else
        match ← taskCondition task fun current => taskReactivatesCompleted task current
            || (current = task && placement.health ≠ .underReplicated) with
        | none => return none
        | some condition =>
          let reply ← storeCommit (waitingTxn request requestDigest retired placement task condition replication)
          return some (← lift (replicationClaimOutcome reply requestDigest))

/-- The loop over the candidates. -/
def claimFirst (callerSession : NodeSession) (replication : ReplicationConfig) (leaseSeconds now : UInt64) :
    List ReplicationTask → DfsProg (Option ReplicationClaim)
  | [] => return none
  | task :: tasks => do
    if !taskIsClaimable task now then
      claimFirst callerSession replication leaseSeconds now tasks
    else
      match ← retiredWorkerConditions task now with
      | none => claimFirst callerSession replication leaseSeconds now tasks
      | some retired =>
        match ← Prog.attempt (readPlacement task.chunkId) with
        | .error _ => claimFirst callerSession replication leaseSeconds now tasks
        | .ok placement =>
          match ← tryCandidate request requestDigest callerSession replication leaseSeconds now task retired
              placement with
          | some answer => return answer
          | none => claimFirst callerSession replication leaseSeconds now tasks

end

def claimReplicationTask (service : DfsService) (request : ClaimReplicationTask) :
    DfsProg (Option ReplicationClaim) := do
  let requestDigest ← lift (service.codec.namespaceRequestDigest (.claimReplicationTask request))
  lift (requireId request.callerId "caller_id")
  lift (requireId request.callerSessionId "caller_session_id")
  lift (requireId request.operationId.value "operation_id")
  check (request.callerNodeEpoch ≠ 0) (invalid "caller_node_epoch is required")
  replayOr (replayedReplicationClaim request.callerId request.operationId .dfsClaimReplicationTask requestDigest)
    do
      let leaseSeconds := max 1 (min request.leaseSeconds 120)
      let now ← nowUnixMs
      let callerSession ← currentSession request.callerId request.callerNodeEpoch (some request.callerSessionId) now
      check (!callerSession.storageDevices.isEmpty)
        (conflict "replication worker has no registered storage device")
      let replication ← currentReplicationConfig service
      let placements := (← storeRead .dfsPlacements).entities.filterMap fun
        | .dfsPlacement placement => some placement
        | _ => none
      let tasks := (← storeRead .dfsReplicationTasks).entities.filterMap fun
        | .dfsReplicationTask task => some task
        | _ => none
      let openTasks := sortTasks (tasks.filter fun task => task.state ≠ .completed)
      let candidates ← addPlacementCandidates tasks now placements openTasks
      claimFirst request requestDigest callerSession replication leaseSeconds now (sortTasks candidates)

end Afs
