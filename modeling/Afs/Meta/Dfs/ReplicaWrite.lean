import Afs.Meta.Dfs.Repair

/-!
# `Meta.Dfs.ReplicaWrite` — leave to write a replica

`validate_replica_write` and `validate_repair_replica_write` of `meta/dfs.rs`. Before a storage node takes the bytes
of a chunk it asks whether the transfer is one that a current placement, or the running claim of a repair, assigns to
it. The answer is a grant with a fence and a token. Nothing is written.
-/

namespace Afs

open Interaction
open Prog (lift check)

structure ValidateReplicaWriteRequest where
  requesterNodeId : String
  requesterNodeEpoch : UInt64
  initiatorNodeId : String
  initiatorNodeEpoch : UInt64
  operationId : OperationId
  chunkId : ChunkId
  chunkLength : UInt64
  contentDigest : ContentDigest
  (placementRevision placementEpoch : UInt64)
  replicaGroupId : ReplicaGroupId
  targetIndex : UInt32
  orderedTargets : List ReplicaTarget
  repairClaim : Option ReplicationClaim

/-- The grant names the transfer it is for, as the request described it. -/
structure ReplicaWriteGrant where
  requesterNodeId : String
  requesterNodeEpoch : UInt64
  initiatorNodeId : String
  initiatorNodeEpoch : UInt64
  operationId : OperationId
  chunkId : ChunkId
  chunkLength : UInt64
  contentDigest : ContentDigest
  (placementRevision placementEpoch : UInt64)
  replicaGroupId : ReplicaGroupId
  targetIndex : UInt32
  replication : ReplicationConfig
  replicaGroup : ReplicaGroup
  (expiresAtUnixMs fence : UInt64)
  token : String

variable (request : ValidateReplicaWriteRequest)

def replicaWriteToken (fence expiresAtUnixMs : UInt64) : String :=
  let hash := stableHashStr 0xcbf29ce484222325 request.requesterNodeId
  let hash := stableHashU64 hash request.requesterNodeEpoch
  let hash := stableHashStr hash request.initiatorNodeId
  let hash := stableHashU64 hash request.initiatorNodeEpoch
  let hash := stableHashStr hash request.operationId.value
  let hash := stableHashStr hash request.chunkId.value
  let hash := stableHashU64 hash request.chunkLength
  let hash := stableHashBytes hash request.contentDigest.bytes.toList
  let hash := stableHashU64 hash request.placementRevision
  let hash := stableHashU64 hash request.placementEpoch
  let hash := stableHashStr hash request.replicaGroupId.value
  let hash := stableHashU64 hash request.targetIndex.toUInt64
  let hash := request.orderedTargets.foldl (fun hash target =>
    let hash := stableHashU64 (stableHashStr hash target.nodeId) target.nodeEpoch
    let hash := stableHashU64 (stableHashStr hash target.device.deviceId) target.device.deviceEpoch
    stableHashU64 hash target.device.catalogRevision) hash
  let hash := stableHashU64 (stableHashU64 hash fence) expiresAtUnixMs
  "dfs-replica-write:" ++ hex16 (if hash = 0 then 1 else hash)

/-- The grant for a request. -/
def replicaWriteGrant (replication : ReplicationConfig) (group : ReplicaGroup) (fence expiresAtUnixMs : UInt64) :
    ReplicaWriteGrant where
  requesterNodeId := request.requesterNodeId
  requesterNodeEpoch := request.requesterNodeEpoch
  initiatorNodeId := request.initiatorNodeId
  initiatorNodeEpoch := request.initiatorNodeEpoch
  operationId := request.operationId
  chunkId := request.chunkId
  chunkLength := request.chunkLength
  contentDigest := request.contentDigest
  placementRevision := request.placementRevision
  placementEpoch := request.placementEpoch
  replicaGroupId := request.replicaGroupId
  targetIndex := request.targetIndex
  replication := replication
  replicaGroup := group
  expiresAtUnixMs := expiresAtUnixMs
  fence := fence
  token := replicaWriteToken request fence expiresAtUnixMs

/-! ## Repairs -/

/-- The request describes the transfer of the claim. -/
def matchesClaim (claim : ReplicationClaim) : Bool :=
  claim.operationId = request.operationId && claim.workerNodeId = request.initiatorNodeId
    && claim.workerNodeEpoch = request.initiatorNodeEpoch && claim.chunk.id = request.chunkId
    && claim.chunk.length = request.chunkLength && claim.chunk.contentDigest = request.contentDigest
    && claim.placementRevision = request.placementRevision && claim.replicaGroup.id = request.replicaGroupId
    && claim.replicaGroup.placementEpoch = request.placementEpoch
    && claim.replicaGroup.targets = request.orderedTargets

/-- A target after the first one gets the bytes from the one before it, or from the worker. -/
def senderMatches (claim : ReplicationClaim) : Bool :=
  match request.targetIndex.toNat with
  | 0 => true
  | index + 1 =>
    (claim.replicaGroup.targets[index]?).any fun sender =>
      sender.nodeId = request.initiatorNodeId || request.initiatorNodeId = claim.workerNodeId

def validateRepairReplicaWrite : DfsProg ReplicaWriteGrant := do
  let claim ← Prog.require request.repairClaim (invalid "repair claim is required")
  check (matchesClaim request claim) (conflict "repair replica write does not match its claim")
  let now ← nowUnixMs
  check (claim.expiresAtUnixMs > now) (conflict "repair claim expired")
  let task ← readReplicationTask claim.taskId
  check (task.state = .running && task.claim = some claim)
    (conflict "repair claim is not the current running claim")
  let _ ← currentSession claim.workerNodeId claim.workerNodeEpoch (some claim.workerSessionId) now
  let target ← Prog.require claim.replicaGroup.targets[request.targetIndex.toNat]?
    (invalid "DFS replica write target_index is out of range")
  check (target.nodeId = request.requesterNodeId && target.nodeEpoch = request.requesterNodeEpoch)
    (permissionDenied "repair replica write requester is not the assigned target")
  let _ ← currentSession target.nodeId target.nodeEpoch none now
  check (senderMatches request claim)
    (permissionDenied "repair replica write sender does not match claim chain")
  return replicaWriteGrant request claim.replication claim.replicaGroup task.attempt.toUInt64 claim.expiresAtUnixMs

/-! ## Placements -/

/-- The requested targets are those of the group, each with a catalog that the group's is not behind. -/
def replicaTargetsMatchRequestedFloor (requested current : List ReplicaTarget) : Bool :=
  requested.length = current.length && (requested.zip current).all fun (requested, current) =>
    requested.nodeId = current.nodeId && requested.nodeEpoch = current.nodeEpoch
      && requested.dataEndpoint = current.dataEndpoint && requested.device.deviceId = current.device.deviceId
      && requested.device.deviceEpoch = current.device.deviceEpoch
      && requested.device.failureDomain = current.device.failureDomain
      && requested.device.catalogRevision ≤ current.device.catalogRevision

def validatePlacedReplicaWrite : DfsProg ReplicaWriteGrant := do
  let snapshot ← storeRead (.currentNodeSession request.initiatorNodeId)
  let now ← nowUnixMs
  let _ ← Prog.require (match snapshot.entity with
    | some (.nodeSession session) =>
      if session.leaseEpoch = request.initiatorNodeEpoch ∧ session.isLiveAtUnixMs now then some session else none
    | _ => none) (conflict "DFS replica write initiator epoch is not live")
  let placement ← placementSnapshot request.initiatorNodeId
  check (request.placementRevision ≤ placement.revision)
    (conflict "DFS replica write references a future placement revision")
  let group ← Prog.require
    ((placement.replicaGroups.find? fun group => group.id = request.replicaGroupId).filter
      fun group => group.placementEpoch = request.placementEpoch)
    (conflict "DFS replica write references a stale ReplicaGroup")
  check (replicaTargetsMatchRequestedFloor request.orderedTargets group.targets)
    (conflict "DFS replica write target order does not match current placement")
  let target ← Prog.require group.targets[request.targetIndex.toNat]?
    (invalid "DFS replica write target_index is out of range")
  check (target.nodeId = request.requesterNodeId && target.nodeEpoch = request.requesterNodeEpoch)
    (permissionDenied "DFS replica write requester is not the assigned placement target")
  let now ← nowUnixMs
  -- the grant keeps the catalog floors of the request, so that a retry has the same identity
  return replicaWriteGrant request placement.replication
    ⟨group.id, group.placementEpoch, request.orderedTargets⟩ placement.revision (now.saturatingAdd 30000)

def validateReplicaWrite : DfsProg ReplicaWriteGrant := do
  lift (requireId request.requesterNodeId "requester_node_id")
  lift (requireId request.initiatorNodeId "initiator_node_id")
  lift (requireId request.operationId.value "operation_id")
  lift (requireId request.chunkId.value "chunk_id")
  lift (requireId request.replicaGroupId.value "replica_group_id")
  check (request.requesterNodeEpoch ≠ 0 && request.initiatorNodeEpoch ≠ 0)
    (invalid "DFS replica write node epochs are required")
  check (request.chunkLength ≠ 0) (invalid "DFS replica write chunk_length must be greater than zero")
  check (request.contentDigest.bytes ≠ Vector.replicate 32 0)
    (invalid "DFS replica write content digest is required")
  check (request.placementRevision ≠ 0 && request.placementEpoch ≠ 0)
    (invalid "DFS replica write placement identity is required")
  check (!request.orderedTargets.isEmpty) (invalid "DFS replica write ordered_targets are required")
  if request.repairClaim.isSome then validateRepairReplicaWrite request else validatePlacedReplicaWrite request

end Afs
