import Afs.Meta.Dfs.Replay

/-!
# `Meta.Dfs.Placement` — the replication contract and the replica groups of a caller

`initialize_replication_config`, `placement_snapshot` and `build_replica_groups` of `meta/dfs.rs`. The replication
config is written once for the life of the file system. The replica groups a caller may write to are computed
from the live node sessions: one target per node, rotated so that every remaining node leads one chain.
-/

namespace Afs

open Interaction
open Prog (lift check)

/-- The service's configuration: the functions it calls, the replication contract it was started with, and the
    read-grant key if the system had entropy for one. -/
structure DfsService where
  codec : Codec
  replication : ReplicationConfig
  readGrantKey : Option Digest

/-- The codec's digest of what a request says. -/
abbrev DfsService.Digests (service : DfsService) (request : DigestedRequest) (digest : Digest) : Prop :=
  service.codec.namespaceRequestDigest request = .ok digest

/-! ## The replication config -/

def replicationConfigTxn (config : ReplicationConfig) : MetaTxn :=
  let request : RequestKey := ⟨"afs-meta", "dfs-replication-config-v1"⟩
  { request
    operation := .dfsInitializeReplicationConfig
    conditions := [.requestAbsent request, .missing .dfsReplicationConfig]
    mutations :=
      [.put (.dfsReplicationConfig config),
        .recordRequestOutcome ⟨request, .dfsInitializeReplicationConfig, .empty⟩] }

def recordedConfig (snapshot : MetaSnapshot) : Option ReplicationConfig :=
  match snapshot.entity with
  | some (.dfsReplicationConfig config) => some config
  | _ => none

/-- Creates the replication contract or verifies the one an earlier start persisted. -/
def initializeReplicationConfig (service : DfsService) : DfsProg Unit := do
  check service.readGrantKey.isSome
    (permissionDenied "Meta cannot initialize read authority without OS entropy")
  check service.replication.isValid (invalid "DFS replication config is invalid")
  match recordedConfig (← storeRead .dfsReplicationConfig) with
  | some config =>
    check (config = service.replication)
      (conflict "DFS replication config is immutable; reinitialize the filesystem to change it")
  | none =>
    let _ ← storeCommit (replicationConfigTxn service.replication)
    match recordedConfig (← storeRead .dfsReplicationConfig) with
    | some config =>
      check (config = service.replication)
        (conflict "DFS replication config changed during initialization")
    | none => throw (invalid "DFS replication config was not persisted")

def currentReplicationConfig (service : DfsService) : DfsProg ReplicationConfig := do
  match recordedConfig (← storeRead .dfsReplicationConfig) with
  | some config =>
    check (config = service.replication)
      (conflict "DFS replication config differs from the initialized filesystem")
    return config
  | none =>
    initializeReplicationConfig service
    return service.replication

/-! ## The placement hash -/

/-- `StableHash`: FNV-1a over bytes. -/
def stableHashBytes (hash : UInt64) (bytes : Bytes) : UInt64 :=
  bytes.foldl (fun hash byte => (hash ^^^ byte.toUInt64) * 0x100000001b3) hash

def stableHashStr (hash : UInt64) (text : String) : UInt64 :=
  stableHashBytes (stableHashBytes hash (Codec.utf8Bytes text)) [0xff]

def stableHashU64 (hash value : UInt64) : UInt64 := stableHashBytes hash (Codec.toBeBytes value).reverse

def placementHash (replication : ReplicationConfig) (targets : List ReplicaTarget) : UInt64 :=
  let config := [replication.desiredCopies.toUInt64, replication.syncRequiredCopies.toUInt64,
    replication.minDistinctNodes.toUInt64, replication.minDistinctFailureDomains.toUInt64,
    match replication.localCopy with
    | .required => 1
    | .preferred => 2
    | .notRequired => 3].foldl stableHashU64 0xcbf29ce484222325
  let hash := targets.foldl (fun hash target =>
    let hash := stableHashU64 (stableHashStr hash target.nodeId) target.nodeEpoch
    let hash := stableHashStr (stableHashStr hash target.dataEndpoint) target.device.deviceId
    stableHashStr (stableHashU64 hash target.device.deviceEpoch) target.device.failureDomain) config
  if hash = 0 then 1 else hash

/-- Sixteen lower-case hexadecimal digits. -/
def hex16 (value : UInt64) : String :=
  String.ofList ((Codec.toBeBytes value).flatMap fun byte =>
    [Codec.hexDigit (byte.toNat / 16), Codec.hexDigit (byte.toNat % 16)])

/-! ## Replica groups -/

/-- `Vec::dedup_by`: drops an element that equals, by key, the one kept before it. -/
def dedupBy {α β : Type} [DecidableEq β] (key : α → β) : List α → List α
  | [] => []
  | a :: rest =>
    match dedupBy key rest with
    | [] => [a]
    | b :: rest => if key a = key b then a :: rest else a :: b :: rest

/-- The first device of a session in the order of device, epoch and failure domain. -/
def preferredReplicaTarget (session : NodeSession) : Option ReplicaTarget :=
  let devices := session.storageDevices.insertionSort fun left right =>
    ((compare left.deviceId right.deviceId).then
      ((compare left.deviceEpoch right.deviceEpoch).then
        (compare left.failureDomain right.failureDomain))).isLE
  devices.head?.map fun device =>
    { nodeId := session.nodeId
      nodeEpoch := session.leaseEpoch
      dataEndpoint := session.dataAddr
      device := device }

/-- What a group has collected so far: its targets, their nodes and their failure domains. -/
structure GroupSelection where
  selected : List ReplicaTarget
  (nodes domains : List String)

def GroupSelection.add (selection : GroupSelection) (target : ReplicaTarget) : GroupSelection where
  selected := selection.selected ++ [target]
  nodes := selection.nodes.insert target.nodeId
  domains := selection.domains.insert target.device.failureDomain

/-- One pass over the candidates; the first pass takes only targets of a new failure domain. -/
def GroupSelection.extend (selection : GroupSelection) (candidates : List ReplicaTarget) (targetCount : Nat)
    (preferNewDomain : Bool) : GroupSelection :=
  candidates.foldl (fun selection target =>
    if selection.selected.length ≥ targetCount then selection
    else if target.nodeId ∈ selection.nodes then selection
    else if preferNewDomain && target.device.failureDomain ∈ selection.domains then selection
    else selection.add target) selection

def buildReplicaGroup (replication : ReplicationConfig) (head : Option ReplicaTarget)
    (candidates : List ReplicaTarget) (targetCount seed : Nat) : Option ReplicaGroup :=
  let empty : GroupSelection := ⟨[], [], []⟩
  let start := (head.map empty.add).getD empty
  let rotated := candidates.rotate seed
  let group := (start.extend rotated targetCount true).extend rotated targetCount false
  if group.selected.length < replication.syncRequiredCopies.toNat
      || group.nodes.length < replication.minDistinctNodes.toNat
      || group.domains.length < replication.minDistinctFailureDomains.toNat then none
  else
    let placementEpoch := placementHash replication group.selected
    some { id := ⟨"group:" ++ hex16 placementEpoch⟩, placementEpoch, targets := group.selected }

def buildReplicaGroups (callerId : String) (replication : ReplicationConfig) (sessions : List NodeSession) :
    Result (List ReplicaGroup) :=
  let targets : List ReplicaTarget := dedupBy (·.nodeId) <|
    (sessions.filterMap preferredReplicaTarget).insertionSort fun left right =>
      ((compare left.nodeId right.nodeId).then ((compare left.nodeEpoch right.nodeEpoch).then
        ((compare left.device.deviceId right.device.deviceId).then
          (compare left.device.deviceEpoch right.device.deviceEpoch)))).isLE
  let callerTarget := targets.find? fun target => target.nodeId = callerId
  let requiredTargets := max replication.syncRequiredCopies.toNat
    (max replication.minDistinctNodes.toNat replication.minDistinctFailureDomains.toNat)
  let targetCount := min replication.desiredCopies.toNat targets.length
  let groups : List ReplicaGroup := match callerTarget with
    | some head =>
      if replication.localCopy = .notRequired then
        (List.range targets.length).filterMap (buildReplicaGroup replication none targets targetCount)
      else
        let tail := targets.filter fun target => target.nodeId ≠ head.nodeId
        (List.range (max tail.length 1)).filterMap
          (buildReplicaGroup replication (some head) tail targetCount)
    | none => (List.range targets.length).filterMap (buildReplicaGroup replication none targets targetCount)
  let groups : List ReplicaGroup :=
    dedupBy (·.id) (groups.insertionSort fun left right => left.id.value ≤ right.id.value)
  if replication.localCopy = .required && callerTarget.isNone then
    .error (conflict "DFS placement requires a caller-local storage target for local-copy=required")
  else if targets.length < requiredTargets then
    .error (conflict "DFS placement has too few live storage nodes for the configured policy")
  else if targetCount < requiredTargets then
    .error (conflict "DFS placement cannot satisfy sync, node or failure-domain minima")
  else if groups.isEmpty then
    .error (conflict "DFS placement could not build a replica group satisfying the configured policy")
  else .ok groups

structure PlacementSnapshot where
  revision : UInt64
  replication : ReplicationConfig
  replicaGroups : List ReplicaGroup

def placementSnapshot (callerId : String) : DfsProg PlacementSnapshot := do
  lift (requireId callerId "caller_id")
  let configSnapshot ← storeRead .dfsReplicationConfig
  let replication ← Prog.require (recordedConfig configSnapshot)
    (invalid "DFS replication config is not initialized")
  check replication.isValid (invalid "DFS replication config is invalid")
  let sessionsSnapshot ← storeRead .currentNodeSessions
  let now ← nowUnixMs
  -- the listing is already in the order of node and session
  let sessions := sessionsSnapshot.entities.filterMap fun
    | .nodeSession session => if session.isLiveAtUnixMs now then some session else none
    | _ => none
  check (sessions.any fun session => session.nodeId = callerId)
    (conflict "DFS placement requires a live caller Node session")
  let replicaGroups ← lift (buildReplicaGroups callerId replication
    (sessions.filter fun session => !session.storageDevices.isEmpty))
  return { revision := max configSnapshot.revision sessionsSnapshot.revision, replication, replicaGroups }

end Afs
