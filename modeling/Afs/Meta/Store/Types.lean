import Afs.Dfs
import Afs.Error

/-!
# `Meta.Store.Types` — records, keys and transactions of the metadata store

The vocabulary of `meta/store.rs`: the entities that share one store, the keys they live under, the read
selectors, and conditional transactions. A transaction carries the idempotency key of the request that
submits it, conditions that are evaluated when it is applied, and mutations; `MetaTxn.validate` is the contract
every transaction has to meet before it is looked at.
-/

namespace Afs

/-- Monotonic revision assigned by the store. -/
abbrev StoreRevision := UInt64

def StoreRevision.next (revision : StoreRevision) : StoreRevision := revision.saturatingAdd 1

/-- Stable idempotency key provided by callers. -/
structure RequestKey where
  (callerId requestId : String)
  deriving DecidableEq, Ord

def RequestKey.isValid (key : RequestKey) : Bool := !key.callerId.isEmpty && !key.requestId.isEmpty

/-! ## Node sessions -/

structure NodeSession where
  (nodeId sessionId grpcAddr dataAddr restAddr : String)
  storageDevices : List StorageDeviceDescriptor
  (leaseEpoch expiresAtUnixMs : UInt64)
  deriving DecidableEq

/-- A session whose deadline equals the clock is already expired. -/
def NodeSession.isLiveAtUnixMs (session : NodeSession) (now : UInt64) : Bool :=
  session.expiresAtUnixMs > now

/-- Input used to create or renew a node session; the `Duration` is given in milliseconds. -/
structure NodeSessionLease where
  (nodeId sessionId grpcAddr dataAddr restAddr : String)
  storageDevices : List StorageDeviceDescriptor
  leaseTtlMs : Nat

/-! ## OwnerFs records -/

structure RootRecord where
  rootId : String
  rootEpoch : UInt64
  (homeNodeId homeSessionId localPrepareId : String)
  (createdAtRevision updatedAtRevision : StoreRevision)
  deriving DecidableEq

structure RootReservationRecord where
  rootId : String
  rootEpoch : UInt64
  (homeNodeId homeSessionId createIntentId prepareToken : String)
  createdAtRevision : StoreRevision
  deriving DecidableEq

inductive RootRight
  | lookup | read | write | admin
  deriving DecidableEq

structure RootAccessGrant where
  rootId : String
  rootEpoch : UInt64
  (homeNodeId homeSessionId holderNodeId holderSessionId : String)
  accessGeneration : UInt64
  rights : List RootRight
  fencingToken : String
  issuedAtRevision : StoreRevision
  deriving DecidableEq

inductive RootCommandType
  | revokeAccess | invalidateCache
  deriving DecidableEq

structure RootCommandAck where
  (commandId nodeId sessionId rootId : String)
  (rootEpoch accessGeneration : UInt64)
  success : Bool
  message : String
  deriving DecidableEq

structure RootCommandRecord where
  (commandId homeNodeId homeSessionId rootId : String)
  (rootEpoch oldAccessGeneration : UInt64)
  commandType : RootCommandType
  deriving DecidableEq

/-! ## Entities and keys -/

/-- OwnerFs and DFS records use the same store mechanics but keep their own business state. -/
inductive MetaEntity
  | nodeSession (session : NodeSession)
  | rootReservation (reservation : RootReservationRecord)
  | root (root : RootRecord)
  | rootGrant (grant : RootAccessGrant)
  | rootCommand (command : RootCommandRecord)
  | rootCommandAck (ack : RootCommandAck)
  | dfsDentry (dentry : Dentry)
  | dfsInode (inode : InodeRecord)
  | dfsFileVersion (version : FileVersion)
  | dfsLayoutRoot (layout : LayoutRoot)
  | dfsChunk (chunk : ChunkObject)
  | dfsReplicationConfig (config : ReplicationConfig)
  | dfsPlacement (placement : PlacementRecord)
  | dfsCopy (copy : CopyRecord)
  | dfsReplicationTask (task : ReplicationTask)
  | dfsWriteLease (lease : WriteLease)
  deriving DecidableEq

/-- Key shapes used by transaction conditions and deletes. -/
inductive MetaKey
  | nodeSession (nodeId sessionId : String)
  | currentNodeSession (nodeId : String)
  | currentNodeSessions
  | root (rootId : String)
  | rootReservation (rootId : String)
  | rootGrant (rootId holderNodeId holderSessionId : String)
  | rootCommand (commandId : String)
  | rootCommandAck (commandId homeNodeId homeSessionId : String)
  | requestOutcome (key : RequestKey)
  | dfsDentry (key : DentryKey)
  | dfsInode (id : InodeId)
  | dfsFileVersion (id : FileVersionId)
  | dfsLayoutRoot (id : LayoutRootId)
  | dfsChunk (id : ChunkId)
  | dfsReplicationConfig
  | dfsPlacement (id : ChunkId)
  | dfsCopy (id : CopyId)
  | dfsReplicationTask (id : ReplicationTaskId)
  | dfsWriteLease (id : InodeId)
  deriving DecidableEq, Ord

/-- The key an entity is put under. -/
def entityKey : MetaEntity → MetaKey
  | .nodeSession session => .nodeSession session.nodeId session.sessionId
  | .rootReservation reservation => .rootReservation reservation.rootId
  | .root root => .root root.rootId
  | .rootGrant grant => .rootGrant grant.rootId grant.holderNodeId grant.holderSessionId
  | .rootCommand command => .rootCommand command.commandId
  | .rootCommandAck ack => .rootCommandAck ack.commandId ack.nodeId ack.sessionId
  | .dfsDentry dentry => .dfsDentry dentry.key
  | .dfsInode inode => .dfsInode inode.inodeId
  | .dfsFileVersion version => .dfsFileVersion version.id
  | .dfsLayoutRoot layout => .dfsLayoutRoot layout.id
  | .dfsChunk chunk => .dfsChunk chunk.id
  | .dfsReplicationConfig _ => .dfsReplicationConfig
  | .dfsPlacement placement => .dfsPlacement placement.chunkId
  | .dfsCopy copy => .dfsCopy copy.id
  | .dfsReplicationTask task => .dfsReplicationTask task.id
  | .dfsWriteLease lease => .dfsWriteLease lease.inodeId

/-- Linearizable read selector. -/
inductive MetaRead
  | nodeSession (nodeId sessionId : String)
  | currentNodeSession (nodeId : String)
  | currentNodeSessions
  | root (rootId : String)
  | rootReservation (rootId : String)
  | rootGrantByHolder (rootId holderNodeId holderSessionId : String)
  | rootGrant (rootId : String) (rootEpoch : UInt64) (homeSessionId holderNodeId holderSessionId : String)
      (accessGeneration : UInt64) (fencingToken : String)
  | requestOutcome (key : RequestKey)
  | dfsDentry (key : DentryKey)
  | dfsDirectory (namespaceId : NamespaceId) (parentInodeId : InodeId)
  | dfsInode (id : InodeId)
  | dfsFileVersion (id : FileVersionId)
  | dfsLayoutRoot (id : LayoutRootId)
  | dfsChunk (id : ChunkId)
  | dfsPlacement (id : ChunkId)
  | dfsPlacements
  | dfsCopy (id : CopyId)
  | dfsReplicationConfig
  | dfsReplicationTask (id : ReplicationTaskId)
  | dfsReplicationTasks
  | dfsWriteLease (id : InodeId)

/-! ## Requests and their recorded outcomes -/

/-- Store operation identity used to reject accidental request-id reuse. -/
inductive StoreOperation
  | registerNode | reserveRoot | abortRoot | activateRoot | acquireRoot | recoverRoot | beginRootRevocation
  | commitRootRevocation | ackRootCommand | dfsCreate | dfsMkdir | dfsMknod | dfsInitializeNamespace | dfsUnlink
  | dfsRmdir | dfsRename | dfsLink | dfsSymlink | dfsSetInodeAttributes | dfsSetXattr | dfsRemoveXattr
  | dfsAcquireWriteLease | dfsRenewWriteLease | dfsSyncInodeMetadata | dfsCommitFileVersion
  | dfsInitializeReplicationConfig | dfsClaimReplicationTask | dfsReportReplicationTask
  | dfsReportChunkCorruption
  deriving DecidableEq

/-- Operation result that can be replayed to idempotent callers. -/
inductive OperationResult
  /-- Namespace retries bind the complete original request. -/
  | dfsNamespace (requestDigest : Digest) (result : OperationResult)
  | nodeSession (session : NodeSession)
  | rootReservation (reservation : RootReservationRecord)
  | rootRecord (root : RootRecord)
  | rootGrant (grant : RootAccessGrant)
  | rootCommand (command : RootCommandRecord)
  | rootCommandAck (ack : RootCommandAck)
  | dfsInode (inode : InodeRecord)
  | dfsInodeWithLease (inode : InodeRecord) (lease : WriteLease)
  | dfsWriteLease (lease : WriteLease)
  | dfsReplicationClaim (requestDigest : Digest) (claim : Option ReplicationClaim)
  | dfsReplicationTask (task : ReplicationTask)
  | dfsRename (outcome : RenameOutcome)
  | empty
  deriving DecidableEq

/-- Idempotent result stored in the same transaction as the authority mutation. -/
structure RequestOutcome where
  request : RequestKey
  operation : StoreOperation
  result : OperationResult
  deriving DecidableEq

/-- A read response; an empty result is explicit. -/
structure MetaSnapshot where
  revision : StoreRevision
  entity : Option MetaEntity
  requestOutcome : Option RequestOutcome
  entities : List MetaEntity

/-! ## Transactions -/

/-- Condition checked inside a single durable transaction. -/
inductive TxnCondition
  | missing (key : MetaKey)
  | revisionEquals (key : MetaKey) (revision : StoreRevision)
  /-- The current value at `entityKey entity` is exactly `entity`. -/
  | entityEquals (entity : MetaEntity)
  | nodeSessionCurrent (nodeId sessionId : String)
  | rootEpochEquals (rootId : String) (rootEpoch : UInt64)
  | rootCommandAcked (commandId nodeId sessionId : String)
  | rootCommandMatches (commandId homeNodeId homeSessionId rootId : String) (rootEpoch : UInt64)
      (oldAccessGeneration : UInt64) (commandType : RootCommandType)
  | rootCommandAckedExact (commandId nodeId sessionId rootId : String) (rootEpoch : UInt64)
      (accessGeneration : UInt64) (commandType : RootCommandType)
  | requestAbsent (key : RequestKey)
  | dfsDirectoryEmpty (namespaceId : NamespaceId) (parentInodeId : InodeId)
  | dfsNotDescendant (namespaceId : NamespaceId) (ancestorInodeId childInodeId : InodeId)
  deriving DecidableEq

/-- Mutation written inside a single durable transaction. -/
inductive TxnMutation
  | put (entity : MetaEntity)
  | delete (key : MetaKey)
  | recordRequestOutcome (outcome : RequestOutcome)

/-- Conditional transaction plus the idempotent outcome that must be recorded atomically with it. -/
structure MetaTxn where
  request : RequestKey
  operation : StoreOperation
  conditions : List TxnCondition
  mutations : List TxnMutation

/-- The first outcome a transaction records. -/
def MetaTxn.recordedOutcome (txn : MetaTxn) : Option RequestOutcome :=
  txn.mutations.findSome? fun
    | .recordRequestOutcome outcome => some outcome
    | _ => none

/-- Rejects contract-breaking transactions before they reach a backend. -/
def MetaTxn.validate (txn : MetaTxn) : Result Unit :=
  if !txn.request.isValid then
    .error (invalidContract "request key must include caller_id and request_id")
  else if txn.conditions.isEmpty then
    .error (invalidContract "transaction must include conditions")
  else if txn.mutations.isEmpty then
    .error (invalidContract "transaction must include mutations")
  else if !txn.conditions.any (fun condition => condition = .requestAbsent txn.request) then
    .error (invalidContract "transaction must condition on absent request outcome")
  else if !txn.mutations.any (fun
      | .recordRequestOutcome outcome =>
        outcome.request = txn.request && outcome.operation = txn.operation
      | _ => false) then
    .error (invalidContract "transaction must record matching request outcome")
  else .ok ()

/-- Result of a conditional transaction. -/
inductive TxnOutcome
  | committed (revision : StoreRevision) (outcome : RequestOutcome)
  | conditionFailed (revision : StoreRevision) (existingOutcome : Option RequestOutcome)
  deriving DecidableEq

inductive WatchChange
  | put (entity : MetaEntity)
  | delete

/-- Ordered change stream item. -/
structure WatchEvent where
  revision : StoreRevision
  /-- Position among all keys changed by one atomic store revision. -/
  eventIndex : UInt32
  key : MetaKey
  change : WatchChange

end Afs
