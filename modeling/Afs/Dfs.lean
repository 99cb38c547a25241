import Afs.Lib.Machine

/-!
# `Dfs` — shared identities and metadata records of the distributed file system

The records of `src/dfs.rs`. Mutable POSIX state is an `InodeRecord` whose head points at an immutable
`FileVersion`; a version owns an immutable extent layout, every extent refers to an immutable chunk, and the
physical copies of a chunk are tracked separately. Identifiers are distinct types over strings; names, symlink
targets and extended attributes are byte strings.
-/

namespace Afs

abbrev Bytes := List UInt8

/-- A 32-byte digest, `[u8; 32]` in the source. -/
abbrev Digest := Vector UInt8 32

/-- One tree of files. -/
structure NamespaceId where
  value : String
  deriving DecidableEq, Ord

structure InodeId where
  value : String
  deriving DecidableEq, Ord

structure FileVersionId where
  value : String
  deriving DecidableEq, Ord

structure LayoutRootId where
  value : String
  deriving DecidableEq, Ord

structure ChunkId where
  value : String
  deriving DecidableEq, Ord

structure CopyId where
  value : String
  deriving DecidableEq, Ord

structure OperationId where
  value : String
  deriving DecidableEq, Ord

structure ReplicaGroupId where
  value : String
  deriving DecidableEq, Ord

structure ReplicationTaskId where
  value : String
  deriving DecidableEq, Ord

/-! ## Inodes and directory entries -/

/-- What a special file stands for. -/
inductive SpecialNodeKind
  | fifo | socket
  | blockDevice (rdev : UInt64)
  | charDevice (rdev : UInt64)
  deriving DecidableEq

inductive InodeKind
  | regular | directory | symlink
  | special (kind : SpecialNodeKind)
  deriving DecidableEq

/-- The POSIX attributes; the size of a file is that of its version. -/
structure InodeAttributes where
  (mode uid gid nlink : UInt32)
  (atimeUnixMs mtimeUnixMs ctimeUnixMs : UInt64)
  deriving DecidableEq

/-- Extended attributes: a `BTreeMap` from name to value, kept as its list of entries in key order. -/
abbrev Xattrs := List (Bytes × Bytes)

/-- `BTreeMap::insert`: replaces the value of an existing key, keeps the entries sorted. -/
def Xattrs.insert (key value : Bytes) : Xattrs → Xattrs
  | [] => [(key, value)]
  | (k, v) :: rest =>
    if key < k then (key, value) :: (k, v) :: rest
    else if key = k then (key, value) :: rest
    else (k, v) :: Xattrs.insert key value rest

/-- `BTreeMap::contains_key`. -/
def Xattrs.containsKey (xattrs : Xattrs) (key : Bytes) : Bool := xattrs.any (fun entry => entry.1 = key)

/-- `BTreeMap::remove`, without the removed value. -/
def Xattrs.remove (xattrs : Xattrs) (key : Bytes) : Xattrs := xattrs.filter (fun entry => entry.1 ≠ key)

/-- The mutable state of a file; `headVersion` is its committed content. -/
structure InodeRecord where
  namespaceId : NamespaceId
  inodeId : InodeId
  kind : InodeKind
  attributes : InodeAttributes
  headVersion : Option FileVersionId
  symlinkTarget : Option Bytes
  xattrs : Xattrs
  revision : UInt64
  deriving DecidableEq

/-- A name in a directory. -/
structure DentryKey where
  namespaceId : NamespaceId
  parentInodeId : InodeId
  name : Bytes
  deriving DecidableEq, Ord

structure Dentry where
  key : DentryKey
  inodeId : InodeId
  deriving DecidableEq

/-- Who asks, for the permission checks. -/
structure CallerContext where
  (uid gid : UInt32)
  supplementaryGids : List UInt32
  deriving DecidableEq

/-! ## Namespace requests -/

/-- `CreateFileRequest` of `meta/dfs.rs`. -/
structure CreateFileRequest where
  (callerId ownerSessionId : String)
  operationId : OperationId
  namespaceId : NamespaceId
  parentInodeId : InodeId
  name : Bytes
  attributes : InodeAttributes
  leaseSeconds : UInt64
  deriving DecidableEq

structure MkdirRequest where
  callerId : String
  operationId : OperationId
  namespaceId : NamespaceId
  parentInodeId : InodeId
  name : Bytes
  attributes : InodeAttributes
  caller : CallerContext

structure MknodRequest where
  callerId : String
  operationId : OperationId
  namespaceId : NamespaceId
  parentInodeId : InodeId
  name : Bytes
  kind : SpecialNodeKind
  attributes : InodeAttributes
  caller : CallerContext

structure LinkRequest where
  callerId : String
  operationId : OperationId
  namespaceId : NamespaceId
  existingInodeId : InodeId
  expectedInodeRevision : UInt64
  parentInodeId : InodeId
  name : Bytes
  caller : CallerContext

structure SymlinkRequest where
  callerId : String
  operationId : OperationId
  namespaceId : NamespaceId
  parentInodeId : InodeId
  (name target : Bytes)
  attributes : InodeAttributes
  caller : CallerContext

/-- `UnlinkRequest` and `RmdirRequest` have the same fields. -/
structure UnlinkRequest where
  callerId : String
  operationId : OperationId
  namespaceId : NamespaceId
  parentInodeId : InodeId
  name : Bytes
  caller : CallerContext

structure RmdirRequest where
  callerId : String
  operationId : OperationId
  namespaceId : NamespaceId
  parentInodeId : InodeId
  name : Bytes
  caller : CallerContext

inductive RenameMode
  | noReplace | replace
  deriving DecidableEq

structure RenameRequest where
  callerId : String
  operationId : OperationId
  namespaceId : NamespaceId
  oldParentInodeId : InodeId
  oldName : Bytes
  newParentInodeId : InodeId
  newName : Bytes
  mode : RenameMode
  caller : CallerContext

/-- The moved inode, and the one that has lost its name. -/
structure RenameOutcome where
  inode : InodeRecord
  replacedInode : Option InodeRecord
  deriving DecidableEq

/-! ## Inode metadata requests -/

/-- The attributes to set; `none` leaves one as it is. -/
structure InodeAttrUpdate where
  (mode uid gid : Option UInt32)
  (atimeUnixMs mtimeUnixMs ctimeUnixMs : Option UInt64)
  timestampsNow : Bool

structure SetInodeAttrRequest where
  callerId : String
  operationId : OperationId
  caller : CallerContext
  inodeId : InodeId
  expectedInodeRevision : UInt64
  update : InodeAttrUpdate

inductive XattrSetMode
  | upsert | create | replace
  deriving DecidableEq

structure SetXattrRequest where
  callerId : String
  operationId : OperationId
  caller : CallerContext
  inodeId : InodeId
  expectedInodeRevision : UInt64
  (name value : Bytes)
  mode : XattrSetMode
  deriving DecidableEq

structure RemoveXattrRequest where
  callerId : String
  operationId : OperationId
  caller : CallerContext
  inodeId : InodeId
  expectedInodeRevision : UInt64
  name : Bytes

/-! ## File versions, layouts and chunks -/

/-- One committed content of a file, made from `parentVersion`. -/
structure FileVersion where
  id : FileVersionId
  inodeId : InodeId
  parentVersion : Option FileVersionId
  length : UInt64
  layoutRoot : LayoutRootId
  createdAtUnixMs : UInt64
  deriving DecidableEq

/-- A range of the file that a chunk holds. -/
structure Extent where
  (fileOffset length : UInt64)
  chunkId : ChunkId
  chunkOffset : UInt64
  deriving DecidableEq

/-- The extents of a version; what none of them covers reads as zeros. -/
structure LayoutRoot where
  id : LayoutRootId
  fileLength : UInt64
  inlineExtents : List Extent
  deriving DecidableEq

inductive DigestAlgorithm
  | blake3
  deriving DecidableEq

structure ContentDigest where
  algorithm : DigestAlgorithm
  bytes : Digest
  deriving DecidableEq

inductive ChunkEncoding
  | raw
  deriving DecidableEq

/-- Immutable bytes, with their digest. -/
structure ChunkObject where
  id : ChunkId
  length : UInt64
  contentDigest : ContentDigest
  encoding : ChunkEncoding
  deriving DecidableEq

/-! ## Replication -/

inductive LocalCopyPolicy
  | required | preferred | notRequired
  deriving DecidableEq

/-- How many copies a chunk should have, and how many before a commit. -/
structure ReplicationConfig where
  (desiredCopies syncRequiredCopies minDistinctNodes minDistinctFailureDomains : UInt16)
  localCopy : LocalCopyPolicy
  deriving DecidableEq

def ReplicationConfig.isValid (config : ReplicationConfig) : Bool :=
  config.syncRequiredCopies > 0
    && config.syncRequiredCopies ≤ config.desiredCopies
    && config.minDistinctNodes > 0
    && config.minDistinctNodes ≤ config.desiredCopies
    && config.minDistinctFailureDomains > 0
    && config.minDistinctFailureDomains ≤ config.desiredCopies

structure StorageDeviceDescriptor where
  deviceId : String
  (deviceEpoch catalogRevision : UInt64)
  failureDomain : String
  deriving DecidableEq

/-- A device that a copy may be written to. -/
structure ReplicaTarget where
  nodeId : String
  nodeEpoch : UInt64
  dataEndpoint : String
  device : StorageDeviceDescriptor
  deriving DecidableEq

/-- The targets that a chunk is written to, in the order of the chain. -/
structure ReplicaGroup where
  id : ReplicaGroupId
  placementEpoch : UInt64
  targets : List ReplicaTarget
  deriving DecidableEq

/-- A device says that it has the bytes. -/
structure ReplicaAck where
  operationId : OperationId
  chunkId : ChunkId
  (placementRevision placementEpoch : UInt64)
  nodeId : String
  nodeEpoch : UInt64
  deviceId : String
  (deviceEpoch catalogRevision persistedBytes : UInt64)
  verifiedDigest : ContentDigest

inductive CopyRole
  | durableReplica | verifiedCache | externalCommitted
  deriving DecidableEq

inductive CopyState
  | legacyStaging | ready | corrupt | deleting
  deriving DecidableEq

def CopyState.isReadable (state : CopyState) : Bool := state = .ready

/-- On a device of a node, or in an external store. -/
inductive CopyLocation
  | node (nodeId : String) (nodeEpoch : UInt64) (deviceId : String) (deviceEpoch : UInt64) (catalogRevision : UInt64)
  | external (storeId objectKey objectRevision : String)
  deriving DecidableEq

/-- A copy of a chunk as Meta knows it. -/
structure CopyRecord where
  id : CopyId
  chunkId : ChunkId
  role : CopyRole
  location : CopyLocation
  state : CopyState
  persistedBytes : UInt64
  verifiedDigest : ContentDigest
  deriving DecidableEq

def CopyRecord.isReadyDurable (copy : CopyRecord) : Bool :=
  copy.role = .durableReplica && copy.state.isReadable

inductive PlacementHealth
  | satisfied | underReplicated | blockedNoSource
  deriving DecidableEq

/-- The copies of a chunk, and whether they are enough. -/
structure PlacementRecord where
  chunkId : ChunkId
  replicaGroupId : ReplicaGroupId
  placementEpoch : UInt64
  desiredCopies : UInt16
  copies : List CopyId
  health : PlacementHealth
  deriving DecidableEq

/-- The acknowledgements of a new chunk, as a commit presents them. -/
structure ChunkReceipt where
  operationId : OperationId
  chunk : ChunkObject
  (placementRevision placementEpoch : UInt64)
  replicaGroupId : ReplicaGroupId
  durableAcks : List ReplicaAck

inductive ReplicationTaskState
  | pending | running | retryWaiting | completed | blockedNoSource
  deriving DecidableEq

/-- The right to one attempt at a repair, numbered by `fence`. -/
structure ReplicationClaim where
  taskId : ReplicationTaskId
  operationId : OperationId
  workerNodeId : String
  workerNodeEpoch : UInt64
  workerSessionId : String
  (expiresAtUnixMs fence : UInt64)
  chunk : ChunkObject
  sourceCopyId : CopyId
  placementRevision : UInt64
  replicaGroup : ReplicaGroup
  replication : ReplicationConfig
  deriving DecidableEq

/-- The repair that a chunk needs. -/
structure ReplicationTask where
  id : ReplicationTaskId
  chunkId : ChunkId
  placementEpoch : UInt64
  desiredCopies : UInt16
  existingCopies : List CopyId
  state : ReplicationTaskState
  attempt : UInt32
  nextRetryUnixMs : UInt64
  lastError : Option String
  claim : Option ReplicationClaim
  deriving DecidableEq

structure ClaimReplicationTask where
  (callerId callerSessionId : String)
  callerNodeEpoch : UInt64
  operationId : OperationId
  leaseSeconds : UInt64

structure ReportReplicationTask where
  (callerId callerSessionId : String)
  callerNodeEpoch : UInt64
  operationId : OperationId
  claim : ReplicationClaim
  durableAcks : List ReplicaAck
  error : Option String
  sourceInvalid : Bool

structure ReportChunkCorruption where
  (callerId callerSessionId : String)
  callerNodeEpoch : UInt64
  operationId : OperationId
  chunkId : ChunkId
  deviceId : String
  (deviceEpoch catalogRevision : UInt64)

/-! ## Leases and commits -/

/-- The right to change a file. -/
structure WriteLease where
  inodeId : InodeId
  (ownerNodeId ownerSessionId : String)
  (leaseEpoch expiresAtUnixMs : UInt64)
  deriving DecidableEq

inductive CommitMetadataMode
  | dataOnly | full
  deriving DecidableEq

/-- What writing has changed of the attributes. -/
structure CommitMetadataDelta where
  mode : CommitMetadataMode
  (mtimeUnixMs ctimeUnixMs : Option UInt64)
  killSuidgid : Bool

/-- A new version, with the version and revision it replaces. -/
structure CommitFileVersion where
  operationId : OperationId
  inodeId : InodeId
  writeLease : WriteLease
  expectedInodeRevision : UInt64
  expectedHeadVersion : Option FileVersionId
  fileVersion : FileVersion
  layoutRoot : LayoutRoot
  chunkReceipts : List ChunkReceipt
  metadataDelta : CommitMetadataDelta

/-- Times without a new version. -/
structure SyncInodeMetadata where
  operationId : OperationId
  inodeId : InodeId
  writeLease : WriteLease
  expectedInodeRevision : UInt64
  expectedHeadVersion : Option FileVersionId
  metadataDelta : CommitMetadataDelta

end Afs
