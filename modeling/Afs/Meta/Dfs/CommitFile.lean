import Afs.Meta.Dfs.Inode
import Afs.Meta.Dfs.Placement

/-!
# `Meta.Dfs.CommitFile` — committing a file version

`commit_file_version` of `meta/dfs.rs`: a new immutable version with its layout becomes the head of an inode. The
request proves with receipts that every new chunk is durable; an extent without a receipt has to be a part of an
extent of the version it replaces. The transaction is conditional on the inode, the lease and the replication
config as they were read, and on the version and layout ids being unused. The records of chunks, copies and
placements are written without a condition.
-/

namespace Afs

open Interaction
open Prog (lift check)

def fileVersionNotFound : Error := ⟨.nodeVfsNotFound, "DFS FileVersion was not found"⟩
def layoutRootNotFound : Error := ⟨.nodeVfsNotFound, "DFS LayoutRoot was not found"⟩

def getFileVersion (versionId : FileVersionId) : DfsProg (FileVersion × LayoutRoot) := do
  lift (requireId versionId.value "version_id")
  let version ← Prog.require (match (← storeRead (.dfsFileVersion versionId)).entity with
    | some (.dfsFileVersion version) => some version
    | _ => none) fileVersionNotFound
  let layout ← Prog.require (match (← storeRead (.dfsLayoutRoot version.layoutRoot)).entity with
    | some (.dfsLayoutRoot layout) => some layout
    | _ => none) layoutRootNotFound
  return (version, layout)

/-! ## Receipts -/

/-- The identity of a copy: node, epoch, device and chunk joined by colons. -/
def copyId (nodeId : String) (nodeEpoch : UInt64) (deviceId : String) (chunkId : ChunkId) : CopyId :=
  ⟨nodeId ++ ":" ++ toString nodeEpoch.toNat ++ ":" ++ deviceId ++ ":" ++ chunkId.value⟩

/-- The copy an acknowledgement proves. -/
def replicaAckCopyRecord (ack : ReplicaAck) (chunk : ChunkObject) : CopyRecord where
  id := copyId ack.nodeId ack.nodeEpoch ack.deviceId chunk.id
  chunkId := chunk.id
  role := .durableReplica
  location := .node ack.nodeId ack.nodeEpoch ack.deviceId ack.deviceEpoch ack.catalogRevision
  state := .ready
  persistedBytes := ack.persistedBytes
  verifiedDigest := ack.verifiedDigest

/-- The acknowledgement is about this receipt. -/
def ackProves (receipt : ChunkReceipt) (ack : ReplicaAck) : Bool :=
  ack.operationId = receipt.operationId && ack.chunkId = receipt.chunk.id
    && ack.placementRevision = receipt.placementRevision && ack.placementEpoch = receipt.placementEpoch
    && ack.persistedBytes = receipt.chunk.length && ack.verifiedDigest = receipt.chunk.contentDigest

/-- The target a replica group assigns to an acknowledgement. -/
def assignedTarget (group : ReplicaGroup) (ack : ReplicaAck) : Option ReplicaTarget :=
  group.targets.find? fun target =>
    target.nodeId = ack.nodeId && target.nodeEpoch = ack.nodeEpoch
      && target.device.deviceId = ack.deviceId && target.device.deviceEpoch = ack.deviceEpoch

/-- What the acknowledgements of a receipt add up to: nodes, failure domains and copies. -/
structure AckTally where
  (nodes failureDomains : List String)
  copies : List CopyRecord

/-- The loop over the acknowledgements of a receipt. -/
def tallyAcks (receipt : ChunkReceipt) (group : ReplicaGroup) : List ReplicaAck → AckTally → DfsProg AckTally
  | [], tally => return tally
  | ack :: acks, tally => do
    check (ackProves receipt ack) (invalid "ReplicaAck does not prove its ChunkReceipt")
    check (ack.nodeId ∉ tally.nodes) (invalid "ChunkReceipt contains duplicate Node acknowledgements")
    let _ ← Prog.require (assignedTarget group ack)
      (conflict "ReplicaAck target is not assigned by the current ReplicaGroup")
    let snapshot ← storeRead (.currentNodeSession ack.nodeId)
    let now ← nowUnixMs
    let session ← Prog.require (match snapshot.entity with
      | some (.nodeSession session) =>
        if session.leaseEpoch = ack.nodeEpoch ∧ session.isLiveAtUnixMs now then some session else none
      | _ => none) (conflict "ReplicaAck references a stale Node epoch")
    let device ← Prog.require (session.storageDevices.find? fun device =>
      device.deviceId = ack.deviceId && device.deviceEpoch = ack.deviceEpoch)
      (conflict "ReplicaAck references a stale storage device")
    tallyAcks receipt group acks
      { nodes := tally.nodes ++ [ack.nodeId]
        failureDomains := tally.failureDomains.insert device.failureDomain
        copies := tally.copies ++ [replicaAckCopyRecord ack receipt.chunk] }

/-- Checks one receipt against the current placement and answers the copies it proves. -/
def validateChunkReceipt (callerId : String) (receipt : ChunkReceipt) (replication : ReplicationConfig) :
    DfsProg (List CopyRecord) := do
  check (receipt.placementRevision ≠ 0 && receipt.placementEpoch ≠ 0
      && receipt.durableAcks.length ≥ replication.syncRequiredCopies.toNat)
    (invalid "ChunkReceipt does not satisfy the initialized replication config")
  let placement ← placementSnapshot callerId
  check (placement.replication = replication && receipt.placementRevision ≤ placement.revision)
    (conflict "ChunkReceipt does not match the current replication authority")
  let group ← Prog.require
    ((placement.replicaGroups.find? fun group => group.id = receipt.replicaGroupId).filter
      fun group => group.placementEpoch = receipt.placementEpoch)
    (conflict "ChunkReceipt references a stale ReplicaGroup")
  let tally ← tallyAcks receipt group receipt.durableAcks ⟨[], [], []⟩
  check (tally.nodes.length ≥ replication.minDistinctNodes.toNat
      && tally.failureDomains.length ≥ replication.minDistinctFailureDomains.toNat
      && (replication.localCopy ≠ .required || tally.nodes.contains callerId))
    (invalid "ChunkReceipt does not satisfy Node, failure-domain or local-copy constraints")
  return tally.copies

/-- The loop over the receipts of a commit; `seen` are the chunks of the receipts before. -/
def validateReceipts (callerId : String) (operationId : OperationId) (replication : ReplicationConfig) :
    List ChunkReceipt → List ChunkId → DfsProg (List (ChunkReceipt × List CopyRecord))
  | [], _ => return []
  | receipt :: receipts, seen => do
    check (receipt.operationId = operationId) (invalid "ChunkReceipt operation does not match commit")
    check (receipt.chunk.id ∉ seen) (invalid "commit contains duplicate ChunkReceipts")
    let copies ← validateChunkReceipt callerId receipt replication
    let rest ← validateReceipts callerId operationId replication receipts (receipt.chunk.id :: seen)
    return (receipt, copies) :: rest

/-! ## Layouts -/

/-- The extent is a part of an extent of the base layout, at the same place of the same chunk. -/
def extentIsInherited (extent : Extent) (base : LayoutRoot) : Bool :=
  match extent.fileOffset.checkedAdd extent.length with
  | none => false
  | some extentFileEnd =>
    base.inlineExtents.any fun candidate =>
      match candidate.fileOffset.checkedAdd candidate.length with
      | none => false
      | some candidateFileEnd =>
        if candidate.chunkId ≠ extent.chunkId || extent.fileOffset < candidate.fileOffset
            || extentFileEnd > candidateFileEnd then false
        else candidate.chunkOffset.checkedAdd (extent.fileOffset - candidate.fileOffset) = some extent.chunkOffset

/-- The extent is inside the chunk of a receipt of this commit, or inherited from the base. -/
def checkExtentSource (receipts : List ChunkReceipt) (base : Option LayoutRoot) (extent : Extent) : Result Unit :=
  match extent.chunkOffset.checkedAdd extent.length with
  | none => .error (invalid "DFS extent chunk range overflows")
  | some chunkEnd =>
    match receipts.find? fun receipt => receipt.chunk.id = extent.chunkId with
    | some receipt =>
      if chunkEnd > receipt.chunk.length then .error (invalid "DFS extent exceeds its referenced Chunk")
      else .ok ()
    | none =>
      if base.any (extentIsInherited extent) then .ok ()
      else .error (invalid
        "LayoutRoot references neither a newly durable Chunk nor a legal expected-base range")

/-- The loop over the extents: non-empty, in order, disjoint and inside the file. -/
def checkExtents (receipts : List ChunkReceipt) (base : Option LayoutRoot) (fileLength : UInt64) :
    List Extent → UInt64 → Result Unit
  | [], _ => .ok ()
  | extent :: extents, previousEnd =>
    match extent.fileOffset.checkedAdd extent.length with
    | none => .error (invalid "DFS extent file range overflows")
    | some fileEnd =>
      if extent.length = 0 || extent.fileOffset < previousEnd || fileEnd > fileLength then
        .error (invalid "LayoutRoot extents must be non-empty, ordered and non-overlapping")
      else
        match checkExtentSource receipts base extent with
        | .error e => .error e
        | .ok () => checkExtents receipts base fileLength extents fileEnd

/-! ## The commit -/

/-- The times of a full commit. -/
def deltaTimes (delta : CommitMetadataDelta) (attributes : InodeAttributes) : Result InodeAttributes :=
  match delta.mode with
  | .dataOnly => .ok attributes
  | .full =>
    match delta.mtimeUnixMs, delta.ctimeUnixMs with
    | none, _ => .error (invalid "DFS full commit requires mtime")
    | some _, none => .error (invalid "DFS full commit requires ctime")
    | some mtime, some ctime => .ok { attributes with mtimeUnixMs := mtime, ctimeUnixMs := ctime }

/-- Clears set-id bits when the delta asks for it, and touches the inode only if a bit was set. -/
def deltaPrivileges (delta : CommitMetadataDelta) (attributes : InodeAttributes) : Result InodeAttributes :=
  if delta.killSuidgid then
    match delta.ctimeUnixMs with
    | none => .error (invalid "DFS killpriv commit requires ctime")
    | some ctime =>
      let cleared := clearedWritePrivileges attributes.mode
      if cleared ≠ attributes.mode then .ok { attributes with mode := cleared, ctimeUnixMs := ctime }
      else .ok attributes
  else .ok attributes

/-- The inode after the commit. -/
def committedInode (current : InodeRecord) (versionId : FileVersionId) (attributes : InodeAttributes) : InodeRecord :=
  { current with
    attributes := attributes
    headVersion := some versionId
    revision := current.revision.saturatingAdd 1 }

def repairTaskId (chunkId : ChunkId) : ReplicationTaskId := ⟨"repair:" ++ chunkId.value⟩

/-- The records one accepted receipt writes: the chunk, its copies, its placement, and a repair task when copies
    are missing. -/
def receiptMutations (replication : ReplicationConfig) (receipt : ChunkReceipt) (copies : List CopyRecord)
    (now : UInt64) : List TxnMutation :=
  let copyIds := copies.map (·.id)
  let satisfied : Bool := copies.length ≥ replication.desiredCopies.toNat
  [.put (.dfsChunk receipt.chunk)] ++ copies.map (fun copy => .put (.dfsCopy copy)) ++
    [.put (.dfsPlacement
      { chunkId := receipt.chunk.id
        replicaGroupId := receipt.replicaGroupId
        placementEpoch := receipt.placementEpoch
        desiredCopies := replication.desiredCopies
        copies := copyIds
        health := if satisfied then .satisfied else .underReplicated })] ++
    (if satisfied then []
    else
      [.put (.dfsReplicationTask
        { id := repairTaskId receipt.chunk.id
          chunkId := receipt.chunk.id
          placementEpoch := receipt.placementEpoch
          desiredCopies := replication.desiredCopies
          existingCopies := copyIds
          state := .pending
          attempt := 0
          nextRetryUnixMs := now
          lastError := none
          claim := none })])

/-- A receipt with the copies it proves and the time its repair task is due. -/
structure AcceptedReceipt where
  receipt : ChunkReceipt
  copies : List CopyRecord
  now : UInt64

/-- Reads the clock for every receipt. -/
def stampReceipts : List (ChunkReceipt × List CopyRecord) → DfsProg (List AcceptedReceipt)
  | [] => return []
  | (receipt, copies) :: rest => do
    let now ← nowUnixMs
    return ⟨receipt, copies, now⟩ :: (← stampReceipts rest)

def commitTxn (request : RequestKey) (requestDigest : Digest) (commit : CommitFileVersion)
    (current : InodeRecord) (lease : WriteLease) (replication : ReplicationConfig)
    (accepted : List AcceptedReceipt) (updated : InodeRecord) : MetaTxn where
  request := request
  operation := .dfsCommitFileVersion
  conditions :=
    [.requestAbsent request, .entityEquals (.dfsInode current), .entityEquals (.dfsWriteLease lease),
      .entityEquals (.dfsReplicationConfig replication), .missing (.dfsFileVersion commit.fileVersion.id),
      .missing (.dfsLayoutRoot commit.layoutRoot.id)]
  mutations :=
    accepted.flatMap (fun item => receiptMutations replication item.receipt item.copies item.now) ++
      [.put (.dfsLayoutRoot commit.layoutRoot), .put (.dfsFileVersion commit.fileVersion),
        .put (.dfsInode updated),
        .recordRequestOutcome
          ⟨request, .dfsCommitFileVersion, namespaceResult requestDigest (.dfsInode updated)⟩]

/-- The version, its layout and the head it replaces describe one file. -/
def describesOneFile (commit : CommitFileVersion) : Bool :=
  commit.fileVersion.inodeId = commit.inodeId && commit.fileVersion.layoutRoot = commit.layoutRoot.id
    && commit.fileVersion.length = commit.layoutRoot.fileLength
    && commit.fileVersion.parentVersion = commit.expectedHeadVersion

/-- The layout of the version the commit replaces. -/
def expectedBaseLayout (commit : CommitFileVersion) : DfsProg (Option LayoutRoot) := do
  match commit.expectedHeadVersion with
  | some versionId => return some (← getFileVersion versionId).2
  | none => return none

def commitFileVersion (service : DfsService) (callerId : String) (commit : CommitFileVersion) :
    DfsProg InodeRecord := do
  let requestDigest ← lift (service.codec.namespaceRequestDigest (.commitFileVersion commit))
  lift (requireId callerId "caller_id")
  lift (requireId commit.operationId.value "operation_id")
  lift (requireId commit.inodeId.value "inode_id")
  lift (requireId commit.writeLease.ownerNodeId "write_lease.owner_node_id")
  lift (requireId commit.writeLease.ownerSessionId "write_lease.owner_session_id")
  lift (requireId commit.fileVersion.id.value "file_version.id")
  lift (requireId commit.layoutRoot.id.value "layout_root.id")
  replayOr (replayedNamespaceInode callerId commit.operationId .dfsCommitFileVersion requestDigest) do
    let current ← getInode commit.inodeId
    check (commit.writeLease.inodeId = commit.inodeId && commit.writeLease.ownerNodeId = callerId)
      (conflict "DFS commit lease does not belong to caller and inode")
    let currentLease ← validateWriteLease callerId commit.inodeId commit.writeLease
    check (current.revision ≥ commit.expectedInodeRevision
        && current.headVersion = commit.expectedHeadVersion)
      (conflict "DFS inode head changed before commit")
    check (describesOneFile commit) (invalid "FileVersion and LayoutRoot do not describe one file")
    let replication ← currentReplicationConfig service
    let base ← expectedBaseLayout commit
    let accepted ← validateReceipts callerId commit.operationId replication commit.chunkReceipts []
    lift (checkExtents commit.chunkReceipts base commit.fileVersion.length
      commit.layoutRoot.inlineExtents 0)
    let attributes ← lift (deltaTimes commit.metadataDelta current.attributes)
    let attributes ← lift (deltaPrivileges commit.metadataDelta attributes)
    let updated := committedInode current commit.fileVersion.id attributes
    let accepted ← stampReceipts accepted
    let reply ← storeCommit (commitTxn ⟨callerId, commit.operationId.value⟩ requestDigest commit current
      currentLease replication accepted updated)
    lift do inodeOutcome (← validateNamespaceOutcome reply requestDigest) .dfsCommitFileVersion

end Afs
