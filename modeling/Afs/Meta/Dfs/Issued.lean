import Afs.Meta.Dfs.Service

/-!
# `Meta.Dfs.Issued` — the transactions of the service

`Issued service tick s r txn` says which transactions a request may submit to the store, and what it knows about
their parts at the time the store applies them: the parent it read is a linked directory, the entry it deletes is
the one under the key, an expired lease had expired on the clock. Nothing of the read phase of a request remains
in it, so what a transaction does to the store can be studied one shape at a time. That the requests submit
nothing else is proved in the modules that follow.
-/

namespace Afs

open Relation

namespace Request

/-- The inode whose link count a request may raise. -/
def raisesLinksOf : Request → Option InodeId
  | .mkdir request => some request.parentInodeId
  | .link request => some request.existingInodeId
  | .rename request => some request.newParentInodeId
  | _ => none

/-- The lease a request asks for. -/
def leaseRequest : Request → Option LeaseRequest
  | .acquireWriteLease request | .openWrite request | .resolveAuthority request _ => some request
  | _ => none

end Request

/-- A directory of the namespace that still has links, as the parent of a change. -/
structure ParentOf (namespaceId : NamespaceId) (inodeId : InodeId) (parent : InodeRecord) : Prop where
  inodeId : parent.inodeId = inodeId
  kind : parent.kind = .directory
  namespaceId : parent.namespaceId = namespaceId
  linked : parent.attributes.nlink ≠ 0

/-- An inode under the name of a new entry, with the links a new inode of its kind has. -/
structure NewEntry (codec : Codec) (r : Request) (key : DentryKey) (inode : InodeRecord) (delta : Int) : Prop where
  inodeId : inode.inodeId = codec.namespaceInodeId r.key.callerId ⟨r.key.requestId⟩
  namespaceId : inode.namespaceId = key.namespaceId
  headVersion : inode.headVersion = none
  links : inode.kind = .directory ∧ inode.attributes.nlink = 2 ∧ delta = 1 ∧
      r.raisesLinksOf = some key.parentInodeId ∨
    inode.kind ≠ .directory ∧ inode.attributes.nlink = 1 ∧ delta = 0

/-- An inode whose place in the namespace and whose content are what they were. -/
structure SameNode (current updated : InodeRecord) : Prop where
  inodeId : updated.inodeId = current.inodeId
  namespaceId : updated.namespaceId = current.namespaceId
  kind : updated.kind = current.kind
  nlink : updated.attributes.nlink = current.attributes.nlink
  headVersion : updated.headVersion = current.headVersion

/-- The entry that a rename replaces: another inode, a directory exactly if the source is one. -/
structure Replaces (newKey : DentryKey) (source : InodeRecord) (target : Replaced) : Prop where
  key : target.dentry.key = newKey
  inodeId : target.original.inodeId = target.dentry.inodeId
  namespaceId : target.original.namespaceId = newKey.namespaceId
  other : target.original.inodeId ≠ source.inodeId
  kind : source.kind = .directory ↔ target.original.kind = .directory
  inode : ∃ now, target.inode = relinkedInode target.original (unlinkedCount target.original) now

/-- The lease record a write under `presented` was checked against. -/
structure LeaseFor (inodeId : InodeId) (presented lease : WriteLease) : Prop where
  inodeId : lease.inodeId = inodeId
  ownerNodeId : lease.ownerNodeId = presented.ownerNodeId
  ownerSessionId : lease.ownerSessionId = presented.ownerSessionId
  leaseEpoch : lease.leaseEpoch = presented.leaseEpoch

/-- The layout a commit may inherit extents from: that of the version it replaces. -/
def BaseLayout (store : StoreState) (head : Option FileVersionId) (base : Option LayoutRoot) : Prop :=
  match head with
  | none => base = none
  | some versionId => ∃ version layout, store.get (.dfsFileVersion versionId) = some (.dfsFileVersion version) ∧
      store.get (.dfsLayoutRoot version.layoutRoot) = some (.dfsLayoutRoot layout) ∧ base = some layout

/-- The receipts of a commit, each with the copies its acknowledgements prove. -/
structure AcceptedAll (receipts : List ChunkReceipt) (accepted : List AcceptedReceipt) : Prop where
  receipts : accepted.map (·.receipt) = receipts
  copies : ∀ item ∈ accepted, item.copies = item.receipt.durableAcks.map (replicaAckCopyRecord · item.receipt.chunk)
  distinct : (accepted.map (·.receipt.chunk.id)).Nodup

/-- What the store accepts of a commit besides its conditions. -/
structure CommitChecked (store : StoreState) (callerId : String) (commit : CommitFileVersion)
    (current : InodeRecord) (lease : WriteLease) (accepted : List AcceptedReceipt) (attributes : InodeAttributes) :
    Prop where
  inodeId : current.inodeId = commit.inodeId
  lease : LeaseFor commit.inodeId commit.writeLease lease
  owner : commit.writeLease.ownerNodeId = callerId
  head : current.headVersion = commit.expectedHeadVersion
  oneFile : describesOneFile commit
  accepted : AcceptedAll commit.chunkReceipts accepted
  extents : ∃ base, BaseLayout store commit.expectedHeadVersion base ∧
    checkExtents commit.chunkReceipts base commit.fileVersion.length commit.layoutRoot.inlineExtents 0 = .ok ()
  nlink : attributes.nlink = current.attributes.nlink

/-- What a repair report writes besides the task. -/
inductive Reported (request : ReportReplicationTask) (placement : PlacementRecord) (source : CopyRecord) :
    List TxnMutation → Prop
  | sourceInvalid (health : PlacementHealth) :
      Reported request placement source
        [.put (.dfsCopy { source with state := .corrupt }), .put (.dfsPlacement { placement with health })]
  | retry : Reported request placement source []
  | completed (group : ReplicaGroupId) (epoch : UInt64) (desired : UInt16) :
      Reported request placement source
        ((request.durableAcks.map (replicaAckCopyRecord · request.claim.chunk)).map
          (fun copy => .put (.dfsCopy copy)) ++
          [.put (.dfsPlacement
            { chunkId := placement.chunkId
              replicaGroupId := group
              placementEpoch := epoch
              desiredCopies := desired
              copies := mergeCopies placement.copies
                (request.durableAcks.map (replicaAckCopyRecord · request.claim.chunk))
              health := .satisfied })])

/-- **The transactions of a request**, at the state the store receives them in. -/
inductive Issued (service : DfsService) (tick : Tick) (s : System) : Request → MetaTxn → Prop
  | namespaceRoot (r : Request) (namespaceId : NamespaceId) :
      Issued service tick s r (initializeNamespaceTxn namespaceId)
  | replicationConfig (r : Request) : Issued service tick s r (replicationConfigTxn service.replication)
  | create {request digest expiry parent now} (hdigest : service.Digests (.create request) digest)
      (hparent : ParentOf request.namespaceId request.parentInodeId parent) :
      Issued service tick s (.create request)
        (createTxn (Request.create request).key digest ⟨request.namespaceId, request.parentInodeId, request.name⟩
          (createdInode service.codec request) (createdLease service.codec request expiry) parent now)
  | newEntry {r d digest key inode parent delta now} (hop : r.operation ∈ [.dfsMkdir, .dfsMknod, .dfsSymlink])
      (hd : r.digested = some d) (hdigest : service.Digests d digest)
      (hparent : ParentOf key.namespaceId key.parentInodeId parent)
      (hentry : NewEntry service.codec r key inode delta) :
      Issued service tick s r (newEntryTxn r.key r.operation digest key inode parent delta now)
  | link {request digest inode parent inodeNow parentNow} (hdigest : service.Digests (.link request) digest)
      (hparent : ParentOf request.namespaceId request.parentInodeId parent)
      (hid : inode.inodeId = request.existingInodeId) (hns : inode.namespaceId = request.namespaceId)
      (hkind : inode.kind ≠ .directory) (hlinked : inode.attributes.nlink ≠ 0) :
      Issued service tick s (.link request)
        (linkTxn (Request.link request).key digest ⟨request.namespaceId, request.parentInodeId, request.name⟩ inode
          parent inodeNow parentNow)
  | remove {r d digest directory key dentry inode parent inodeNow parentNow}
      (hop : r.operation = if directory then .dfsRmdir else .dfsUnlink) (hd : r.digested = some d)
      (hdigest : service.Digests d digest)
      (hparent : ParentOf key.namespaceId key.parentInodeId parent) (hdentry : dentry.key = key)
      (hid : inode.inodeId = dentry.inodeId) (hns : inode.namespaceId = key.namespaceId)
      (hdir : directory = true ↔ inode.kind = .directory) :
      Issued service tick s r
        (removeTxn r.key r.operation digest directory key dentry inode parent inodeNow parentNow)
  | renameNoop {request digest dentry inode} (hdigest : service.Digests (.rename request) digest) :
      Issued service tick s (.rename request) (renameNoopTxn (Request.rename request).key digest dentry inode)
  | rename {request digest dentry inode oldParent newParent replaced renameNow oldNow newNow}
      (hdigest : service.Digests (.rename request) digest)
      (hold : ParentOf request.namespaceId request.oldParentInodeId oldParent)
      (hnew : ParentOf request.namespaceId request.newParentInodeId newParent)
      (hdentry : dentry.key = renameOldKey request) (hid : inode.inodeId = dentry.inodeId)
      (hns : inode.namespaceId = request.namespaceId) (hne : renameOldKey request ≠ renameNewKey request)
      (hreplaced : ∀ target, replaced = some target → Replaces (renameNewKey request) inode target) :
      Issued service tick s (.rename request)
        (renameTxn (Request.rename request).key digest (renameOldKey request) (renameNewKey request) dentry inode
          replaced oldParent newParent renameNow oldNow newNow)
  | metadata {r current updated}
      (hop : r.operation ∈ [.dfsSetInodeAttributes, .dfsSetXattr, .dfsRemoveXattr]) (hr : r.digested = none)
      (hsame : SameNode current updated) :
      Issued service tick s r (inodeMetadataTxn r.key r.operation current updated)
  | acquire {r request existing now expiry} (hr : r.leaseRequest = some request)
      (hexisting : ∀ lease, existing = some lease → lease.inodeId = request.inodeId)
      (hclock : ReflTransGen tick now s.clock)
      (hfree : sameOwner request (leaseBase request existing) ∨ (leaseBase request existing).expiresAtUnixMs ≤ now) :
      Issued service tick s r
        (leaseTxn r.key .dfsAcquireWriteLease existing (acquiredLease request existing now expiry))
  | renew {request stored expiry} (hlease : LeaseFor request.current.inodeId request.current stored) :
      Issued service tick s (.renewWriteLease request)
        (leaseTxn (Request.renewWriteLease request).key .dfsRenewWriteLease (some stored)
          { stored with expiresAtUnixMs := max stored.expiresAtUnixMs expiry })
  | sync {callerId sync current lease mtime ctime} (hcurrent : current.inodeId = sync.inodeId)
      (hlease : LeaseFor sync.inodeId sync.writeLease lease) :
      Issued service tick s (.syncInodeMetadata callerId sync)
        (syncTxn (Request.syncInodeMetadata callerId sync).key current lease
          (syncedInode current sync.metadataDelta mtime ctime))
  | commit {callerId commit digest current lease replication accepted attributes}
      (hdigest : service.Digests (.commitFileVersion commit) digest)
      (hchecked : CommitChecked s.store callerId commit current lease accepted attributes) :
      Issued service tick s (.commitFileVersion callerId commit)
        (commitTxn (Request.commitFileVersion callerId commit).key digest commit current lease replication accepted
          (committedInode current commit.fileVersion.id attributes))
  | blocked {request digest retired placement task condition now}
      (hdigest : service.Digests (.claimReplicationTask request) digest) :
      Issued service tick s (.claimReplicationTask request)
        (blockedTxn request digest retired placement task condition now)
  | waiting {request digest retired placement task condition replication}
      (hdigest : service.Digests (.claimReplicationTask request) digest) :
      Issued service tick s (.claimReplicationTask request)
        (waitingTxn request digest retired placement task condition replication)
  | claimed {request digest retired conditions replication claim updated}
      (hdigest : service.Digests (.claimReplicationTask request) digest) :
      Issued service tick s (.claimReplicationTask request)
        (claimTxn request digest retired conditions replication claim updated)
  | report {request digest task placement chunk source replication decision}
      (hdigest : service.Digests (.reportReplicationTask request) digest)
      (hchunk : chunk = request.claim.chunk) (hplacement : placement.chunkId = request.claim.chunk.id)
      (hdecision : Reported request placement source decision.mutations) :
      Issued service tick s (.reportReplicationTask request)
        (reportTxn request digest task placement chunk source replication decision)
  | corruption {request digest conditions} {reported : List CopyRecord} {placement health task}
      (hdigest : service.Digests (.reportChunkCorruption request) digest)
      (hplacement : .entityEquals (.dfsPlacement placement) ∈ conditions)
      (hreported : ∀ copy ∈ reported, .entityEquals (.dfsCopy copy) ∈ conditions) :
      Issued service tick s (.reportChunkCorruption request)
        (corruptionTxn (Request.reportChunkCorruption request).key digest conditions
          (reported.map fun copy => { copy with state := .corrupt }) { placement with health } task)
  | corruptionEmpty {request digest conditions}
      (hdigest : service.Digests (.reportChunkCorruption request) digest) :
      Issued service tick s (.reportChunkCorruption request)
        (emptyNamespaceTxn (Request.reportChunkCorruption request).key .dfsReportChunkCorruption digest conditions)

end Afs
