import Afs.Meta.Dfs.Issued

/-!
# `Meta.Dfs.Writes` — what the transactions of the service write

`Issued.writes` goes through the shapes of transactions once and says of every mutation what kind of record it
writes and what the transaction knows about it: an inode is rewritten with the head it had, made without one, or moved
to the version of a commit; a file version, a layout and a chunk are written by commits only; a placement is that of
a commit or lists at least the copies it listed before. The invariants of the records follow from these cases
without looking at the transactions again.
-/

namespace Afs

open Interaction Relation List

variable {digest : Digest} {parent : InodeRecord} {delta : Int} {now : UInt64} {mutation : TxnMutation}
  {item : AcceptedReceipt}

/-- The arguments of the transaction of a commit. -/
structure CommitParts where
  callerId : String
  commit : CommitFileVersion
  digest : Digest
  current : InodeRecord
  lease : WriteLease
  replication : ReplicationConfig
  accepted : List AcceptedReceipt
  attributes : InodeAttributes

namespace CommitParts

/-- The inode with the new version as its head. -/
def updated (parts : CommitParts) : InodeRecord :=
  committedInode parts.current parts.commit.fileVersion.id parts.attributes

def txn (parts : CommitParts) : MetaTxn :=
  commitTxn (Request.commitFileVersion parts.callerId parts.commit).key parts.digest parts.commit parts.current
    parts.lease parts.replication parts.accepted parts.updated

end CommitParts

/-- The transaction is that of a commit the service has checked. -/
structure IsCommit (s : System) (r : Request) (txn : MetaTxn) (parts : CommitParts) : Prop where
  request : r = .commitFileVersion parts.callerId parts.commit
  txn : txn = parts.txn
  checked : CommitChecked s.store parts.callerId parts.commit parts.current parts.lease parts.accepted
    parts.attributes

namespace IsCommit

variable {s : System} {r : Request} {txn : MetaTxn} {parts : CommitParts}

theorem versionMissing (h : IsCommit s r txn parts) :
    .missing (.dfsFileVersion parts.commit.fileVersion.id) ∈ txn.conditions := by
  simp [h.txn, CommitParts.txn, commitTxn]

theorem layoutMissing (h : IsCommit s r txn parts) :
    .missing (.dfsLayoutRoot parts.commit.layoutRoot.id) ∈ txn.conditions := by
  simp [h.txn, CommitParts.txn, commitTxn]

theorem currentEquals (h : IsCommit s r txn parts) : .entityEquals (.dfsInode parts.current) ∈ txn.conditions := by
  simp [h.txn, CommitParts.txn, commitTxn]

end IsCommit

/-- How an inode is written. -/
inductive InodeWrite (s : System) (r : Request) (txn : MetaTxn) : InodeRecord → Prop
  | kept (current : InodeRecord) {updated : InodeRecord} (hcond : .entityEquals (.dfsInode current) ∈ txn.conditions)
      (hid : updated.inodeId = current.inodeId) (hhead : updated.headVersion = current.headVersion) :
      InodeWrite s r txn updated
  | fresh {inode} (hcond : .missing (.dfsInode inode.inodeId) ∈ txn.conditions)
      (hhead : inode.headVersion = none) : InodeWrite s r txn inode
  | head {parts} (h : IsCommit s r txn parts) : InodeWrite s r txn parts.updated

/-- The condition under which a lease is written: the one it was made from is still recorded. -/
def leaseCondition (inodeId : InodeId) : Option WriteLease → TxnCondition
  | some current => .entityEquals (.dfsWriteLease current)
  | none => .missing (.dfsWriteLease inodeId)

/-- How a write lease is written. -/
inductive LeaseWrite (tick : Tick) (s : System) (r : Request) (txn : MetaTxn) : WriteLease → Prop
  | created {codec request expiry} (hr : r = .create request)
      (hcond : .missing (.dfsWriteLease (createdLease codec request expiry).inodeId) ∈ txn.conditions) :
      LeaseWrite tick s r txn (createdLease codec request expiry)
  | acquired {request existing now expiry} (hr : r.leaseRequest = some request)
      (hexisting : ∀ lease, existing = some lease → lease.inodeId = request.inodeId)
      (hclock : ReflTransGen tick now s.clock)
      (hfree : sameOwner request (leaseBase request existing) ∨ (leaseBase request existing).expiresAtUnixMs ≤ now)
      (hcond : leaseCondition request.inodeId existing ∈ txn.conditions) :
      LeaseWrite tick s r txn (acquiredLease request existing now expiry)
  | renewed {request stored expiry} (hr : r = .renewWriteLease request)
      (hlease : LeaseFor request.current.inodeId request.current stored)
      (hcond : .entityEquals (.dfsWriteLease stored) ∈ txn.conditions) :
      LeaseWrite tick s r txn { stored with expiresAtUnixMs := max stored.expiresAtUnixMs expiry }

/-- How a copy is written. -/
inductive CopyWrite (s : System) (r : Request) (txn : MetaTxn) : CopyRecord → Prop
  | committed {parts item copy} (h : IsCommit s r txn parts)
      (hitem : item ∈ parts.accepted) (hcopy : copy ∈ item.copies) : CopyWrite s r txn copy
  | corrupted {copy} (hcond : .entityEquals (.dfsCopy copy) ∈ txn.conditions) :
      CopyWrite s r txn { copy with state := .corrupt }
  | repaired {request} (hr : r = .reportReplicationTask request) {ack : ReplicaAck}
      (hack : ack ∈ request.durableAcks) : CopyWrite s r txn (replicaAckCopyRecord ack request.claim.chunk)

/-- How a placement is written. -/
inductive PlacementWrite (s : System) (r : Request) (txn : MetaTxn) : PlacementRecord → Prop
  | committed {parts item placement} (h : IsCommit s r txn parts) (hitem : item ∈ parts.accepted)
      (hid : placement.chunkId = item.receipt.chunk.id) (hcopies : placement.copies = item.copies.map (·.id)) :
      PlacementWrite s r txn placement
  | kept (placement : PlacementRecord) {updated : PlacementRecord}
      (hcond : .entityEquals (.dfsPlacement placement) ∈ txn.conditions)
      (hid : updated.chunkId = placement.chunkId) (hcopies : placement.copies ⊆ updated.copies) :
      PlacementWrite s r txn updated

/-- The recorded result carries the digest. -/
def CarriesDigest (result : OperationResult) (digest : Digest) : Prop :=
  (∃ inner, result = .dfsNamespace digest inner) ∨ ∃ claim, result = .dfsReplicationClaim digest claim

/-- The result that a request of a digested kind records: one that carries the digest of the request. -/
def RecordWrite (service : DfsService) (r : Request) (txn : MetaTxn) (result : OperationResult) : Prop :=
  txn.operation = r.operation → ∀ d, r.digested = some d →
    ∃ digest, service.Digests d digest ∧ CarriesDigest result digest

/-- What the mutations of the service write. -/
inductive Writes (service : DfsService) (tick : Tick) (s : System) (r : Request) (txn : MetaTxn) :
    TxnMutation → Prop
  | dentry (dentry : Dentry) : Writes service tick s r txn (.put (.dfsDentry dentry))
  | inode {inode} (h : InodeWrite s r txn inode) : Writes service tick s r txn (.put (.dfsInode inode))
  | lease {lease} (h : LeaseWrite tick s r txn lease) : Writes service tick s r txn (.put (.dfsWriteLease lease))
  | chunk {parts item} (h : IsCommit s r txn parts)
      (hitem : item ∈ parts.accepted) : Writes service tick s r txn (.put (.dfsChunk item.receipt.chunk))
  | copy {copy} (h : CopyWrite s r txn copy) : Writes service tick s r txn (.put (.dfsCopy copy))
  | placement {placement} (h : PlacementWrite s r txn placement) :
      Writes service tick s r txn (.put (.dfsPlacement placement))
  | task (task : ReplicationTask) : Writes service tick s r txn (.put (.dfsReplicationTask task))
  | config (config : ReplicationConfig) : Writes service tick s r txn (.put (.dfsReplicationConfig config))
  | version {parts} (h : IsCommit s r txn parts) :
      Writes service tick s r txn (.put (.dfsFileVersion parts.commit.fileVersion))
  | layout {parts} (h : IsCommit s r txn parts) :
      Writes service tick s r txn (.put (.dfsLayoutRoot parts.commit.layoutRoot))
  | unlink (key : DentryKey) : Writes service tick s r txn (.delete (.dfsDentry key))
  | record {result} (h : RecordWrite service r txn result) :
      Writes service tick s r txn (.recordRequestOutcome ⟨txn.request, txn.operation, result⟩)

variable {service : DfsService} {tick : Tick} {s : System} {r : Request} {txn : MetaTxn}

theorem Writes.recordOf {outcome} (hreq : outcome.request = txn.request)
    (hop : outcome.operation = txn.operation) (h : RecordWrite service r txn outcome.result) :
    Writes service tick s r txn (.recordRequestOutcome outcome) := by
  obtain ⟨request, operation, result⟩ := outcome
  cases hreq
  cases hop
  exact .record h

theorem recordWrite_of_namespace {d inner} (hd : r.digested = some d) (hdigest : service.Digests d digest) :
    RecordWrite service r txn (.dfsNamespace digest inner) := by
  intro _ d' hd'
  cases hd.symm.trans hd'
  exact ⟨digest, hdigest, .inl ⟨inner, rfl⟩⟩

theorem recordWrite_of_claim {request claim} (hdigest : service.Digests (.claimReplicationTask request) digest) :
    RecordWrite service (.claimReplicationTask request) txn (.dfsReplicationClaim digest claim) := by
  rintro _ _ ⟨⟩
  exact ⟨digest, hdigest, .inr ⟨claim, rfl⟩⟩

theorem recordWrite_of_undigested {result} (hd : txn.operation = r.operation → r.digested = none) :
    RecordWrite service r txn result := by
  intro hop d hd'
  rw [hd hop] at hd'
  cases hd'

/-! ## Renames -/

section Rename

variable {base : MetaTxn} {oldParent newParent : InodeRecord} {same moving replacing : Bool} {oldNow newNow : UInt64}

theorem mem_mutations_pushParent :
    mutation ∈ (pushParentNamespaceChange base parent delta now).mutations ↔
      mutation ∈ base.mutations ∨ mutation = .put (.dfsInode (changedParent parent delta now)) := by
  simp [pushParentNamespaceChange]

theorem mem_conditions_renameParents {condition} (h : condition ∈ base.conditions) :
    condition ∈ (renameParents base oldParent newParent same moving replacing oldNow newNow).conditions := by
  unfold renameParents
  split <;> simp [pushParentNamespaceChange, h]

theorem oldParent_mem_renameParents :
    .entityEquals (.dfsInode oldParent) ∈
      (renameParents base oldParent newParent same moving replacing oldNow newNow).conditions := by
  unfold renameParents
  split <;> simp [pushParentNamespaceChange]

theorem newParent_mem_renameParents :
    .entityEquals (.dfsInode newParent) ∈
      (renameParents base oldParent newParent false moving replacing oldNow newNow).conditions := by
  simp [renameParents, pushParentNamespaceChange]

/-- A rename touches the parents it compares. -/
theorem mem_mutations_renameParents
    (h : mutation ∈ (renameParents base oldParent newParent same moving replacing oldNow newNow).mutations) :
    mutation ∈ base.mutations ∨ ∃ parent delta now, mutation = .put (.dfsInode (changedParent parent delta now)) ∧
      .entityEquals (.dfsInode parent) ∈
        (renameParents base oldParent newParent same moving replacing oldNow newNow).conditions := by
  cases same with
  | true =>
    rw [renameParents, if_pos rfl, mem_mutations_pushParent] at h
    exact h.imp_right fun he => ⟨_, _, _, he, oldParent_mem_renameParents⟩
  | false =>
    rw [renameParents, if_neg Bool.false_ne_true, mem_mutations_pushParent, mem_mutations_pushParent, or_assoc] at h
    rcases h with h | h | h
    · exact .inl h
    · exact .inr ⟨_, _, _, h, oldParent_mem_renameParents⟩
    · exact .inr ⟨_, _, _, h, newParent_mem_renameParents⟩

@[simp] theorem renameParents_request :
    (renameParents base oldParent newParent same moving replacing oldNow newNow).request = base.request := by
  unfold renameParents
  split <;> rfl

@[simp] theorem renameParents_operation :
    (renameParents base oldParent newParent same moving replacing oldNow newNow).operation = base.operation := by
  unfold renameParents
  split <;> rfl

end Rename

/-! ## Receipts and reports -/

/-- What an accepted receipt writes. -/
inductive ReceiptWrite (item : AcceptedReceipt) : TxnMutation → Prop
  | chunk : ReceiptWrite item (.put (.dfsChunk item.receipt.chunk))
  | copy {copy} (h : copy ∈ item.copies) : ReceiptWrite item (.put (.dfsCopy copy))
  | placement {placement} (hid : placement.chunkId = item.receipt.chunk.id)
      (hcopies : placement.copies = item.copies.map (·.id)) : ReceiptWrite item (.put (.dfsPlacement placement))
  | task (task : ReplicationTask) : ReceiptWrite item (.put (.dfsReplicationTask task))

theorem receiptWrite_of_mem {replication}
    (h : mutation ∈ receiptMutations replication item.receipt item.copies item.now) : ReceiptWrite item mutation := by
  unfold receiptMutations at h
  simp only [mem_append, mem_singleton, mem_map] at h
  rcases h with ((rfl | ⟨copy, hcopy, rfl⟩) | rfl) | h
  · exact .chunk
  · exact .copy hcopy
  · exact .placement rfl rfl
  · split at h
    · cases h
    · rw [mem_singleton] at h
      exact h ▸ .task _

theorem ReceiptWrite.writes {parts} (h : ReceiptWrite item mutation) (hcommit : IsCommit s r txn parts)
    (hitem : item ∈ parts.accepted) : Writes service tick s r txn mutation := by
  cases h with
  | chunk => exact .chunk hcommit hitem
  | copy hcopy => exact .copy (.committed hcommit hitem hcopy)
  | placement hid hcopies => exact .placement (.committed hcommit hitem hid hcopies)
  | task task => exact .task task

/-- The copies of a placement stay in the merged list. -/
theorem subset_mergeCopies (copies : List CopyId) (accepted : List CopyRecord) :
    copies ⊆ mergeCopies copies accepted := by
  unfold mergeCopies
  induction accepted generalizing copies with
  | nil => exact List.Subset.refl _
  | cons copy rest ih =>
    refine List.Subset.trans ?_ (ih _)
    show copies ⊆ if copy.id ∈ copies then copies else copies ++ [copy.id]
    split
    · exact List.Subset.refl _
    · exact subset_append_left _ _

/-- A report writes copies and a placement that lists at least the old copies. -/
theorem Reported.writes {request placement source mutations} (h : Reported request placement source mutations)
    (hr : r = .reportReplicationTask request) (hplacement : .entityEquals (.dfsPlacement placement) ∈ txn.conditions)
    (hsource : .entityEquals (.dfsCopy source) ∈ txn.conditions) (hm : mutation ∈ mutations) :
    (∃ copy, mutation = .put (.dfsCopy copy) ∧ CopyWrite s r txn copy) ∨
      ∃ updated, mutation = .put (.dfsPlacement updated) ∧ PlacementWrite s r txn updated := by
  cases h with
  | sourceInvalid health =>
    simp only [mem_cons, not_mem_nil, or_false] at hm
    rcases hm with rfl | rfl
    · exact .inl ⟨_, rfl, .corrupted hsource⟩
    · exact .inr ⟨_, rfl, .kept _ hplacement rfl (List.Subset.refl _)⟩
  | retry => cases hm
  | completed =>
    simp only [mem_append, mem_map, mem_singleton] at hm
    rcases hm with ⟨copy, ⟨ack, hack, rfl⟩, rfl⟩ | rfl
    · exact .inl ⟨_, rfl, .repaired hr hack⟩
    · exact .inr ⟨_, rfl, .kept _ hplacement rfl (subset_mergeCopies _ _)⟩

/-! ## All transactions -/

/-- A parent that a namespace change touches. -/
theorem writes_parent (h : .entityEquals (.dfsInode parent) ∈ txn.conditions) :
    Writes service tick s r txn (.put (.dfsInode (changedParent parent delta now))) := .inode (.kept _ h rfl rfl)

/-- An inode that gets another link count. -/
theorem writes_relinked {inode links} (h : .entityEquals (.dfsInode inode) ∈ txn.conditions) :
    Writes service tick s r txn (.put (.dfsInode (relinkedInode inode links now))) := .inode (.kept _ h rfl rfl)

/-- **Every mutation of a transaction of the service is one of these.** -/
theorem Issued.writes (h : Issued service tick s r txn) (hm : mutation ∈ txn.mutations) :
    Writes service tick s r txn mutation := by
  -- except for a rename, the mutations are listed
  cases h with (try simp only [initializeNamespaceTxn, replicationConfigTxn, createTxn, newEntryTxn, linkTxn, removeTxn,
    renameNoopTxn, inodeMetadataTxn, leaseTxn, syncTxn, commitTxn, blockedTxn, waitingTxn, claimTxn, reportTxn,
    corruptionTxn,
    emptyNamespaceTxn, mem_mutations_pushParent, mem_append, mem_flatMap, mem_map, mem_cons,
    not_mem_nil, or_false, false_or] at hm)
  | namespaceRoot r =>
    rcases hm with rfl | rfl
    · exact .inode (.fresh (by simp [initializeNamespaceTxn, rootInode]) rfl)
    · exact .record (recordWrite_of_undigested (fun hop => by cases r <;> cases hop))
  | replicationConfig r =>
    rcases hm with rfl | rfl
    · exact .config _
    · exact .record (recordWrite_of_undigested (fun hop => by cases r <;> first | rfl | cases hop))
  | create hdigest hparent =>
    rcases hm with rfl | rfl | rfl | rfl | rfl
    · exact writes_parent (by simp [createTxn, pushParentNamespaceChange])
    · exact .dentry _
    · exact .inode (.fresh (by simp [createTxn, pushParentNamespaceChange]) rfl)
    · exact .lease
        (.created rfl (by simp [createTxn, pushParentNamespaceChange, createdLease, createdInode, freshInode]))
    · exact .record (recordWrite_of_namespace rfl hdigest)
  | newEntry _ hd hdigest _ hentry =>
    rcases hm with rfl | rfl | rfl | rfl
    · exact writes_parent (by simp [newEntryTxn, pushParentNamespaceChange])
    · exact .dentry _
    · exact .inode (.fresh (by simp [newEntryTxn, pushParentNamespaceChange]) hentry.headVersion)
    · exact .record (recordWrite_of_namespace hd hdigest)
  | link hdigest =>
    rcases hm with rfl | rfl | rfl | rfl
    · exact writes_parent (by simp [linkTxn, pushParentNamespaceChange])
    · exact .dentry _
    · exact writes_relinked (by simp [linkTxn, pushParentNamespaceChange])
    · exact .record (recordWrite_of_namespace rfl hdigest)
  | remove _ hd hdigest =>
    rcases hm with ((rfl | rfl) | rfl) | rfl
    · exact .unlink _
    · exact writes_relinked (by simp [removeTxn, pushParentNamespaceChange])
    · exact writes_parent (by simp [removeTxn, pushParentNamespaceChange])
    · exact .record (recordWrite_of_namespace hd hdigest)
  | renameNoop hdigest =>
    exact hm ▸ .record (recordWrite_of_namespace rfl hdigest)
  | @rename request digest dentry inode oldParent newParent replaced renameNow oldNow newNow hdigest hold hnew hdentry
      hid hns hne hreplaced =>
    simp only [renameTxn, mem_append, mem_singleton] at hm
    rcases hm with hm | rfl
    · rcases mem_mutations_renameParents hm with hm | ⟨parent, delta, now, rfl, hcond⟩
      · simp only [renameEntriesTxn, mem_append, mem_cons, not_mem_nil, or_false] at hm
        rcases hm with (rfl | hm) | rfl | rfl
        · exact .unlink _
        · cases replaced with
          | none => cases hm
          | some target =>
            simp only [mem_cons, not_mem_nil, or_false] at hm
            rcases hm with rfl | rfl
            · exact .unlink _
            · obtain ⟨now, hinode⟩ := (hreplaced target rfl).inode
              rw [hinode]
              exact writes_relinked (mem_conditions_renameParents (by simp [renameEntriesTxn]))
        · exact .dentry _
        · exact .inode (.kept inode (mem_conditions_renameParents (by simp [renameEntriesTxn])) rfl rfl)
      · exact writes_parent hcond
    · exact .recordOf (by simp [renameTxn, renameEntriesTxn]) (by simp [renameTxn, renameEntriesTxn])
        (recordWrite_of_namespace rfl hdigest)
  | @metadata r current updated hop hr hsame =>
    rcases hm with rfl | rfl
    · exact .inode (.kept current (by simp [inodeMetadataTxn]) hsame.inodeId hsame.headVersion)
    · exact .record (recordWrite_of_undigested fun _ => hr)
  | @acquire r _ existing _ _ hr hexisting hclock hfree =>
    rcases hm with rfl | rfl
    · refine .lease (.acquired hr hexisting hclock hfree ?_)
      cases existing with
      | none => simp [leaseTxn, leaseCondition, acquiredLease, leaseBase]
      | some lease => simp [leaseTxn, leaseCondition]
    · exact .record (recordWrite_of_undigested (fun _ => by cases r <;> first | rfl | cases hr))
  | renew hlease =>
    rcases hm with rfl | rfl
    · exact .lease (.renewed rfl hlease (by simp [leaseTxn]))
    · exact .record (recordWrite_of_undigested fun _ => rfl)
  | @sync _ _ current =>
    rcases hm with rfl | rfl
    · exact .inode (.kept current (by simp [syncTxn]) rfl rfl)
    · exact .record (recordWrite_of_undigested fun _ => rfl)
  | @commit callerId commit digest current lease replication accepted attributes hdigest hchecked =>
    have hcommit : IsCommit s (.commitFileVersion callerId commit) _
        ⟨callerId, commit, digest, current, lease, replication, accepted, attributes⟩ := ⟨rfl, rfl, hchecked⟩
    rcases hm with ⟨item, hitem, hm⟩ | rfl | rfl | rfl | rfl
    · exact (receiptWrite_of_mem hm).writes hcommit hitem
    · exact .layout hcommit
    · exact .version hcommit
    · exact .inode (.head hcommit)
    · exact .record (recordWrite_of_namespace rfl hdigest)
  | @blocked request digest retired placement _ _ _ hdigest | @waiting request digest retired placement _ _ _ hdigest =>
    rcases hm with rfl | rfl | rfl
    · exact .placement (.kept placement (by simp [blockedTxn, waitingTxn]) rfl (List.Subset.refl _))
    · exact .task _
    · exact .record (recordWrite_of_claim hdigest)
  | claimed hdigest =>
    rcases hm with rfl | rfl
    · exact .task _
    · exact .record (recordWrite_of_claim hdigest)
  | @report request digest task placement chunk source replication decision hdigest hchunk hplacement hdecision =>
    rcases hm with hm | rfl | rfl
    · have hplacement : .entityEquals (.dfsPlacement placement) ∈
          (reportTxn request digest task placement chunk source replication decision).conditions := by
        simp [reportTxn]
      have hsource : .entityEquals (.dfsCopy source) ∈
          (reportTxn request digest task placement chunk source replication decision).conditions := by
        simp [reportTxn]
      rcases hdecision.writes rfl hplacement hsource hm with ⟨copy, rfl, hcopy⟩ | ⟨placement, rfl, hkept⟩
      · exact .copy hcopy
      · exact .placement hkept
    · exact .task _
    · exact .record (recordWrite_of_namespace rfl hdigest)
  | corruption hdigest hplacement hreported =>
    rcases hm with ⟨_, ⟨copy, hcopy, rfl⟩, rfl⟩ | rfl | rfl | rfl
    · exact .copy (.corrupted (mem_cons_of_mem _ (hreported copy hcopy)))
    · exact .placement (.kept _ (mem_cons_of_mem _ hplacement) rfl (List.Subset.refl _))
    · exact .task _
    · exact .record (recordWrite_of_namespace rfl hdigest)
  | corruptionEmpty hdigest =>
    exact hm ▸ .record (recordWrite_of_namespace rfl hdigest)

end Afs
