import Afs.Meta.Dfs.NamespaceServes

/-!
# `Meta.Dfs.FileServes` — the inode, lease and commit requests submit what they owe

The counterpart of `NamespaceServes` for the requests that change inodes, leases and file versions.
-/

namespace Afs

open Interaction Relation List

variable {σ : Setting} {r : Request} {s : Seen}

variable {callerId : String} {operationId : OperationId} {post : WriteLease → Seen → Prop} {receipt : ChunkReceipt}
  {replication : ReplicationConfig} {found attributes : InodeAttributes} {delta : CommitMetadataDelta}
  {current updated : InodeRecord}

/-! ## Inode metadata -/

section

variable (callerId : String) (operationId : OperationId) (operation : StoreOperation)

theorem readOnly_replayedInode : ReadOnly (replayedInode callerId operationId operation) := by
  refine readOnly_bind (readOnly_replayedOutcome _ _ _) fun found => ?_
  split <;> trivial

theorem readOnly_replayedLease : ReadOnly (replayedLease callerId operationId operation) := by
  refine readOnly_bind (readOnly_replayedOutcome _ _ _) fun found => ?_
  split <;> trivial

end

theorem readOnly_getInode (id : InodeId) : ReadOnly (getInode id) := by
  refine readOnly_bind (readOnly_lift _) fun _ => readOnly_bind (readOnly_read _) fun _ => ?_
  split
  · trivial
  · trivial
  · split <;> trivial

theorem observes_commitInodeMetadataMutation {operation}
    (hkey : r.key = ⟨callerId, operationId.value⟩) (hop : r.operation = operation)
    (hkind : operation ∈ [.dfsSetInodeAttributes, .dfsSetXattr, .dfsRemoveXattr]) (hd : r.digested = none)
    (hr : r.repairs = false) (hcurrent : current ∈ s.shown) (hsame : SameNode current updated)
    (hrewrites : Rewrites current updated) :
    Fulfils σ r (commitInodeMetadataMutation callerId operationId operation current updated) s := by
  unfold commitInodeMetadataMutation
  apply safe_bind.mpr
  refine observes_commit (fun s₁ hs₁ => ?_) fun _ s₁ _ => ?_
  · rw [← hkey, ← hop]
    refine .of_other hr (fun _ => .metadata (hop ▸ hkind) hd hsame) fun found hput => ?_
    simp [inodeMetadataTxn] at hput
    subst hput
    exact .inr ⟨current, hs₁.shown hcurrent, by simp [inodeMetadataTxn], hrewrites⟩
  · apply safe_lift.mpr
    exact fun _ _ => trivial

theorem observes_setInodeAttributes (request : SetInodeAttrRequest) (s : Seen) :
    Fulfils σ (.setInodeAttributes request) (setInodeAttributes request) s := by
  unfold setInodeAttributes
  simp only [safe_bind, safe_lift]
  intro _ _ _ _ _ _
  refine observes_replayOr (readOnly_replayedInode _ _ _) fun s₁ => ?_
  simp only [safe_bind, safe_lift, safe_check]
  refine observes_getInode fun current s₂ _ _ hmem => ?_
  intro _ _ _
  refine observes_now fun now s₃ hs₃ _ => ?_
  exact observes_commitInodeMetadataMutation rfl rfl (by simp) rfl rfl (hs₃.shown hmem) ⟨rfl, rfl, rfl, rfl, rfl⟩
    ⟨rfl, rfl, rfl, rfl, rfl⟩

theorem observes_setXattr (request : SetXattrRequest) (s : Seen) :
    Fulfils σ (.setXattr request) (setXattr request) s := by
  unfold setXattr
  simp only [safe_bind, safe_lift]
  intro _ _ _ _ _ _ name _
  refine observes_replayOr (readOnly_replayedInode _ _ _) fun s₁ => ?_
  simp only [safe_bind, safe_lift, safe_check]
  refine observes_getInode fun current s₂ _ _ hmem => ?_
  intro _ _ _ _ _
  exact observes_commitInodeMetadataMutation rfl rfl (by simp) rfl rfl hmem ⟨rfl, rfl, rfl, rfl, rfl⟩
    ⟨rfl, rfl, rfl, rfl, rfl⟩

theorem observes_removeXattr (request : RemoveXattrRequest) (s : Seen) :
    Fulfils σ (.removeXattr request) (removeXattr request) s := by
  unfold removeXattr
  simp only [safe_bind, safe_lift]
  intro _ _ _ _ _ _ name _
  refine observes_replayOr (readOnly_replayedInode _ _ _) fun s₁ => ?_
  simp only [safe_bind, safe_lift, safe_check]
  refine observes_getInode fun current s₂ _ _ hmem => ?_
  intro _ _ _ _
  exact observes_commitInodeMetadataMutation rfl rfl (by simp) rfl rfl hmem ⟨rfl, rfl, rfl, rfl, rfl⟩
    ⟨rfl, rfl, rfl, rfl, rfl⟩

/-! ## Leases -/

theorem recordedLease_inodeId {store : StoreState} {now : UInt64} {id : InodeId} {lease : WriteLease}
    (h : recordedLease (store.read now (.dfsWriteLease id)) = some lease) : lease.inodeId = id := by
  unfold recordedLease at h
  split at h
  · next he =>
    cases h
    exact StoreState.lease_of_get (StoreState.get_of_read rfl he)
  · cases h

/-- The lease a write is checked against is the recorded one, with the presented owner and epoch. -/
theorem observes_validateWriteLease {inodeId : InodeId} {presented : WriteLease}
    (h : ∀ lease s₁, σ.Later s s₁ → presented.ownerNodeId = callerId →
      (σ.genuine → LeaseFor inodeId presented lease) → post lease s₁) :
    Observes σ r post (validateWriteLease callerId inodeId presented) s := by
  unfold validateWriteLease
  simp only [safe_bind, safe_require, safe_check, safe_pure, Bool.and_eq_true, decide_eq_true_eq]
  rintro ⟨-, howner⟩
  refine observes_read fun snapshot s₁ hs₁ hsnapshot _ => ?_
  intro lease hlease
  refine observes_now fun now s₂ hs₂ _ => ?_
  rintro ⟨⟨⟨⟨-, hnode⟩, hsession⟩, hepoch⟩, -⟩
  refine h lease s₂ (hs₁.trans hs₂) howner fun hg => ?_
  rw [hsnapshot hg] at hlease
  exact ⟨recordedLease_inodeId hlease, hnode, hsession, hepoch⟩

/-- A lease request owes nothing but what `Issued` says. -/
theorem Owed.of_lease {txn} (hr : r.repairs = false) (hl : r.leavesInodes = true)
    (hissued : σ.genuine → σ.Evolving → Issued σ.service σ.tick s.state r txn) : Owed σ r s txn :=
  ⟨hissued, fun _ hrepairs => absurd (hr.symm.trans hrepairs) nofun, fun hfalse => absurd (hl.symm.trans hfalse) nofun⟩

/-- An acquisition compares the recorded expiry with a clock that the commit does not run behind. -/
theorem observes_acquireWriteLease {request}
    (hkey : r.key = ⟨request.callerId, request.operationId.value⟩) (hr : r.leaseRequest = some request)
    (hrepairs : r.repairs = false) (hinodes : r.leavesInodes = true) (s : Seen) :
    Fulfils σ r (acquireWriteLease request) s := by
  unfold acquireWriteLease
  simp only [safe_bind, safe_lift]
  intro _ _ _ _ _ _ _ _
  refine observes_replayOr (readOnly_replayedLease _ _ _) fun s₁ => ?_
  simp only [safe_bind, safe_lift, safe_check]
  refine observes_readOnly (readOnly_getInode _) fun inode s₂ _ => ?_
  intro _
  refine observes_read fun snapshot s₃ _ hsnapshot _ => observes_now fun now s₄ _ hnow => ?_
  intro hfree
  refine observes_readOnly (readOnly_leaseExpiry _) fun expiry s₅ hs₅ => ?_
  refine observes_commit (fun s₆ hs₆ => .of_lease hrepairs hinodes fun hg hevolves => ?_) fun _ _ _ _ _ => trivial
  rw [← hkey]
  refine .acquire hr (fun lease hlease => ?_) ?_ (by simpa using hfree)
  · rw [hsnapshot hg] at hlease
    exact recordedLease_inodeId hlease
  · rw [hnow hg]
    exact (hevolves _ _ ((hs₅.trans hs₆).rely hg)).clock

theorem observes_openWrite (request : LeaseRequest) (s : Seen) :
    Fulfils σ (.openWrite request) (openWrite request) s := by
  unfold openWrite
  simp only [safe_bind]
  refine observes_readOnly (readOnly_getInode _) fun inode s₁ _ => observes_read fun snapshot s₂ _ _ _ => ?_
  split
  · apply safe_bind.mpr
    refine observes_now fun now s₃ _ _ => ?_
    split
    · trivial
    · exact (observes_acquireWriteLease rfl rfl rfl rfl s₃).map _
  · exact (observes_acquireWriteLease rfl rfl rfl rfl s₂).map _

theorem observes_acquireFreshAuthority (request : LeaseRequest) (context : AuthorityContext) (inode : InodeRecord)
    (s : Seen) : Fulfils σ (.resolveAuthority request context) (acquireFreshAuthority request context inode) s := by
  unfold acquireFreshAuthority
  simp only [safe_bind, safe_check, safe_pure, implies_true]
  exact observes_acquireWriteLease rfl rfl rfl rfl s

theorem observes_resolveFreshWriteAuthority (request : LeaseRequest) (context : AuthorityContext) (s : Seen) :
    Fulfils σ (.resolveAuthority request context) (resolveFreshWriteAuthority request context) s := by
  unfold resolveFreshWriteAuthority
  simp only [safe_bind, safe_lift, safe_require, safe_check]
  intro _ _ _ _ _ _ _ _
  refine observes_readView fun view s₁ _ _ => ?_
  intro inode _ _
  split
  · simp [safe_bind, safe_lift, safe_pure]
  · split
    · simp only [safe_bind, safe_check]
      intro _
      refine observes_now fun now s₂ _ _ => ?_
      split
      · trivial
      · exact observes_acquireFreshAuthority request context inode s₂
    · exact observes_acquireFreshAuthority request context inode s₁

theorem observes_renewAttempts (request : RenewRequest) (attempts : Nat) (s : Seen) :
    Fulfils σ (.renewWriteLease request) (renewAttempts request attempts) s := by
  induction attempts generalizing s with
  | zero => trivial
  | succ attempts ih =>
    unfold renewAttempts
    simp only [safe_bind]
    refine observes_validateWriteLease fun stored s₁ _ _ hlease => ?_
    refine observes_readOnly (readOnly_leaseExpiry _) fun expiry s₂ _ => ?_
    refine observes_commit (fun s₃ _ => .of_lease rfl rfl fun hg _ => .renew (hlease hg)) fun reply s₃ _ => ?_
    split
    · exact ih s₃
    · apply safe_lift.mpr
      exact fun _ _ => trivial

theorem observes_renewWriteLease (request : RenewRequest) (s : Seen) :
    Fulfils σ (.renewWriteLease request) (renewWriteLease request) s := by
  unfold renewWriteLease
  simp only [safe_bind, safe_lift, safe_check]
  intro _ _ _ _ _ _ _ _ _
  exact observes_replayOr (readOnly_replayedLease _ _ _) fun s₁ => observes_renewAttempts request 16 s₁

theorem observes_syncInodeMetadata (callerId : String) (sync : SyncInodeMetadata) (s : Seen) :
    Fulfils σ (.syncInodeMetadata callerId sync) (syncInodeMetadata callerId sync) s := by
  unfold syncInodeMetadata
  simp only [safe_bind, safe_lift]
  intro _ _ _ _ _ _
  refine observes_replayOr (readOnly_replayedInode _ _ _) fun s₁ => ?_
  simp only [safe_bind, safe_lift, safe_check, safe_require]
  intro _
  refine observes_getInode fun current s₂ _ hcurrent hmem => ?_
  refine observes_validateWriteLease fun lease s₃ hs₃ _ hlease => ?_
  intro _ mtime _ ctime _
  refine observes_commit (fun s₄ hs₄ => ?_) fun _ _ _ _ _ => trivial
  refine .of_other rfl (fun hg => .sync (hcurrent hg) (hlease hg)) fun found hput => ?_
  simp [syncTxn] at hput
  subst hput
  exact .inr ⟨current, (hs₃.trans hs₄).shown hmem, by simp [syncTxn], ⟨rfl, rfl, rfl, rfl, rfl⟩⟩

/-! ## The replication config -/

/-- The config is written for any request. -/
theorem Owed.config (r : Request) : Owed σ r s (replicationConfigTxn σ.service.replication) where
  issued _ _ := .replicationConfig r
  repair _ _ := .config r _
  inodes _ := fun updated hput => by simp [replicationConfigTxn] at hput

theorem observes_initializeReplicationConfig {post : Unit → Seen → Prop} (h : ∀ s₁, s.shown ⊆ s₁.shown → post () s₁) :
    Observes σ r post (initializeReplicationConfig σ.service) s := by
  unfold initializeReplicationConfig
  simp only [safe_bind, safe_check]
  intro _ _
  refine observes_read fun _ s₁ hs₁ _ _ => ?_
  split
  · apply safe_check.mpr
    exact fun _ => h s₁ hs₁.shown
  · simp only [safe_bind]
    refine observes_commit (fun s₂ _ => .config r) fun _ s₂ hs₂ => observes_read fun _ s₃ hs₃ _ _ => ?_
    split
    · apply safe_check.mpr
      exact fun _ => h s₃ ((hs₁.shown.trans hs₂).trans hs₃.shown)
    · trivial

theorem observes_currentReplicationConfig {post : ReplicationConfig → Seen → Prop}
    (h : ∀ config s₁, s.shown ⊆ s₁.shown → post config s₁) :
    Observes σ r post (currentReplicationConfig σ.service) s := by
  unfold currentReplicationConfig
  apply safe_bind.mpr
  refine observes_read fun _ s₁ hs₁ _ _ => ?_
  split
  · refine safe_bind.mpr (safe_check.mpr ?_)
    exact fun _ => h _ s₁ hs₁.shown
  · apply safe_bind.mpr
    exact observes_initializeReplicationConfig fun s₂ hs₂ => h _ s₂ (hs₁.shown.trans hs₂)

/-! ## Commits -/

/-- Versions and layouts never change, so what was read of the base is still there when the commit is applied. -/
theorem observes_expectedBaseLayout {commit} {post : Option LayoutRoot → Seen → Prop}
    (h : ∀ base s₁, σ.Later s s₁ → (σ.genuine → σ.Evolving →
      ∀ s₂, σ.rely s₁.state s₂ → BaseLayout s₂.store commit.expectedHeadVersion base) → post base s₁) :
    Observes σ r post (expectedBaseLayout commit) s := by
  unfold expectedBaseLayout
  split
  · next versionId hhead =>
    rw [hhead] at h
    unfold getFileVersion
    simp only [safe_bind, safe_lift, safe_require, safe_pure]
    intro _ _
    refine observes_read fun snapshot₁ s₁ hs₁ hsnapshot₁ _ => ?_
    intro version hversion
    refine observes_read fun snapshot₂ s₂ hs₂ hsnapshot₂ _ => ?_
    intro layout hlayout
    split at hversion
    · next hv =>
      cases hversion
      split at hlayout
      · next hl =>
        cases hlayout
        refine h _ s₂ (hs₁.trans hs₂) fun hg hevolves s₃ hs₃ => ?_
        rw [hsnapshot₁ hg] at hv
        rw [hsnapshot₂ hg] at hl
        have hv' := StoreState.get_of_read rfl hv
        have hl' := StoreState.get_of_read rfl hl
        exact ⟨_, _, (hevolves _ _ (trans_of σ.rely (hs₂.rely hg) hs₃)).versions _ _ hv',
          (hevolves _ _ hs₃).layouts _ _ hl', rfl⟩
      · cases hlayout
    · cases hversion
  · next hhead =>
    rw [hhead] at h
    exact h none s (.refl s) fun _ _ _ _ => rfl

theorem nodup_concat {nodes : List String} {nodeId : String} (hnodes : nodes.Nodup) (hnew : nodeId ∉ nodes) :
    (nodes ++ [nodeId]).Nodup := by
  rw [← concat_eq_append]
  exact hnodes.concat hnew

theorem observes_tallyAcks {group} (acks : List ReplicaAck) {tally : AckTally}
    {post : AckTally → Seen → Prop} (hnodes : tally.nodes.Nodup)
    (h : ∀ found s₁, σ.Later s s₁ →
      found.copies = tally.copies ++ acks.map (replicaAckCopyRecord · receipt.chunk) →
      (∀ ack ∈ acks, ackProves receipt ack = true) → (tally.nodes ++ acks.map (·.nodeId)).Nodup → post found s₁) :
    Observes σ r post (tallyAcks receipt group acks tally) s := by
  induction acks generalizing tally s with
  | nil =>
    unfold tallyAcks
    apply safe_pure.mpr
    exact h tally s (.refl s) (by simp) nofun (by simpa using hnodes)
  | cons ack acks ih =>
    unfold tallyAcks
    simp only [safe_bind, safe_check, safe_require, decide_eq_true_eq]
    intro hproves hnew _ _
    refine observes_read fun snapshot s₁ hs₁ _ _ => observes_now fun now s₂ hs₂ _ => ?_
    intro session _ device _
    refine ih (nodup_concat hnodes hnew) fun found s₃ hs₃ hcopies hall hnodup => ?_
    refine h found s₃ ((hs₁.trans hs₂).trans hs₃) ?_ (forall_mem_cons.mpr ⟨hproves, hall⟩) (by simpa using hnodup)
    rw [hcopies]
    simp

@[simp] theorem readOnly_placementSnapshot (callerId : String) : ReadOnly (placementSnapshot callerId) := by
  unfold placementSnapshot
  repeat refine readOnly_bind (by simp) fun _ => ?_
  simp

/-- The copies of an accepted receipt are those of its acknowledgements, in order. -/
theorem observes_validateChunkReceipt {post : List CopyRecord → Seen → Prop}
    (h : ∀ s₁, σ.Later s s₁ → ReceiptChecked receipt →
      post (receipt.durableAcks.map (replicaAckCopyRecord · receipt.chunk)) s₁) :
    Observes σ r post (validateChunkReceipt callerId receipt replication) s := by
  unfold validateChunkReceipt
  simp only [safe_bind, safe_check, safe_require, safe_pure]
  intro _
  refine observes_readOnly (readOnly_placementSnapshot _) fun placement s₁ hs₁ => ?_
  intro _ group _
  refine observes_tallyAcks _ nodup_nil fun found s₂ hs₂ hcopies hproves hnodes => ?_
  intro _
  rw [hcopies]
  exact h s₂ (hs₁.trans hs₂) ⟨hproves, by simpa using hnodes⟩

/-- What the loop over the receipts answers: every receipt with its copies, and no chunk twice. -/
structure Validated (receipts : List ChunkReceipt) (seen : List ChunkId)
    (found : List (ChunkReceipt × List CopyRecord)) : Prop where
  receipts : found.map (·.1) = receipts
  copies : ∀ item ∈ found, item.2 = item.1.durableAcks.map (replicaAckCopyRecord · item.1.chunk)
  distinct : (found.map (·.1.chunk.id)).Nodup
  unseen : ∀ item ∈ found, item.1.chunk.id ∉ seen

theorem observes_validateReceipts (receipts : List ChunkReceipt) {seen}
    {post : List (ChunkReceipt × List CopyRecord) → Seen → Prop}
    (h : ∀ found s₁, σ.Later s s₁ → Validated receipts seen found →
      (∀ receipt ∈ receipts, ReceiptChecked receipt) → post found s₁) :
    Observes σ r post (validateReceipts callerId operationId replication receipts seen) s := by
  induction receipts generalizing seen s post with
  | nil =>
    unfold validateReceipts
    apply safe_pure.mpr
    exact h [] s (.refl s) ⟨rfl, nofun, .nil, nofun⟩ nofun
  | cons receipt receipts ih =>
    unfold validateReceipts
    simp only [safe_bind, safe_check, decide_eq_true_eq]
    intro _ hseen
    refine observes_validateChunkReceipt fun s₁ hs₁ hchecked => ih fun found s₂ hs₂ hfound hall => ?_
    refine h _ s₂ (hs₁.trans hs₂) ⟨?_, ?_, ?_, ?_⟩ (forall_mem_cons.mpr ⟨hchecked, hall⟩)
    · simp [hfound.receipts]
    · exact forall_mem_cons.mpr ⟨rfl, hfound.copies⟩
    · rw [map_cons, nodup_cons]
      refine ⟨?_, hfound.distinct⟩
      intro hmem
      obtain ⟨item, hitem, heq⟩ := mem_map.mp hmem
      exact hfound.unseen item hitem (heq ▸ mem_cons_self ..)
    · exact forall_mem_cons.mpr ⟨hseen, fun item hitem hin => hfound.unseen item hitem (mem_cons_of_mem _ hin)⟩

theorem observes_stampReceipts (items : List (ChunkReceipt × List CopyRecord))
    {post : List AcceptedReceipt → Seen → Prop}
    (h : ∀ accepted s₁, σ.Later s s₁ →
      accepted.map (fun item => (item.receipt, item.copies)) = items → post accepted s₁) :
    Observes σ r post (stampReceipts items) s := by
  induction items generalizing s post with
  | nil =>
    unfold stampReceipts
    apply safe_pure.mpr
    exact h [] s (.refl s) rfl
  | cons item items ih =>
    obtain ⟨receipt, copies⟩ := item
    unfold stampReceipts
    simp only [safe_bind]
    refine observes_now fun now s₁ hs₁ _ => ih fun accepted s₂ hs₂ hmap => ?_
    exact h _ s₂ (hs₁.trans hs₂) (by simp [hmap])

theorem Validated.accepted {receipts found} (h : Validated receipts [] found) {accepted}
    (hmap : accepted.map (fun item => (item.receipt, item.copies)) = found) : AcceptedAll receipts accepted := by
  subst hmap
  refine ⟨?_, ?_, ?_⟩
  · simpa [Function.comp_def] using h.receipts
  · intro item hitem
    exact h.copies _ (mem_map_of_mem hitem)
  · simpa [Function.comp_def] using h.distinct

theorem deltaTimes_nlink (h : deltaTimes delta attributes = .ok found) : found.nlink = attributes.nlink := by
  unfold deltaTimes at h
  split at h
  · cases h
    rfl
  · split at h
    · cases h
    · cases h
    · cases h
      rfl

theorem deltaPrivileges_nlink (h : deltaPrivileges delta attributes = .ok found) : found.nlink = attributes.nlink := by
  unfold deltaPrivileges at h
  split at h
  · split at h
    · cases h
    · dsimp only at h
      split at h
      · cases h
        rfl
      · cases h
        rfl
  · cases h
    rfl

/-- The records of a receipt are no inodes. -/
theorem not_mem_receiptMutations (replication : ReplicationConfig) (receipt : ChunkReceipt) (copies : List CopyRecord)
    (now : UInt64) (inode : InodeRecord) :
    .put (.dfsInode inode) ∉ receiptMutations replication receipt copies now := by
  by_cases hsatisfied : copies.length ≥ replication.desiredCopies.toNat <;> simp [receiptMutations, hsatisfied]

theorem observes_commitFileVersion (callerId : String) (commit : CommitFileVersion) (s : Seen) :
    Fulfils σ (.commitFileVersion callerId commit) (commitFileVersion σ.service callerId commit) s := by
  unfold commitFileVersion
  simp only [safe_bind, safe_lift]
  intro digest hdigest _ _ _ _ _ _ _ _ _ _ _ _ _ _
  refine observes_replayOr (readOnly_replayedNamespaceInode _ _ _ _) fun s₁ => ?_
  simp only [safe_bind, safe_lift, safe_check, Bool.and_eq_true, decide_eq_true_eq]
  refine observes_getInode fun current s₂ _ hcurrent hmem => ?_
  intro _
  refine observes_validateWriteLease fun lease s₃ hs₃ howner hlease => ?_
  rintro ⟨-, hhead⟩ hone
  refine observes_currentReplicationConfig fun replication s₄ hs₄ => ?_
  refine observes_expectedBaseLayout fun base s₅ hs₅ hbase => ?_
  refine observes_validateReceipts _ fun found s₆ hs₆ hfound hreceipts => ?_
  intro _ hextents attributes₁ hattr₁ attributes hattr
  refine observes_stampReceipts _ fun accepted s₇ hs₇ hmap => ?_
  refine observes_commit (fun s₈ hs₈ => ?_) fun _ _ _ _ _ => trivial
  have hlater := (hs₆.trans hs₇).trans hs₈
  refine ⟨fun hg hevolves => ?_, fun _ _ => .commit hreceipts, fun _ => ?_⟩
  · refine .commit hdigest
      ⟨hcurrent hg, hlease hg, howner, hhead, hone, hfound.accepted hmap, ?_, ?_⟩
    · exact ⟨base, hbase hg hevolves s₈.state (hlater.rely hg), hextents⟩
    · rw [deltaPrivileges_nlink hattr, deltaTimes_nlink hattr₁]
  · intro found hput
    simp [commitTxn, not_mem_receiptMutations] at hput
    subst hput
    have hknown := (hs₅.trans hlater).shown (hs₄ (hs₃.shown hmem))
    exact .inr ⟨current, hknown, by simp [commitTxn], ⟨rfl, rfl, rfl, rfl, rfl⟩⟩

end Afs
