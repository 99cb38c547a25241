import Afs.Meta.Dfs.Observes

/-!
# `Meta.Dfs.NamespaceServes` — the namespace requests submit what they owe

One lemma for every function of the service that reads or submits, each stated for an arbitrary postcondition, so
that a caller continues where the function answers. The facts an answer comes with are those the transaction needs
when it is applied: stored records sit under their own keys, the checks of the request passed, and the inodes the
transaction follows were shown.
-/

namespace Afs

open Interaction Relation StoreState

variable {σ : Setting} {r : Request} {s : Seen} {known : Set InodeRecord} {txn : MetaTxn}

variable {id : InodeId} {post : InodeRecord → Seen → Prop} {namespaceId : NamespaceId} {key : DentryKey}
  {request : RenameRequest} {requestKey : RequestKey} {operation : StoreOperation} {digest : Digest}
  {expiry now inodeNow parentNow : UInt64} {delta : Int} {lease : WriteLease}
    {parent inode source oldParent newParent : InodeRecord}
  {view : StoreState} {dentry : Dentry} {target : Option (Dentry × InodeRecord)}

/-! ## Reads -/

theorem observes_getInode (h : ∀ inode s₁, σ.Later s s₁ → (σ.genuine → inode.inodeId = id) →
      inode ∈ s₁.shown → post inode s₁) : Observes σ r post (getInode id) s := by
  unfold getInode
  simp only [safe_bind, safe_lift]
  intro _ _
  refine observes_read fun snapshot s₁ hs₁ hsnapshot hshown => ?_
  split
  · next inode he =>
    refine h inode s₁ hs₁ (fun hg => ?_) (hshown (.inl he))
    rw [hsnapshot hg] at he
    exact inodeId_of_get (get_of_read rfl he)
  · trivial
  · next he =>
    split
    · next hroot =>
      have hone : id = ⟨"1"⟩ := by
        cases id
        cases hroot
        rfl
      exact h _ s₁ hs₁ (fun _ => hone.symm) (hshown (.inr ⟨he, hone, _, rfl⟩))
    · trivial

section

variable (callerId : String) (operationId : OperationId) (operation : StoreOperation)

theorem readOnly_replayedOutcome : ReadOnly (replayedOutcome callerId operationId operation) := by
  refine readOnly_bind (readOnly_read _) fun snapshot => ?_
  split
  · trivial
  · exact readOnly_bind (readOnly_check _ _) fun _ => trivial

theorem readOnly_replayedNamespaceResult (digest : Digest) :
    ReadOnly (replayedNamespaceResult callerId operationId operation digest) := by
  refine readOnly_bind (readOnly_replayedOutcome _ _ _) fun found => ?_
  split
  · trivial
  · exact readOnly_bind (readOnly_lift _) fun _ => trivial

theorem readOnly_replayedNamespaceInode (digest : Digest) :
    ReadOnly (replayedNamespaceInode callerId operationId operation digest) := by
  refine readOnly_bind (readOnly_replayedNamespaceResult _ _ _ _) fun found => ?_
  split <;> trivial

theorem readOnly_replayedNamespaceInodeAndLease (digest : Digest) :
    ReadOnly (replayedNamespaceInodeAndLease callerId operationId operation digest) := by
  refine readOnly_bind (readOnly_replayedNamespaceResult _ _ _ _) fun found => ?_
  split <;> trivial

theorem readOnly_replayedNamespaceRename (digest : Digest) :
    ReadOnly (replayedNamespaceRename callerId operationId operation digest) := by
  refine readOnly_bind (readOnly_replayedNamespaceResult _ _ _ _) fun found => ?_
  split <;> trivial

end

/-! ## Parents -/

theorem inodeWrites_initializeNamespaceTxn (namespaceId : NamespaceId) :
    InodeWrites known (initializeNamespaceTxn namespaceId) := by
  intro updated hput
  simp only [initializeNamespaceTxn, List.mem_cons, TxnMutation.put.injEq, MetaEntity.dfsInode.injEq, reduceCtorEq,
    List.not_mem_nil, or_false] at hput
  subst hput
  exact .inl (by simp [initializeNamespaceTxn, rootInode])

/-- Changing the parent as it was shown. -/
theorem inodeWrites_push (htxn : InodeWrites known txn) (hparent : parent ∈ known) :
    InodeWrites known (pushParentNamespaceChange txn parent delta now) := by
  intro updated hput
  rcases List.mem_append.mp hput with hold | hnew
  · rcases htxn updated hold with hmissing | ⟨read, hread, hequals, hrewrites⟩
    · exact .inl (List.mem_append_left _ hmissing)
    · exact .inr ⟨read, hread, List.mem_append_left _ hequals, hrewrites⟩
  · cases List.mem_singleton.mp hnew
    exact .inr ⟨parent, hparent, List.mem_append_right _ (List.mem_singleton.mpr rfl), ⟨rfl, rfl, rfl, rfl, rfl⟩⟩

/-- Further mutations need only the conditions that are there. -/
theorem inodeWrites_append {mutations} (htxn : InodeWrites known txn)
    (hrest : ∀ updated, .put (.dfsInode updated) ∈ mutations → Covered known txn.conditions updated) :
    InodeWrites known { txn with mutations := txn.mutations ++ mutations } := by
  intro updated hput
  rcases List.mem_append.mp hput with hold | hnew
  · exact htxn updated hold
  · exact hrest updated hnew

theorem rewrites_relinkedInode (inode : InodeRecord) (nlink : UInt32) (now : UInt64) :
    Rewrites inode (relinkedInode inode nlink now) := ⟨rfl, rfl, rfl, rfl, rfl⟩

/-- The parent of a namespace change is a linked directory of the namespace. A missing root is made first. -/
theorem observes_directoryForMutation (hr : r.repairs = false)
    (h : ∀ parent s₁, s.shown ⊆ s₁.shown → (σ.genuine → ParentOf namespaceId id parent) → parent ∈ s₁.shown →
      post parent s₁) : Observes σ r post (directoryForMutation namespaceId id) s := by
  unfold directoryForMutation parentInode
  have hparent {s₁ : Seen} (hs₁ : s.shown ⊆ s₁.shown) : Observes σ r
      (fun parent s₂ => parent.kind = .directory ∧ parent.namespaceId = namespaceId → parent.attributes.nlink ≠ 0 →
        post parent s₂) (getInode id) s₁ := by
    refine observes_getInode fun parent s₂ hs₂ hid hmem hkind hlinked => ?_
    exact h parent s₂ (hs₁.trans hs₂.shown) (fun hg => ⟨hid hg, hkind.1, hkind.2, hlinked⟩) hmem
  simp only [safe_bind, safe_check, safe_pure, Bool.and_eq_true, decide_eq_true_eq]
  split
  · next hroot =>
    have hone : id = ⟨"1"⟩ := by
      cases id
      cases hroot
      rfl
    subst hone
    unfold ensureNamespaceRoot initializeNamespace
    simp only [safe_bind, safe_check, safe_pure]
    refine observes_read fun snapshot s₁ hs₁ _ _ => ?_
    split
    · apply safe_bind.mpr
      refine observes_commit (fun s₂ _ => .of_other hr (fun _ => .namespaceRoot r namespaceId)
        (inodeWrites_initializeNamespaceTxn namespaceId)) fun _ s₂ hs₂ => ?_
      exact (hparent (hs₁.shown.trans hs₂)).mono fun _ _ hpost _ => hpost
    · exact (hparent hs₁.shown).mono fun _ _ hpost _ => hpost
  · exact hparent subset_rfl

/-! ## Creating entries -/

theorem inodeWrites_createTxn (hparent : parent ∈ known) :
    InodeWrites known (createTxn requestKey digest key inode lease parent now) := by
  refine inodeWrites_append (inodeWrites_push nofun hparent) fun updated hput => .inl ?_
  simp at hput
  simp [pushParentNamespaceChange, hput]

theorem inodeWrites_newEntryTxn (hparent : parent ∈ known) :
    InodeWrites known (newEntryTxn requestKey operation digest key inode parent delta now) := by
  refine inodeWrites_append (inodeWrites_push nofun hparent) fun updated hput => .inl ?_
  simp at hput
  simp [pushParentNamespaceChange, hput]

theorem observes_retryableCreateParentDrift {parentId inodeId previous}
    {post : Option InodeRecord → Seen → Prop} (hr : r.repairs = false) (hnone : ∀ s₁, post none s₁)
    (hsome : ∀ parent s₁, (σ.genuine → ParentOf namespaceId parentId parent) → parent ∈ s₁.shown →
      post (some parent) s₁) :
    Observes σ r post (retryableCreateParentDrift namespaceId parentId key inodeId previous) s := by
  apply safe_bind.mpr
  refine observes_read fun _ s₁ _ _ _ => ?_
  split
  · exact hnone s₁
  apply safe_bind.mpr
  refine observes_read fun _ s₂ _ _ _ => ?_
  split
  · exact hnone s₂
  apply safe_bind.mpr
  refine observes_read fun _ s₃ _ _ _ => ?_
  split
  · exact hnone s₃
  apply safe_bind.mpr
  refine observes_directoryForMutation hr fun parent s₄ _ hparent hmem => ?_
  split
  · exact hsome parent s₄ hparent hmem
  · exact hnone s₄

section

variable {request : CreateFileRequest} (hdigest : σ.service.Digests (.create request) digest)

include hdigest

/-- One submission of `create`: a retry starts from a parent that was read again. -/
theorem observes_createAttempt {retry}
    (hretry : ∀ parent s₁, (σ.genuine → ParentOf request.namespaceId request.parentInodeId parent) → parent ∈ s₁.shown →
      Fulfils σ (.create request) (retry parent) s₁)
    (hparent : σ.genuine → ParentOf request.namespaceId request.parentInodeId parent) (hmem : parent ∈ s.shown) :
    Fulfils σ (.create request)
      (createAttempt request digest (createdInode σ.service.codec request)
        (createdLease σ.service.codec request expiry) retry parent) s := by
  unfold createAttempt
  simp only [safe_bind]
  refine observes_now fun now s₁ hs₁ _ => observes_commit (fun s₂ hs₂ => ?_) fun reply s₂ _ => ?_
  · exact .of_other rfl (fun hg => .create hdigest (hparent hg)) (inodeWrites_createTxn ((hs₁.trans hs₂).shown hmem))
  apply safe_lift.mpr
  intro outcome _
  split
  · trivial
  · split
    · refine observes_replayOr (readOnly_replayedNamespaceInodeAndLease _ _ _ _) fun s₃ => ?_
      apply safe_bind.mpr
      exact observes_retryableCreateParentDrift rfl (fun _ => trivial) hretry
    · trivial

theorem observes_createAttempts (retries : Nat)
    (hparent : σ.genuine → ParentOf request.namespaceId request.parentInodeId parent) (hmem : parent ∈ s.shown) :
    Fulfils σ (.create request)
      (createAttempts request digest (createdInode σ.service.codec request)
        (createdLease σ.service.codec request expiry)
        retries parent) s := by
  induction retries generalizing parent s with
  | zero =>
    refine observes_createAttempt hdigest (fun _ _ _ _ => ?_) hparent hmem
    trivial
  | succ retries ih => exact observes_createAttempt hdigest (fun _ _ => ih) hparent hmem

end

theorem readOnly_leaseExpiry (seconds : UInt64) : ReadOnly (leaseExpiry seconds) :=
  readOnly_bind (readOnly_check _ _) fun _ => readOnly_bind readOnly_now fun _ => trivial

theorem observes_create (request : CreateFileRequest) (s : Seen) :
    Fulfils σ (.create request) (create σ.service.codec request) s := by
  unfold create
  simp only [safe_bind, safe_lift]
  intro digest hdigest _ _ _ _ _ _ _ _ _ _
  refine observes_replayOr (readOnly_replayedNamespaceInodeAndLease _ _ _ _) fun s₁ => ?_
  simp only [safe_bind, safe_lift]
  intro _ _
  refine observes_readOnly (readOnly_leaseExpiry _) fun expiry s₂ _ => ?_
  refine observes_directoryForMutation rfl fun parent s₃ _ hparent hmem => ?_
  exact observes_createAttempts hdigest 63 hparent hmem

theorem observes_mkdir (request : MkdirRequest) (s : Seen) :
    Fulfils σ (.mkdir request) (mkdir σ.service.codec request) s := by
  unfold mkdir
  simp only [safe_bind, safe_lift]
  intro digest hdigest _ _ _ _ _ _ _ _
  refine observes_replayOr (readOnly_replayedNamespaceInode _ _ _ _) fun s₁ => ?_
  simp only [safe_bind, safe_lift]
  intro _ _
  refine observes_directoryForMutation rfl fun parent s₂ _ hparent hmem => ?_
  intro _ _
  refine observes_now fun now s₃ hs₃ _ => observes_commit (fun s₄ hs₄ => ?_) fun _ _ _ _ _ => trivial
  refine .of_other rfl (fun hg => ?_) (inodeWrites_newEntryTxn ((hs₃.trans hs₄).shown hmem))
  exact .newEntry (by simp [Request.operation]) rfl hdigest (hparent hg) ⟨rfl, rfl, rfl, .inl ⟨rfl, rfl, rfl, rfl⟩⟩

theorem observes_mknod (request : MknodRequest) (s : Seen) :
    Fulfils σ (.mknod request) (mknod σ.service.codec request) s := by
  unfold mknod
  simp only [safe_bind, safe_lift]
  intro digest hdigest _ _ _ _ _ _ _ _
  refine observes_replayOr (readOnly_replayedNamespaceInode _ _ _ _) fun s₁ => ?_
  simp only [safe_bind, safe_lift]
  intro _ _
  refine observes_directoryForMutation rfl fun parent s₂ _ hparent hmem => ?_
  simp only [safe_check]
  intro _ _ _ _
  refine observes_now fun now s₃ hs₃ _ => observes_now fun parentNow s₄ hs₄ _ => ?_
  refine observes_commit (fun s₅ hs₅ => ?_) fun _ _ _ _ _ => trivial
  refine .of_other rfl (fun hg => ?_) (inodeWrites_newEntryTxn (((hs₃.trans hs₄).trans hs₅).shown hmem))
  exact .newEntry (by simp [Request.operation]) rfl hdigest (hparent hg)
    ⟨rfl, rfl, rfl, .inr ⟨by rintro ⟨⟩, rfl, rfl⟩⟩

theorem observes_symlink (request : SymlinkRequest) (s : Seen) :
    Fulfils σ (.symlink request) (symlink σ.service.codec request) s := by
  unfold symlink
  simp only [safe_bind, safe_lift]
  intro digest hdigest _ _ _ _ _ _ _ _
  refine observes_replayOr (readOnly_replayedNamespaceInode _ _ _ _) fun s₁ => ?_
  simp only [safe_bind, safe_lift]
  intro _ _ _ _
  refine observes_directoryForMutation rfl fun parent s₂ _ hparent hmem => ?_
  intro _ _
  refine observes_now fun now s₃ hs₃ _ => observes_commit (fun s₄ hs₄ => ?_) fun _ _ _ _ _ => trivial
  refine .of_other rfl (fun hg => ?_) (inodeWrites_newEntryTxn ((hs₃.trans hs₄).shown hmem))
  exact .newEntry (by simp [Request.operation]) rfl hdigest (hparent hg)
    ⟨rfl, rfl, rfl, .inr ⟨by rintro ⟨⟩, rfl, rfl⟩⟩

/-! ## Entries and inodes of a view -/

theorem dentryFromView_key (h : dentryFromView view key = some dentry) : dentry.key = key := by
  unfold dentryFromView at h
  split at h
  · next he =>
    cases h
    exact key_of_get (get_of_read rfl he)
  · cases h

/-- An inode of a view has the id it was looked up by and is in the namespace. -/
theorem inodeFromView_spec (h : inodeFromView view namespaceId id = .ok inode) :
    inode.inodeId = id ∧ inode.namespaceId = namespaceId := by
  unfold inodeFromView at h
  split at h
  · next he =>
    split at h
    · next hns =>
      cases h
      exact ⟨inodeId_of_get (get_of_read rfl he), hns⟩
    · cases h
  · cases h
  · split at h
    · next hroot =>
      cases h
      cases id
      cases hroot
      exact ⟨rfl, rfl⟩
    · cases h

/-- An inode found in a view was shown with it. -/
theorem mem_shownInodes_of_inodeFromView (h : inodeFromView view namespaceId id = .ok inode) :
    inode ∈ shownInodes .readView (.ok view) := by
  have hid := (inodeFromView_spec h).1
  unfold inodeFromView at h
  split at h
  · next he =>
    split at h
    · cases h
      apply Or.inl
      rw [hid]
      exact get_of_read rfl he
    · cases h
  · cases h
  · next he =>
    split at h
    · next hroot =>
      cases h
      refine Or.inr ⟨?_, _, rfl⟩
      have hone : id = ⟨"1"⟩ := by
        cases id
        cases hroot
        rfl
      rw [hone] at he
      exact (entity_read (q := .dfsInode ⟨"1"⟩) rfl fun _ => rfl).symm.trans he
    · cases h

theorem inodeWrites_linkTxn (hinode : inode ∈ known) (hparent : parent ∈ known) :
    InodeWrites known (linkTxn requestKey digest key inode parent inodeNow parentNow) := by
  refine inodeWrites_append (inodeWrites_push nofun hparent) fun updated hput => .inr ⟨inode, hinode, ?_, ?_⟩
  · simp [pushParentNamespaceChange]
  · simp at hput
    subst hput
    exact rewrites_relinkedInode ..

theorem observes_link (request : LinkRequest) (s : Seen) :
    Fulfils σ (.link request) (link σ.service.codec request) s := by
  unfold link
  simp only [safe_bind, safe_lift]
  intro digest hdigest _ _ _ _ _ _ _ _ _ _
  refine observes_replayOr (readOnly_replayedNamespaceInode _ _ _ _) fun s₁ => ?_
  simp only [safe_bind, safe_lift]
  intro _ _
  refine observes_directoryForMutation rfl fun parent s₂ _ hparent hmem => ?_
  intro _ _
  refine observes_readView fun view s₃ hs₃ hshown => ?_
  intro inode hinode
  obtain ⟨hid, hns⟩ := inodeFromView_spec hinode
  simp only [safe_check, decide_eq_true_eq]
  intro hkind hlinked _
  refine observes_now fun inodeNow s₄ hs₄ _ => observes_now fun parentNow s₅ hs₅ _ => ?_
  refine observes_commit (fun s₆ hs₆ => ?_) fun _ _ _ _ _ => trivial
  have hlater := (hs₄.trans hs₅).trans hs₆
  exact .of_other rfl (fun hg => .link hdigest (hparent hg) hid hns hkind hlinked)
    (inodeWrites_linkTxn (hlater.shown (hshown (mem_shownInodes_of_inodeFromView hinode)))
      ((hs₃.trans hlater).shown hmem))

/-! ## Removing and moving entries -/

theorem checkRemovable_kind {directory} (h : checkRemovable view namespaceId directory inode = .ok ()) :
    directory = true ↔ inode.kind = .directory := by
  unfold checkRemovable at h
  cases directory with
  | true =>
    simp only [if_true] at h
    split at h
    · cases h
    · next hkind => exact ⟨fun _ => not_not.mp hkind, fun _ => rfl⟩
  | false =>
    simp only [Bool.false_eq_true, if_false] at h
    split at h
    · cases h
    · next hkind => exact ⟨nofun, fun hk => absurd hk hkind⟩

theorem inodeWrites_removeTxn {directory} (hinode : inode ∈ known) (hparent : parent ∈ known) :
    InodeWrites known (removeTxn requestKey operation digest directory key dentry inode parent inodeNow parentNow) := by
  refine inodeWrites_append (inodeWrites_push (fun updated hput => ?_) hparent) fun updated hput => by simp at hput
  simp at hput
  subst hput
  exact .inr ⟨inode, hinode, by simp, rewrites_relinkedInode ..⟩

/-- `unlink` and `rmdir` differ in the operation they are recorded under. -/
theorem observes_removeNamespaceEntry (request : UnlinkRequest) (directory : Bool)
    (hkey : r.key = ⟨request.callerId, request.operationId.value⟩)
    (hop : r.operation = if directory then .dfsRmdir else .dfsUnlink)
    (hd : r.digested = some (.unlink request)) (hr : r.repairs = false) (s : Seen) :
    Fulfils σ r (removeNamespaceEntry σ.service.codec request directory) s := by
  unfold removeNamespaceEntry
  simp only [safe_bind, safe_lift]
  intro digest hdigest _ _ _ _ _ _ _ _
  refine observes_replayOr (readOnly_replayedNamespaceInode _ _ _ _) fun s₁ => ?_
  simp only [safe_bind, safe_lift]
  intro _ _
  refine observes_directoryForMutation hr fun parent s₂ _ hparent hmem => ?_
  intro _ _
  refine observes_readView fun view s₃ hs₃ hshown => ?_
  apply safe_require.mpr
  intro dentry hdentry inode hinode _ hremovable _ _
  obtain ⟨hid, hns⟩ := inodeFromView_spec hinode
  refine observes_now fun inodeNow s₄ hs₄ _ => observes_now fun parentNow s₅ hs₅ _ => ?_
  refine observes_commit (fun s₆ hs₆ => ?_) fun _ _ _ _ _ => trivial
  have hlater := (hs₄.trans hs₅).trans hs₆
  rw [← hkey, ← hop]
  refine .of_other hr (fun hg => ?_) (inodeWrites_removeTxn
    (hlater.shown (hshown (mem_shownInodes_of_inodeFromView hinode))) ((hs₃.trans hlater).shown hmem))
  exact .remove hop hd hdigest (hparent hg) (dentryFromView_key hdentry) hid hns (checkRemovable_kind hremovable)

theorem checkReplaceable_kind {target} (h : checkReplaceable view namespaceId source target = .ok ()) :
    source.kind = .directory ↔ target.kind = .directory := by
  unfold checkReplaceable at h
  by_cases hs : source.kind = .directory <;> by_cases ht : target.kind = .directory <;> simp_all

theorem observes_recordRenameNoop (hdigest : σ.service.Digests (.rename request) digest) :
    Fulfils σ (.rename request)
      (recordRenameNoop ⟨request.callerId, request.operationId.value⟩ digest dentry inode) s := by
  apply safe_bind.mpr
  refine observes_commit (fun s₁ _ => ?_) fun _ s₁ _ => ?_
  · exact .of_other rfl (fun _ => .renameNoop hdigest) fun updated hput => by simp [renameNoopTxn] at hput
  · apply safe_lift.mpr
    exact fun _ _ => trivial

theorem readOnly_newParentNow (request : RenameRequest) (oldNow : UInt64) :
    ReadOnly (newParentNow request oldNow) := by
  unfold newParentNow
  split
  · exact readOnly_pure _
  · exact readOnly_now

/-- The target of a rename, read from the same view as the source. -/
structure TargetOf (view : StoreState) (request : RenameRequest) (source : InodeRecord) (dentry : Dentry)
    (inode : InodeRecord) : Prop where
  key : dentry.key = renameNewKey request
  found : inodeFromView view request.namespaceId dentry.inodeId = .ok inode
  other : inode.inodeId ≠ source.inodeId
  kind : source.kind = .directory ↔ inode.kind = .directory

/-- What a rename replaces was shown, and is put as the next record of it. -/
def ReplacedShown (known : Set InodeRecord) (replaced : Option Replaced) : Prop :=
  ∀ target, replaced = some target → target.original ∈ known ∧ Rewrites target.original target.inode

theorem inodeWrites_renameTxn {oldKey newKey replaced renameNow oldNow newNow} (hsource : source ∈ known)
    (hold : oldParent ∈ known) (hnew : newParent ∈ known) (hreplaced : ReplacedShown known replaced) :
    InodeWrites known
      (renameTxn requestKey digest oldKey newKey dentry source replaced oldParent newParent renameNow
        oldNow newNow) := by
  have hentries : InodeWrites known (renameEntriesTxn requestKey oldKey newKey dentry source replaced renameNow) := by
    intro updated hput
    have hmoved : Covered known (renameEntriesTxn requestKey oldKey newKey dentry source replaced renameNow).conditions
        (renamedInode source renameNow) :=
      .inr ⟨source, hsource, by simp [renameEntriesTxn], ⟨rfl, rfl, rfl, rfl, rfl⟩⟩
    cases replaced with
    | none =>
      simp [renameEntriesTxn] at hput
      subst hput
      exact hmoved
    | some target =>
      simp [renameEntriesTxn] at hput
      rcases hput with rfl | rfl
      · obtain ⟨hmem, hrewrites⟩ := hreplaced target rfl
        exact .inr ⟨target.original, hmem, by simp [renameEntriesTxn], hrewrites⟩
      · exact hmoved
  refine inodeWrites_append ?_ fun updated hput => by simp at hput
  unfold renameParents
  split
  · exact inodeWrites_push hentries hold
  · exact inodeWrites_push (inodeWrites_push hentries hold) hnew

theorem observes_replacedTarget {post : Option Replaced → Seen → Prop}
    (hshown : shownInodes .readView (.ok view) ⊆ s.shown)
    (htarget : ∀ dentry inode, target = some (dentry, inode) → TargetOf view request source dentry inode)
    (h : ∀ replaced s₁, σ.Later s s₁ →
      (∀ found, replaced = some found → Replaces (renameNewKey request) source found) →
      ReplacedShown s₁.shown replaced → post replaced s₁) :
    Observes σ r post (replacedTarget view request.namespaceId target) s := by
  cases target with
  | none =>
    apply safe_pure.mpr
    refine h none s (.refl s) ?_ ?_
    all_goals
      intro found hfound
      cases hfound
  | some pair =>
    obtain ⟨dentry, inode⟩ := pair
    obtain ⟨hkey, hinode, hother, hkind⟩ := htarget dentry inode rfl
    obtain ⟨hid, hns⟩ := inodeFromView_spec hinode
    unfold replacedTarget
    simp only [safe_bind, safe_lift, safe_pure]
    refine observes_now fun now s₁ hs₁ _ => ?_
    intro original horiginal
    -- the view has not changed, so the inode is read as it was
    have hsame : original = inode := by
      rw [hid, hinode] at horiginal
      cases horiginal
      rfl
    subst hsame
    refine h _ s₁ hs₁ ?_ ?_
    · rintro found hfound
      cases hfound
      exact ⟨hkey, hid, hns, hother, hkind, _, rfl⟩
    · rintro found hfound
      cases hfound
      exact ⟨hs₁.shown (hshown (mem_shownInodes_of_inodeFromView hinode)), rewrites_relinkedInode ..⟩

theorem observes_submitRename (hdigest : σ.service.Digests (.rename request) digest)
    (hold : σ.genuine → ParentOf request.namespaceId request.oldParentInodeId oldParent) (holdMem : oldParent ∈ s.shown)
    (hnew : σ.genuine → ParentOf request.namespaceId request.newParentInodeId newParent) (hnewMem : newParent ∈ s.shown)
    (hdentry : dentry.key = renameOldKey request)
    (hsource : inodeFromView view request.namespaceId dentry.inodeId = .ok source)
    (hshown : shownInodes .readView (.ok view) ⊆ s.shown) (hne : renameOldKey request ≠ renameNewKey request)
    (htarget : ∀ dentry inode, target = some (dentry, inode) → TargetOf view request source dentry inode) :
    Fulfils σ (.rename request) (submitRename request digest view dentry source target oldParent newParent) s := by
  obtain ⟨hid, hns⟩ := inodeFromView_spec hsource
  unfold submitRename
  simp only [safe_bind]
  refine observes_now fun renameNow s₁ hs₁ _ => ?_
  refine observes_replacedTarget (hshown.trans hs₁.shown) htarget fun replaced s₂ hs₂ hreplaced hreplacedShown => ?_
  refine observes_now fun oldNow s₃ hs₃ _ => observes_readOnly (readOnly_newParentNow _ _) fun newNow s₄ hs₄ => ?_
  refine observes_commit (fun s₅ hs₅ => ?_) fun _ _ _ => ?_
  · have hrest := (hs₃.trans hs₄).trans hs₅
    have hlater := (hs₁.trans hs₂).trans hrest
    refine .of_other rfl (fun hg => .rename hdigest (hold hg) (hnew hg) hdentry hid hns hne hreplaced) ?_
    refine inodeWrites_renameTxn (hlater.shown (hshown (mem_shownInodes_of_inodeFromView hsource)))
      (hlater.shown holdMem) (hlater.shown hnewMem) fun found hfound => ?_
    exact ⟨hrest.shown (hreplacedShown found hfound).1, (hreplacedShown found hfound).2⟩
  · apply safe_lift.mpr
    exact fun _ _ => trivial

theorem observes_rename (request : RenameRequest) (s : Seen) :
    Fulfils σ (.rename request) (rename σ.service.codec request) s := by
  unfold rename
  simp only [safe_bind, safe_lift]
  intro digest hdigest _ _ _ _ _ _ _ _ _ _
  refine observes_replayOr (readOnly_replayedNamespaceRename _ _ _ _) fun s₁ => ?_
  simp only [safe_bind, safe_lift]
  intro _ _ _ _
  refine observes_directoryForMutation rfl fun oldParent s₂ _ hold holdMem => ?_
  refine observes_directoryForMutation rfl fun newParent s₃ hs₃ hnew hnewMem => ?_
  intro _ _ _ _
  refine observes_readView fun view s₄ hs₄ hshown => ?_
  have holdMem := hs₄.shown (hs₃ holdMem)
  have hnewMem := hs₄.shown hnewMem
  apply safe_require.mpr
  intro dentry hdentry source hsource _ _
  have hkey := dentryFromView_key hdentry
  split
  · exact observes_recordRenameNoop hdigest
  · next hne =>
    refine safe_bind.mpr (safe_check.mpr ?_)
    intro _
    split
    · exact observes_submitRename hdigest hold holdMem hnew hnewMem hkey hsource hshown hne (by simp)
    · next target htarget =>
      simp only [safe_bind, safe_lift, safe_check]
      intro _ inode hinode _ _
      split
      · exact observes_recordRenameNoop hdigest
      · next hother =>
        refine safe_bind.mpr (safe_lift.mpr ?_)
        intro _ hreplaceable
        apply observes_submitRename hdigest hold holdMem hnew hnewMem hkey hsource hshown hne
        rintro dentry' inode' hsame
        cases hsame
        exact ⟨dentryFromView_key htarget, hinode, hother, checkReplaceable_kind hreplaceable⟩

end Afs
