import Afs.Meta.Dfs.Footprint
import Afs.Meta.Dfs.Tree

/-!
# `Meta.Dfs.TreeSteps` — every transaction of the service is a step of the forest

For each shape of transaction, the forest of the store after it is applied is an operation of `Afs.Lib.Forest` on the
forest before, and the conditions of the transaction are the side conditions of that operation. `Issued.linked` puts
the shapes together: under the counting conditions of the run, the namespace stays a tree with the link counts its
entries make.
-/

namespace Afs

open DirTree Function List TxnMutation

variable {mutations : List TxnMutation} {inode parent : InodeRecord} {key : DentryKey} {request : RequestKey}
  {digest : Digest} {inodeNow parentNow oldNow newNow renameNow : UInt64} {dentry : Dentry} {replaced : Option Replaced}

/-! ## Mutations on the forest -/

/-- What a mutation does to the forest. The service deletes no inode. -/
noncomputable def TxnMutation.onForest (f : Forest DentryKey InodeId NodeLabel) :
    TxnMutation → Forest DentryKey InodeId NodeLabel
  | .put (.dfsDentry dentry) => setEntry f dentry.key (some dentry.inodeId)
  | .put (.dfsInode inode) => setNode f inode.inodeId inode.label inode.attributes.nlink.toNat
  | .delete (.dfsDentry key) => setEntry f key none
  | _ => f

theorem onForest_putDentry (f : Forest DentryKey InodeId NodeLabel) (key : DentryKey) (id : InodeId) :
    onForest f (.put (.dfsDentry ⟨key, id⟩)) = setEntry f key (some id) := rfl

theorem onForest_deleteDentry (f : Forest DentryKey InodeId NodeLabel) (key : DentryKey) :
    onForest f (.delete (.dfsDentry key)) = setEntry f key none := rfl

/-- The forest as a function of the entities. -/
def forestOf (get : MetaKey → Option MetaEntity) : Forest DentryKey InodeId NodeLabel where
  entry key := entryTarget (get (.dfsDentry key))
  label id := entityLabel (get (.dfsInode id))
  links id := entityLinks (get (.dfsInode id))

open Classical in
/-- A change under one key, seen through a projection of the entities. -/
theorem project_ite {κ α : Type} (get : MetaKey → Option MetaEntity) (project : Option MetaEntity → α)
    (mk : κ → MetaKey) (hinj : ∀ a b, mk a = mk b ↔ a = b) (k k' : κ) (e : Option MetaEntity) :
    project (if mk k = mk k' then e else get (mk k')) =
      update (fun i => project (get (mk i))) k (project e) k' := by
  by_cases hk : k' = k
  · simp [hk]
  · simp [hk, hinj, Ne.symm hk]

theorem forestOf_effect (get : MetaKey → Option MetaEntity) (mutation : TxnMutation)
    (hdelete : ∀ id, mutation ≠ .delete (.dfsInode id)) :
    forestOf (fun key => mutation.effect key (get key)) = mutation.onForest (forestOf get) := by
  have hentry := project_ite get entryTarget MetaKey.dfsDentry (by simp)
  have hlabel := project_ite get entityLabel MetaKey.dfsInode (by simp)
  have hlinks := project_ite get entityLinks MetaKey.dfsInode (by simp)
  cases mutation with
  | put entity =>
    cases entity with
    | dfsDentry dentry =>
      simp only [effect, onForest, forestOf, setEntry, entityKey, reduceCtorEq, if_false]
      congr 1
      funext key
      exact hentry dentry.key key _
    | dfsInode inode =>
      simp only [effect, onForest, forestOf, setNode, entityKey, reduceCtorEq, if_false]
      congr 1
      · funext id
        exact hlabel inode.inodeId id _
      · funext id
        exact hlinks inode.inodeId id _
    | _ => simp [effect, onForest, forestOf, entityKey]
  | delete key =>
    cases key with
    | dfsDentry key =>
      simp only [effect, onForest, forestOf, setEntry, reduceCtorEq, if_false]
      congr 1
      funext key'
      exact hentry key key' none
    | dfsInode id => exact absurd rfl (hdelete id)
    | _ => simp [effect, onForest, forestOf]
  | recordRequestOutcome outcome => rfl

/-- **The forest after a transaction** is the old one passed through its mutations. -/
theorem forest_applyMutations (s : StoreState) (hdelete : ∀ id, .delete (.dfsInode id) ∉ mutations) :
    (s.applyMutations mutations).forest = mutations.foldl onForest s.forest := by
  have hview : (s.applyMutations mutations).forest =
      forestOf fun key => mutations.foldl (fun old mutation => mutation.effect key old) (s.get key) := by
    simp only [StoreState.forest, StoreState.get_applyMutations]
    rfl
  rw [hview, show s.forest = forestOf s.get from rfl]
  clear hview
  generalize s.get = get
  induction mutations generalizing get with
  | nil => rfl
  | cons mutation rest ih =>
    simp only [foldl_cons]
    rw [ih (fun id hid => hdelete id (mem_cons_of_mem _ hid)) fun key => mutation.effect key (get key),
      forestOf_effect get mutation fun id hid => hdelete id (hid ▸ mem_cons_self ..)]

/-! ## Link counts -/

theorem addLinks_zero (n : UInt32) : (addLinks n 0).toNat = n.toNat := by
  have := n.toNat_lt
  simp [addLinks]
  omega

theorem addLinks_one {n} (h : n ≠ .maxValue) : (addLinks n 1).toNat = n.toNat + 1 := by
  have := UInt32.toNat_lt_of_ne_max h
  simp [addLinks]
  omega

theorem addLinks_neg_one (n : UInt32) : (addLinks n (-1)).toNat = n.toNat - 1 := by
  simp [addLinks]

/-- **The counting condition of a run**: the link counts `create` starts with are of the given kind, and a request
    that may raise a link count does not submit its transaction when that count is at its maximum. -/
def linksCounted (createLinks : UInt32 → Prop) : RunCondition := fun r s op =>
  (∀ request, r = .create request → createLinks request.attributes.nlink) ∧
    ∀ txn id inode, op = .commit txn → r.raisesLinksOf = some id → s.store.get (.dfsInode id) = some (.dfsInode inode) →
      inode.attributes.nlink ≠ .maxValue

/-! ## Records that transactions read -/

/-- An inode that is stored as it was read. -/
structure StoredInode (f : Forest DentryKey InodeId NodeLabel) (inode : InodeRecord) : Prop where
  label : f.label inode.inodeId = some inode.label
  links : f.links inode.inodeId = inode.attributes.nlink.toNat

variable {s : StoreState} {now : UInt64} {txn : MetaTxn} {outcome : RequestOutcome}
  {f : Forest DentryKey InodeId NodeLabel} {R : Nat → Nat → Prop}

section

variable (h : s.Applies now txn outcome)

include h

theorem storedInode_of_applies (hmem : .entityEquals (.dfsInode inode) ∈ txn.conditions) :
    StoredInode s.forest inode :=
  ⟨forest_label (h.entityEquals hmem), forest_links (h.entityEquals hmem)⟩

theorem entry_of_applies (dentry : Dentry)
    (hmem : .entityEquals (.dfsDentry dentry) ∈ txn.conditions) : s.forest.entry dentry.key = some dentry.inodeId :=
  forest_entry.mpr (h.entityEquals hmem)

theorem entry_of_missing (key : DentryKey)
    (hmem : .missing (.dfsDentry key) ∈ txn.conditions) : s.forest.entry key = none := by
  show entryTarget (s.get (.dfsDentry key)) = none
  rw [h.missing hmem]
  rfl

theorem label_of_missing (id : InodeId)
    (hmem : .missing (.dfsInode id) ∈ txn.conditions) : s.forest.label id = none := by
  show entityLabel (s.get (.dfsInode id)) = none
  rw [h.missing hmem]
  rfl

end

/-- The unchanged parent of a namespace change may hold the entry. -/
theorem holds_of_parent (hparent : ParentOf key.namespaceId key.parentInodeId parent) (hstored : StoredInode f parent) :
    Holds namespaceShape f key := by
  have hid : parent.inodeId = namespaceShape.parentOf key := hparent.inodeId
  refine ⟨parent.label, hid ▸ hstored.label, label_isDir.mpr hparent.kind, hparent.namespaceId.symm, ?_⟩
  rw [← hid, hstored.links]
  have hpos := hparent.linked
  have hne : parent.attributes.nlink.toNat ≠ 0 := fun h0 => hpos (UInt32.toNat_inj.mp h0)
  omega

/-- A touched parent changes its link count only. -/
theorem onForest_parent (hlabel : f.label parent.inodeId = some parent.label) (delta : Int) (stamp : UInt64) :
    onForest f (.put (.dfsInode (changedParent parent delta stamp))) =
      setLinks f parent.inodeId (addLinks parent.attributes.nlink delta).toNat :=
  setNode_of_label hlabel _

theorem onForest_parent_zero (hstored : StoredInode f parent) (stamp : UInt64) :
    onForest f (.put (.dfsInode (changedParent parent 0 stamp))) = f := by
  rw [onForest_parent hstored.label, addLinks_zero, ← hstored.links, setLinks_self]

/-- An inode that is rewritten in place. -/
theorem onForest_sameNode {current} (updated : InodeRecord) (hstored : StoredInode f current)
    (hid : updated.inodeId = current.inodeId) (hns : updated.namespaceId = current.namespaceId)
    (hkind : updated.kind = current.kind) (hlinks : updated.attributes.nlink = current.attributes.nlink) :
    onForest f (.put (.dfsInode updated)) = f := by
  have hlabel : updated.label = current.label := by rw [InodeRecord.label, InodeRecord.label, hkind, hns]
  have hset : onForest f (.put (.dfsInode updated)) =
      setLinks f current.inodeId current.attributes.nlink.toNat := by
    show setNode f updated.inodeId updated.label updated.attributes.nlink.toNat = _
    rw [hid, hlabel, hlinks]
    exact setNode_of_label hstored.label _
  rw [hset, ← hstored.links, setLinks_self]

/-! ## New entries -/

/-- The inode id of a new entry is not that of the root. -/
theorem namespaceInodeId_ne_root (codec : Codec) (callerId : String) (operationId : OperationId) :
    codec.namespaceInodeId callerId operationId ≠ namespaceShape.root := by
  intro h
  have hvalue := congrArg (fun id : InodeId => id.value.toList.head?) h
  simp [Codec.namespaceInodeId, namespaceShape] at hvalue

open Classical in
/-- A new entry with its inode, under a parent that counts it if it is a directory. -/
theorem onForest_newEntry {delta stamp} (hparent : parent.inodeId = key.parentInodeId)
    (hstored : StoredInode f parent) (hdelta : (addLinks parent.attributes.nlink delta).toNat =
      parent.attributes.nlink.toNat + if inode.kind = .directory then 1 else 0) :
    onForest (onForest
        (onForest f (.put (.dfsInode (changedParent parent delta stamp))))
        (.put (.dfsDentry ⟨key, inode.inodeId⟩))) (.put (.dfsInode inode)) =
      addLeaf namespaceShape f key inode.inodeId inode.label inode.attributes.nlink.toNat := by
  have hcount : (addLinks parent.attributes.nlink delta).toNat =
      f.links (namespaceShape.parentOf key) + if namespaceShape.isDir inode.label then 1 else 0 := by
    rw [hdelta, ← hstored.links, hparent]
    by_cases hd : inode.kind = .directory
    · rw [if_pos hd, if_pos (label_isDir.mpr hd)]
      rfl
    · rw [if_neg hd, if_neg fun hk => hd (label_isDir.mp hk)]
      rfl
  rw [onForest_parent hstored.label, hcount, hparent]
  congr

/-- A transaction that adds an entry with its inode. -/
theorem linked_newEntry {delta stamp rest} (h : Linked namespaceShape R s.forest)
    (happlies : s.Applies now txn outcome) (hparent : ParentOf key.namespaceId key.parentInodeId parent)
    (hmutations : txn.mutations = .put (.dfsInode (changedParent parent delta stamp)) ::
      .put (.dfsDentry ⟨key, inode.inodeId⟩) :: .put (.dfsInode inode) :: rest)
    (hrest : ∀ f, rest.foldl onForest f = f)
    (hconditions : [.entityEquals (.dfsInode parent), .missing (.dfsDentry key), .missing (.dfsInode inode.inodeId)] ⊆
      txn.conditions)
    (hdelta : (addLinks parent.attributes.nlink delta).toNat =
      parent.attributes.nlink.toNat + if inode.kind = .directory then 1 else 0)
    (hroot : inode.inodeId ≠ namespaceShape.root) (hns : inode.namespaceId = key.namespaceId)
    (hdir : inode.kind = .directory → inode.attributes.nlink = 2)
    (hleaf : inode.kind ≠ .directory → 0 < inode.attributes.nlink.toNat ∧ R inode.attributes.nlink.toNat 1) :
    Linked namespaceShape R (txn.mutations.foldl onForest s.forest) := by
  have hstored : StoredInode s.forest parent := storedInode_of_applies happlies (hconditions (by simp))
  have hentry := entry_of_missing happlies key (hconditions (by simp))
  have hfree := label_of_missing happlies inode.inodeId (hconditions (by simp))
  have htwo : inode.kind = .directory → inode.attributes.nlink.toNat = 2 := fun hd => by rw [hdir hd]; rfl
  rw [hmutations, foldl_cons, foldl_cons, foldl_cons, hrest,
    onForest_newEntry hparent.inodeId hstored hdelta]
  refine h.leafAdded hentry hfree hroot (holds_of_parent hparent hstored) hns.symm ?_ ?_ ?_
  · by_cases hd : inode.kind = .directory
    · rw [htwo hd]
      omega
    · exact (hleaf hd).1
  · exact fun hd => htwo (label_isDir.mp hd)
  · exact fun hd => (hleaf fun hk => hd (label_isDir.mpr hk)).2

/-! ## Links and removals -/

/-- Two inodes of different kind are different nodes. -/
theorem ne_of_kind {other} (hinode : StoredInode f inode) (hother : StoredInode f other)
    (hkind : inode.kind = .directory) (hkind' : other.kind ≠ .directory) : inode.inodeId ≠ other.inodeId := by
  intro he
  have hlabel := hinode.label.symm.trans (he ▸ hother.label)
  have hdir := label_isDir.mpr hkind
  rw [Option.some.inj hlabel] at hdir
  exact hkind' (label_isDir.mp hdir)

theorem onForest_relinked (hlabel : f.label inode.inodeId = some inode.label) (links : UInt32) (stamp : UInt64) :
    onForest f (.put (.dfsInode (relinkedInode inode links stamp))) =
      setLinks f inode.inodeId links.toNat :=
  setNode_of_label hlabel _

theorem linked_link (hR : LinkRel R) (h : Linked namespaceShape R s.forest)
    (happlies : s.Applies now (linkTxn request digest key inode parent inodeNow parentNow) outcome)
    (hparent : ParentOf key.namespaceId key.parentInodeId parent) (hns : inode.namespaceId = key.namespaceId)
    (hkind : inode.kind ≠ .directory) (hmax : inode.attributes.nlink ≠ .maxValue) :
    Linked namespaceShape R
      ((linkTxn request digest key inode parent inodeNow parentNow).mutations.foldl onForest
        s.forest) := by
  have hstored : StoredInode s.forest parent :=
    storedInode_of_applies happlies (by simp [linkTxn, pushParentNamespaceChange])
  have hinode : StoredInode s.forest inode :=
    storedInode_of_applies happlies (by simp [linkTxn, pushParentNamespaceChange])
  have hentry := entry_of_missing happlies key (by simp [linkTxn, pushParentNamespaceChange])
  have hcount : (inode.attributes.nlink.saturatingAdd 1).toNat = s.forest.links inode.inodeId + 1 := by
    have hlt := UInt32.toNat_lt_of_ne_max hmax
    rw [hinode.links]
    simp
    omega
  have hforest : (linkTxn request digest key inode parent inodeNow parentNow).mutations.foldl
      onForest s.forest = addName s.forest key inode.inodeId := by
    simp only [linkTxn, pushParentNamespaceChange, nil_append, cons_append, foldl_cons,
      foldl_nil]
    rw [onForest_parent_zero hstored, onForest_putDentry,
      onForest_relinked (f := setEntry s.forest key (some inode.inodeId)) hinode.label, hcount]
    rfl
  rw [hforest]
  exact h.nameAdded hR hentry (holds_of_parent hparent hstored) hinode.label
    (fun hd => hkind (label_isDir.mp hd)) hns.symm

theorem linked_remove (hR : LinkRel R) (h : Linked namespaceShape R s.forest) {operation directory}
    (happlies : s.Applies now (removeTxn request operation digest directory key dentry inode parent inodeNow parentNow)
      outcome)
    (hparent : ParentOf key.namespaceId key.parentInodeId parent) (hdentry : dentry.key = key)
    (hid : inode.inodeId = dentry.inodeId) (hns : inode.namespaceId = key.namespaceId)
    (hdir : directory = true ↔ inode.kind = .directory) :
    Linked namespaceShape R
      ((removeTxn request operation digest directory key dentry inode parent inodeNow parentNow).mutations.foldl
        onForest s.forest) := by
  have hstored : StoredInode s.forest parent :=
    storedInode_of_applies happlies (by simp [removeTxn, pushParentNamespaceChange])
  have hinode : StoredInode s.forest inode :=
    storedInode_of_applies happlies (by simp [removeTxn, pushParentNamespaceChange])
  have hentry : s.forest.entry key = some inode.inodeId := by
    have he := entry_of_applies happlies dentry (by simp [removeTxn, pushParentNamespaceChange])
    rw [hdentry, ← hid] at he
    exact he
  have hpid : parent.inodeId = namespaceShape.parentOf key := hparent.inodeId
  simp only [removeTxn, pushParentNamespaceChange, nil_append, cons_append, foldl_cons,
    foldl_nil]
  rw [onForest_deleteDentry, onForest_relinked (f := setEntry s.forest key none) hinode.label,
    onForest_parent (f := setLinks (setEntry s.forest key none) _ _) hstored.label]
  by_cases hd : inode.kind = .directory
  · -- `rmdir`: the directory is empty, so it is not its own parent
    have htrue := hdir.mpr hd
    subst htrue
    have hdirn : IsDir namespaceShape s.forest inode.inodeId := ⟨_, hinode.label, label_isDir.mpr hd⟩
    have hempty : Empty namespaceShape s.forest inode.inodeId := by
      refine empty_of_directoryIsEmpty h key.namespaceId true ?_ ?_
      · rw [hinode.label, InodeRecord.label, hd, hns]
        rfl
      · exact happlies.directoryEmpty (by simp [removeTxn, pushParentNamespaceChange])
    have hne : parent.inodeId ≠ inode.inodeId := by
      intro he
      rw [hempty key (hpid.symm.trans he)] at hentry
      cases hentry
    have hforest : setLinks (setLinks (setEntry s.forest key none) inode.inodeId
        (removedCount true inode).toNat) parent.inodeId (addLinks parent.attributes.nlink (-1)).toNat =
        removeDir namespaceShape s.forest key inode.inodeId := by
      rw [addLinks_neg_one, ← hstored.links, setLinks_comm hne.symm, hpid]
      rfl
    have hlinked := h.dirRemoved hentry hdirn hempty
    rw [← hforest] at hlinked
    exact hlinked
  · have hfalse : directory = false := by
      cases directory with
      | false => rfl
      | true => exact absurd (hdir.mp rfl) hd
    subst hfalse
    have hne : parent.inodeId ≠ inode.inodeId := ne_of_kind hstored hinode hparent.kind hd
    have hforest : setLinks (setLinks (setEntry s.forest key none) inode.inodeId
        (removedCount false inode).toNat) parent.inodeId (addLinks parent.attributes.nlink 0).toNat =
        removeName s.forest key inode.inodeId := by
      have hcount : (removedCount false inode).toNat = s.forest.links inode.inodeId - 1 := by
        rw [hinode.links]
        exact UInt32.toNat_saturatingSub _ _
      rw [addLinks_zero, ← hstored.links, hcount]
      exact setLinks_links (f := setEntry s.forest key none) hne.symm _
    have hlinked := h.nameRemoved hR hentry hinode.label fun hk => hd (label_isDir.mp hk)
    rw [← hforest] at hlinked
    exact hlinked

/-! ## Renames -/

/-- The link counts of the parents after a rename: one directory changes by `alone`, two by `loses` and `gains`. -/
noncomputable def recount (f : Forest DentryKey InodeId NodeLabel) (oldParent newParent : InodeRecord) (same : Prop)
    [Decidable same] (alone loses gains : Int) : Forest DentryKey InodeId NodeLabel :=
  if same then setLinks f oldParent.inodeId (addLinks oldParent.attributes.nlink alone).toNat
  else setLinks (setLinks f oldParent.inodeId (addLinks oldParent.attributes.nlink loses).toNat) newParent.inodeId
    (addLinks newParent.attributes.nlink gains).toNat

/-- The parents after a rename, on top of what the rename does to the entries. -/
theorem foldl_renameParents {base oldParent newParent same moving replacing}
    (hold : (base.mutations.foldl onForest f).label oldParent.inodeId =
      some oldParent.label) (hnew : same = false →
      (base.mutations.foldl onForest f).label newParent.inodeId = some newParent.label) :
    (renameParents base oldParent newParent same moving replacing oldNow newNow).mutations.foldl
        onForest f =
      recount (base.mutations.foldl onForest f) oldParent newParent (same = true)
        (if replacing then -1 else 0) (if moving then -1 else 0)
        ((if moving then 1 else 0) - (if replacing then 1 else 0)) := by
  unfold renameParents recount
  split
  · simp only [pushParentNamespaceChange, foldl_append, foldl_cons, foldl_nil]
    exact onForest_parent hold _ _
  case isFalse hsame =>
    simp only [pushParentNamespaceChange, foldl_append, foldl_cons, foldl_nil]
    rw [onForest_parent hold]
    exact onForest_parent (f := setLinks _ _ _) (hnew (by simpa using hsame)) _ _

/-- What a rename reads and finds unchanged. -/
structure RenameReads (s : StoreState) (oldKey newKey : DentryKey) (source oldParent newParent : InodeRecord) : Prop
    where
  ne : oldKey ≠ newKey
  entry : s.forest.entry oldKey = some source.inodeId
  storedSource : StoredInode s.forest source
  fits : newKey.namespaceId = source.namespaceId
  storedOld : StoredInode s.forest oldParent
  storedNew : StoredInode s.forest newParent
  oldParentOf : ParentOf oldKey.namespaceId oldKey.parentInodeId oldParent
  newParentOf : ParentOf newKey.namespaceId newKey.parentInodeId newParent
  path : source.kind = .directory →
    ReachesAvoiding namespaceShape s.forest.entry source.inodeId newKey.parentInodeId
  notMax : newParent.attributes.nlink ≠ .maxValue

section Rename

variable {oldKey newKey : DentryKey} {source oldParent newParent : InodeRecord}

section

variable (h : RenameReads s oldKey newKey source oldParent newParent)

include h

theorem RenameReads.isDir : IsDir namespaceShape s.forest source.inodeId ↔ source.kind = .directory := by
  constructor
  · rintro ⟨l, hl, hd⟩
    rw [h.storedSource.label, Option.some.injEq] at hl
    exact label_isDir.mp (hl ▸ hd)
  · exact fun hk => ⟨_, h.storedSource.label, label_isDir.mpr hk⟩

theorem RenameReads.oldLinks : s.forest.links oldKey.parentInodeId = oldParent.attributes.nlink.toNat := by
  rw [← h.oldParentOf.inodeId, h.storedOld.links]

theorem RenameReads.newLinks : s.forest.links newKey.parentInodeId = newParent.attributes.nlink.toNat := by
  rw [← h.newParentOf.inodeId, h.storedNew.links]

/-- The link counts of the parents after a rename to a free name. -/
theorem RenameReads.move_free :
    recount (moved s.forest oldKey newKey source.inodeId) oldParent newParent
        (oldKey.parentInodeId = newKey.parentInodeId) 0 (if source.kind = .directory then -1 else 0)
        ((if source.kind = .directory then 1 else 0) - 0) =
      move namespaceShape s.forest oldKey newKey source.inodeId := by
  have hkeep : ∀ id, setLinks (moved s.forest oldKey newKey source.inodeId) id (s.forest.links id) =
      moved s.forest oldKey newKey source.inodeId := fun id =>
    setLinks_self (moved s.forest oldKey newKey source.inodeId) id
  by_cases hp : oldKey.parentInodeId = newKey.parentInodeId
  · rw [recount, if_pos hp, addLinks_zero, ← h.storedOld.links, hkeep,
      move_eq_moved (S := namespaceShape) fun hc => hc.2 hp]
  · rw [recount, if_neg hp]
    by_cases hk : source.kind = .directory
    · rw [if_pos hk, if_pos hk, Int.sub_zero, addLinks_neg_one, addLinks_one h.notMax, h.oldParentOf.inodeId,
        h.newParentOf.inodeId, ← h.oldLinks, ← h.newLinks]
      exact (move_eq_setLinks (S := namespaceShape) (h.isDir.mpr hk) hp).symm
    · rw [if_neg hk, if_neg hk, Int.sub_zero, addLinks_zero, addLinks_zero, ← h.storedOld.links,
        ← h.storedNew.links, hkeep, hkeep, move_eq_moved (S := namespaceShape) fun hc => hk (h.isDir.mp hc.1)]

/-- The link counts after a rename over another inode that is no directory. -/
theorem RenameReads.move_leaf {target}
    (htarget : StoredInode s.forest target) (hk : source.kind ≠ .directory) (ht : target.kind ≠ .directory) :
    recount (setLinks (moved s.forest oldKey newKey source.inodeId) target.inodeId (s.forest.links target.inodeId - 1))
        oldParent newParent (oldKey.parentInodeId = newKey.parentInodeId) 0 0 (0 - 0) =
      move namespaceShape (removeName s.forest newKey target.inodeId) oldKey newKey source.inodeId := by
  have hkeep : ∀ parent : InodeRecord, StoredInode s.forest parent → parent.kind = .directory →
      setLinks (setLinks (moved s.forest oldKey newKey source.inodeId) target.inodeId
        (s.forest.links target.inodeId - 1)) parent.inodeId (s.forest.links parent.inodeId) =
      setLinks (moved s.forest oldKey newKey source.inodeId) target.inodeId
        (s.forest.links target.inodeId - 1) := fun parent hstored hkind =>
    setLinks_links (f := moved s.forest oldKey newKey source.inodeId) (ne_of_kind hstored htarget hkind ht).symm _
  have hleaf : ¬IsDir namespaceShape (removeName s.forest newKey target.inodeId) source.inodeId := fun hd =>
    hk (h.isDir.mp hd)
  rw [recount, Int.sub_zero, addLinks_zero, addLinks_zero, ← h.storedOld.links, ← h.storedNew.links,
    hkeep oldParent h.storedOld h.oldParentOf.kind, hkeep newParent h.storedNew h.newParentOf.kind, ite_self,
    move_eq_moved fun hc => hleaf hc.1, moved_removeName h.ne]

/-- The link counts after a rename over an empty directory. -/
theorem RenameReads.move_dir {target}
    (hk : source.kind = .directory) (hpo : oldKey.parentInodeId ≠ target) (hpn : newKey.parentInodeId ≠ target) :
    recount (setLinks (moved s.forest oldKey newKey source.inodeId) target 0) oldParent newParent
        (oldKey.parentInodeId = newKey.parentInodeId) (-1) (-1) (1 - 1) =
      move namespaceShape (removeDir namespaceShape s.forest newKey target) oldKey newKey source.inodeId := by
  have hpos : newParent.attributes.nlink.toNat ≠ 0 := fun h0 => h.newParentOf.linked (UInt32.toNat_inj.mp h0)
  rw [recount, Int.sub_self, addLinks_zero, addLinks_neg_one, h.oldParentOf.inodeId,
    h.newParentOf.inodeId, ← h.oldLinks,
    ← h.newLinks]
  rw [← h.newLinks] at hpos
  by_cases hp : oldKey.parentInodeId = newKey.parentInodeId
  · rw [if_pos hp, move_eq_moved (S := namespaceShape) fun hc => hc.2 hp, moved_removeDir h.ne,
      setLinks_comm hpo.symm, hp]
    rfl
  · -- the new parent loses one subdirectory and gains one
    have hdir : IsDir namespaceShape (removeDir namespaceShape s.forest newKey target) source.inodeId :=
      h.isDir.mpr hk
    have hold : (removeDir namespaceShape s.forest newKey target).links oldKey.parentInodeId =
        s.forest.links oldKey.parentInodeId := by
      simp [removeDir, hpo, namespaceShape, hp]
    have hnew : (removeDir namespaceShape s.forest newKey target).links newKey.parentInodeId + 1 =
        s.forest.links newKey.parentInodeId := by
      simp [removeDir, hpn, namespaceShape]
      omega
    rw [if_neg hp, move_eq_setLinks (S := namespaceShape) hdir hp]
    show _ = setLinks (setLinks _ oldKey.parentInodeId _) newKey.parentInodeId _
    rw [show namespaceShape.parentOf oldKey = oldKey.parentInodeId from rfl,
      show namespaceShape.parentOf newKey = newKey.parentInodeId from rfl, hold, hnew, moved_removeDir h.ne]
    show _ = setLinks (setLinks (setLinks (setLinks _ newKey.parentInodeId _) _ _) _ _) newKey.parentInodeId _
    rw [setLinks_comm hpn, setLinks_comm (Ne.symm hp), setLinks_idem]

end

/-- The entries and the replaced inode after a rename, before the parents are touched. -/
noncomputable def movedOver (f : Forest DentryKey InodeId NodeLabel) (oldKey newKey : DentryKey) (id : InodeId) :
    Option Replaced → Forest DentryKey InodeId NodeLabel
  | none => moved f oldKey newKey id
  | some target => setLinks (moved f oldKey newKey id) target.original.inodeId (unlinkedCount target.original).toNat

theorem movedOver_label (id : InodeId) (replaced : Option Replaced) :
    (movedOver f oldKey newKey id replaced).label = f.label := by
  cases replaced <;> rfl

section

variable (hsource : StoredInode f source)
    (hreplaced : ∀ target, replaced = some target → Replaces newKey source target ∧ StoredInode f target.original)

include hsource hreplaced

theorem foldl_renameEntries :
    (renameEntriesTxn request oldKey newKey dentry source replaced renameNow).mutations.foldl
        onForest f = movedOver f oldKey newKey source.inodeId replaced := by
  cases replaced with
  | none =>
    simp only [renameEntriesTxn, append_nil, cons_append, nil_append, foldl_cons,
      foldl_nil]
    exact onForest_sameNode (f := moved f oldKey newKey source.inodeId) (renamedInode source renameNow)
      ⟨hsource.label, hsource.links⟩ rfl rfl rfl rfl
  | some target =>
    obtain ⟨⟨hkey, -, -, hother, -, stamp, hinode⟩, hstored⟩ := hreplaced target rfl
    simp only [renameEntriesTxn, cons_append, nil_append, foldl_cons, foldl_nil, hkey, hinode]
    rw [onForest_deleteDentry, onForest_deleteDentry,
      onForest_relinked (f := setEntry (setEntry f oldKey none) newKey none) hstored.label, onForest_putDentry]
    have hfree : setEntry (setLinks (setEntry (setEntry f oldKey none) newKey none) target.original.inodeId
        (unlinkedCount target.original).toNat) newKey (some source.inodeId) =
        setLinks (moved f oldKey newKey source.inodeId) target.original.inodeId
          (unlinkedCount target.original).toNat := by
      simp only [moved, setEntry, setLinks, update_idem]
    rw [hfree]
    have hmoved : StoredInode (setLinks (moved f oldKey newKey source.inodeId) target.original.inodeId
        (unlinkedCount target.original).toNat) source :=
      ⟨hsource.label, (setLinks_links_of_ne hother.symm _).trans hsource.links⟩
    exact onForest_sameNode (renamedInode source renameNow) hmoved rfl rfl rfl rfl

/-- The forest after a rename. The new parent matters only when it is another directory. -/
theorem foldl_renameTxn (hold : StoredInode f oldParent) (hnew : StoredInode f parent)
    (hparent : oldKey.parentInodeId ≠ newKey.parentInodeId → parent = newParent) :
    (renameTxn request digest oldKey newKey dentry source replaced oldParent newParent renameNow oldNow
        newNow).mutations.foldl onForest f =
      recount (movedOver f oldKey newKey source.inodeId replaced) oldParent parent
        (oldKey.parentInodeId = newKey.parentInodeId) (if replacesDirectory replaced then -1 else 0)
        (if source.kind = .directory then -1 else 0)
        ((if source.kind = .directory then 1 else 0) - (if replacesDirectory replaced then 1 else 0)) := by
  simp only [renameTxn, foldl_append, foldl_cons, foldl_nil]
  show (renameParents _ _ _ _ _ _ _ _).mutations.foldl onForest f = _
  rw [foldl_renameParents, foldl_renameEntries hsource hreplaced]
  · by_cases hp : oldKey.parentInodeId = newKey.parentInodeId
    · simp [recount, hp]
    · rw [hparent hp]
      simp [recount]
  · rw [foldl_renameEntries hsource hreplaced, movedOver_label]
    exact hold.label
  · intro hsame
    rw [foldl_renameEntries hsource hreplaced, movedOver_label, ← hparent (of_decide_eq_false hsame)]
    exact hnew.label

end

theorem linked_rename (hR : LinkRel R) (h : Linked namespaceShape R s.forest) (happlies : s.Applies now
      (renameTxn request digest oldKey newKey dentry source replaced oldParent newParent renameNow oldNow newNow)
      outcome) (hold : ParentOf oldKey.namespaceId oldKey.parentInodeId oldParent)
    (hnew : ParentOf newKey.namespaceId newKey.parentInodeId newParent) (hdentry : dentry.key = oldKey)
    (hid : source.inodeId = dentry.inodeId) (hns : newKey.namespaceId = source.namespaceId)
    (hsamens : newKey.namespaceId = oldKey.namespaceId) (hne : oldKey ≠ newKey)
    (hreplaced : ∀ target, replaced = some target → Replaces newKey source target)
    (hmax : ∀ parent, s.get (.dfsInode newKey.parentInodeId) = some (.dfsInode parent) →
      parent.attributes.nlink ≠ .maxValue) :
    Linked namespaceShape R
      ((renameTxn request digest oldKey newKey dentry source replaced oldParent newParent renameNow oldNow
        newNow).mutations.foldl onForest s.forest) := by
  have hbase : ∀ condition,
      condition ∈ (renameEntriesTxn request oldKey newKey dentry source replaced renameNow).conditions →
      condition ∈ (renameTxn request digest oldKey newKey dentry source replaced oldParent newParent renameNow
        oldNow newNow).conditions := fun _ hc => mem_conditions_renameParents hc
  have hsource : StoredInode s.forest source :=
    storedInode_of_applies happlies (hbase _ (by simp [renameEntriesTxn]))
  have hentry : s.forest.entry oldKey = some source.inodeId := by
    rw [hid, ← hdentry]
    exact entry_of_applies happlies _ (hbase _ (by simp [renameEntriesTxn]))
  have hstoredOld : StoredInode s.forest oldParent :=
    storedInode_of_applies happlies oldParent_mem_renameParents
  have hstoredTarget : ∀ target, replaced = some target → StoredInode s.forest target.original := by
    rintro target rfl
    exact storedInode_of_applies happlies (hbase _ (by simp [renameEntriesTxn]))
  -- within one directory only the old parent is compared, and it is the new parent as well
  obtain ⟨parent, hparentOf, hstoredNew, hparents⟩ : ∃ parent,
      ParentOf newKey.namespaceId newKey.parentInodeId parent ∧ StoredInode s.forest parent ∧
        (oldKey.parentInodeId ≠ newKey.parentInodeId → parent = newParent) := by
    by_cases hp : oldKey.parentInodeId = newKey.parentInodeId
    · exact ⟨oldParent, by rw [hsamens, ← hp]; exact hold, hstoredOld, fun hne => absurd hp hne⟩
    · refine ⟨newParent, hnew, storedInode_of_applies happlies ?_, fun _ => rfl⟩
      simp only [renameTxn, decide_eq_false hp]
      exact newParent_mem_renameParents
  have hlive : LiveDir s newKey.namespaceId newKey.parentInodeId :=
    liveDir_of_holds (holds_of_parent hparentOf hstoredNew)
  have hreads : RenameReads s oldKey newKey source oldParent parent :=
    { ne := hne, entry := hentry, storedSource := hsource, fits := hns, storedOld := hstoredOld,
      storedNew := hstoredNew, oldParentOf := hold, newParentOf := hparentOf,
      path := fun hk => reachesAvoiding_of_notDescendant h
        (happlies.notDescendant (hbase _ (by simp [renameEntriesTxn, hk]))) hlive
      notMax := by
        obtain ⟨stored, hget, hlabel⟩ := inode_of_label (hparentOf.inodeId ▸ hstoredNew.label)
        have hcount := forest_links hget
        rw [← hparentOf.inodeId, hstoredNew.links, UInt32.toNat_inj] at hcount
        rw [hcount]
        exact hmax stored hget }
  rw [foldl_renameTxn hsource (fun target ht => ⟨hreplaced target ht, hstoredTarget target ht⟩) hstoredOld
    hstoredNew hparents]
  cases replaced with
  | none =>
    have hfree := entry_of_missing happlies newKey (hbase _ (by simp [renameEntriesTxn]))
    have hlinked := h.nodeMoved hR hentry hfree (holds_of_parent hparentOf hstoredNew) hsource.label hns
      fun hd => hreads.path (hreads.isDir.mp hd)
    rw [← hreads.move_free] at hlinked
    exact hlinked
  | some target =>
    have htarget := hreplaced target rfl
    have hstored := hstoredTarget target rfl
    have hentryNew : s.forest.entry newKey = some target.original.inodeId := by
      rw [htarget.inodeId, ← htarget.key]
      exact entry_of_applies happlies _ (hbase _ (by simp [renameEntriesTxn]))
    by_cases hk : source.kind = .directory
    · have ht : target.original.kind = .directory := htarget.kind.mp hk
      have hempty : Empty namespaceShape s.forest target.original.inodeId := by
        refine empty_of_directoryIsEmpty h newKey.namespaceId true ?_ ?_
        · rw [hstored.label, InodeRecord.label, ht, htarget.namespaceId]
          rfl
        · exact happlies.directoryEmpty (hbase _ (by simp [renameEntriesTxn, ht]))
      -- an empty directory is the parent of neither entry
      have hparent : ∀ key id, s.forest.entry key = some id → key.parentInodeId ≠ target.original.inodeId := by
        intro key id hkey hp
        rw [hempty key hp] at hkey
        cases hkey
      have hlinked := h.moveOverDir hR hentry hentryNew hne hsource.label
        ⟨_, hstored.label, label_isDir.mpr ht⟩ hempty hns fun _ => hreads.path hk
      rw [← hreads.move_dir hk (hparent _ _ hentry) (hparent _ _ hentryNew)] at hlinked
      simpa [replacesDirectory, movedOver, unlinkedCount, ht, hk] using hlinked
    · have ht : target.original.kind ≠ .directory := fun ht => hk (htarget.kind.mpr ht)
      have hlinked := h.moveOverName hR hentry hentryNew hne hsource.label
        (fun hd => hk (label_isDir.mp hd)) hstored.label (fun hd => ht (label_isDir.mp hd)) hns
      rw [← hreads.move_leaf hstored hk ht] at hlinked
      have hcount : (unlinkedCount target.original).toNat = s.forest.links target.original.inodeId - 1 := by
        rw [hstored.links, unlinkedCount, if_neg ht]
        exact UInt32.toNat_saturatingSub _ _
      simpa [replacesDirectory, movedOver, ht, hk, hcount] using hlinked

end Rename

/-! ## All transactions -/

theorem foldl_onForest_eq (h : ∀ mutation ∈ mutations, mutation.onForest f = f) : mutations.foldl onForest f = f := by
  induction mutations with
  | nil => rfl
  | cons mutation rest ih =>
    rw [foldl_cons, h mutation (mem_cons_self ..)]
    exact ih fun m hm => h m (mem_cons_of_mem _ hm)

variable {service : DfsService} {tick : Tick} {r : Request}

/-- **Every transaction of the service keeps the namespace a tree.** -/
theorem Issued.linked {s} {createLinks : UInt32 → Prop} (hR : LinkRel R)
    (hcreate : ∀ n, createLinks n → 0 < n.toNat ∧ R n.toNat 1) (h : Issued service tick s r txn)
    (happlies : s.Applies txn outcome) (hcounted : linksCounted createLinks r s (.commit txn))
    (hlinked : Linked namespaceShape R s.store.forest) : Linked namespaceShape R (committed s txn).store.forest := by
  have hdelete : ∀ id, .delete (.dfsInode id) ∉ txn.mutations := fun id hm => by cases h.writes hm
  show Linked namespaceShape R (s.store.applyMutations txn.mutations).forest
  rw [forest_applyMutations s.store hdelete]
  cases h with
  | namespaceRoot =>
    have hroot := label_of_missing happlies ⟨"1"⟩ (by simp [initializeNamespaceTxn])
    exact hlinked.rootAdded hroot (label_isDir.mpr rfl)
  | @create request _ _ _ _ _ hparent =>
    have hleaf := hcreate _ (hcounted.1 request rfl)
    exact linked_newEntry hlinked happlies hparent rfl (fun _ => rfl) (by simp [createTxn, pushParentNamespaceChange])
      (addLinks_zero _) (namespaceInodeId_ne_root _ _ _) rfl (by rintro ⟨⟩) fun _ => hleaf
  | @newEntry _ _ _ _ inode parent _ _ _ _ _ hparent hnew =>
    have hroot : inode.inodeId ≠ namespaceShape.root := hnew.inodeId ▸ namespaceInodeId_ne_root _ _ _
    refine linked_newEntry hlinked happlies hparent rfl (fun _ => rfl)
      (by simp [newEntryTxn, pushParentNamespaceChange]) ?_ hroot hnew.namespaceId ?_ ?_
    all_goals rcases hnew.links with ⟨hkind, hcount, rfl, hraises⟩ | ⟨hkind, hcount, rfl⟩
    · have hget : s.store.get (entityKey (.dfsInode parent)) = some (.dfsInode parent) :=
        happlies.entityEquals (by simp [newEntryTxn, pushParentNamespaceChange])
      rw [addLinks_one (hcounted.2 _ _ parent rfl hraises (hparent.inodeId ▸ hget)), if_pos hkind]
    · rw [addLinks_zero, if_neg hkind, Nat.add_zero]
    · exact fun _ => hcount
    · exact fun hk => absurd hk hkind
    · exact fun hk => absurd hkind hk
    · rw [hcount]
      exact fun _ => ⟨Nat.one_pos, hR.succ 0 0 hR.zero⟩
  | @link _ _ inode _ _ _ _ hparent hid hns hkind =>
    refine linked_link hR hlinked happlies hparent hns hkind
      (hcounted.2 _ _ inode rfl (congrArg some hid.symm) ?_)
    have hget : s.store.get (entityKey (.dfsInode inode)) = some (.dfsInode inode) :=
      happlies.entityEquals (by simp [linkTxn, pushParentNamespaceChange])
    exact hget
  | remove hop hd hdigest hparent hdentry hid hns hdir =>
    exact linked_remove hR hlinked happlies hparent hdentry hid hns hdir
  | rename hdigest hold hnew hdentry hid hns hne hreplaced =>
    exact linked_rename hR hlinked happlies hold hnew hdentry hid hns.symm rfl hne hreplaced
      fun parent => hcounted.2 _ _ parent rfl rfl
  -- the inode is rewritten in place
  | @metadata r current updated hop hr hsame =>
    have hstored : StoredInode s.store.forest current := storedInode_of_applies happlies (by simp [inodeMetadataTxn])
    have hsame := onForest_sameNode _ hstored hsame.inodeId hsame.namespaceId hsame.kind hsame.nlink
    simp only [inodeMetadataTxn, foldl_cons, foldl_nil, hsame]
    exact hlinked
  | @sync _ sync current _ mtime ctime =>
    have hstored : StoredInode s.store.forest current := storedInode_of_applies happlies (by simp [syncTxn])
    have hsame := onForest_sameNode (syncedInode current sync.metadataDelta mtime ctime) hstored rfl rfl
      rfl rfl
    simp only [syncTxn, foldl_cons, foldl_nil, hsame]
    exact hlinked
  | @commit _ commit _ current _ replication accepted attributes _ hchecked =>
    have hstored : StoredInode s.store.forest current := storedInode_of_applies happlies (by simp [commitTxn])
    have hreceipts : (accepted.flatMap fun item =>
        receiptMutations replication item.receipt item.copies item.now).foldl onForest s.store.forest =
        s.store.forest := by
      refine foldl_onForest_eq fun mutation hm => ?_
      obtain ⟨item, -, hm⟩ := mem_flatMap.mp hm
      cases receiptWrite_of_mem hm <;> rfl
    have hsame := onForest_sameNode (committedInode current commit.fileVersion.id attributes) hstored rfl
      rfl rfl hchecked.nlink
    simp only [commitTxn, foldl_append, foldl_cons, foldl_nil, hreceipts]
    show Linked namespaceShape R (onForest s.store.forest
      (.put (.dfsInode (committedInode current commit.fileVersion.id attributes))))
    rw [hsame]
    exact hlinked
  -- repair writes copies, placements and tasks
  | @report _ _ _ _ _ _ _ decision _ _ _ hdecision =>
    rw [foldl_onForest_eq]
    · exact hlinked
    · intro mutation hm
      simp only [reportTxn, mem_append, mem_cons, not_mem_nil, or_false] at hm
      rcases hm with hm | rfl | rfl
      · generalize decision.mutations = written at hm hdecision
        cases hdecision with
        | sourceInvalid health =>
          simp only [mem_cons, not_mem_nil, or_false] at hm
          rcases hm with rfl | rfl <;> rfl
        | retry => cases hm
        | completed =>
          simp only [mem_append, mem_map, mem_singleton] at hm
          rcases hm with ⟨copy, -, rfl⟩ | rfl <;> rfl
      · rfl
      · rfl
  | corruption =>
    rw [foldl_onForest_eq]
    · exact hlinked
    · intro mutation hm
      simp only [corruptionTxn, mem_append, mem_map, mem_cons, not_mem_nil, or_false] at hm
      rcases hm with ⟨copy, -, rfl⟩ | rfl | rfl | rfl <;> rfl
  -- the other transactions touch neither entries nor inodes
  | _ => exact hlinked

end Afs
