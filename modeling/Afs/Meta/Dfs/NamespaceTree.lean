import Afs.Meta.Dfs.Runs
import Afs.Meta.Dfs.Script
import Afs.Meta.Dfs.TreeSteps

/-!
# `Meta.Dfs.NamespaceTree` — the namespace over whole runs

What `Issued.linked` says of one transaction holds along every run of the service: whatever requests arrive and
however their store operations interleave, the namespace stays a tree, and its link counts stay those its entries
make. Both need that nobody hands the service a link count: `create` stores the one its caller sends.

The results are stated on the records of the store. `NamespaceTree` is the shape of the namespace, `ExactLinks` the
link counts, with the entries counted in the list of stored entries.
-/

namespace Afs

open DirTree Interaction List

variable {s : StoreState} {R : Nat → Nat → Prop} {service : DfsService} {tick : Tick} {c : ServicePool}

variable {createLinks : UInt32 → Prop} {dentry : Dentry} {id : InodeId}

/-! ## The invariant of all runs -/

theorem forest_of_aside {s s'} (h : Aside s s') : s'.store.forest = s.store.forest := by
  have hget : ∀ key, s'.store.get (.dfsDentry key) = s.store.get (.dfsDentry key) := fun key => h.get _ rfl
  have hget' : ∀ id, s'.store.get (.dfsInode id) = s.store.get (.dfsInode id) := fun id => h.get _ rfl
  simp only [StoreState.forest, hget, hget']

theorem forest_new : StoreState.new.forest = ⟨fun _ => none, fun _ => none, fun _ => 0⟩ := rfl

/-- **The namespace is a linked tree in every reachable state**, if the counts of the run are. -/
theorem Reachable.linked (hR : LinkRel R) (hcreate : ∀ n, createLinks n → 0 < n.toNat ∧ R n.toNat 1)
    (h : Reachable service tick (linksCounted createLinks) c) : Linked namespaceShape R c.state.store.forest := by
  refine Reachable.invariant (I := fun s => Linked namespaceShape R s.store.forest) ?_ ?_ ?_ h
  · exact fun _ => forest_new ▸ Linked.empty
  · intro s s' haside hlinked
    rw [forest_of_aside haside]
    exact hlinked
  · intro r s txn outcome hlinked hcounted hissued happlies
    exact hissued.linked hR hcreate happlies hcounted hlinked

/-! ## The namespace is a tree -/

/-- Following the parents of entries from an inode leads to the root. -/
inductive ClimbsToRoot (s : StoreState) : InodeId → Prop
  | root : ClimbsToRoot s ⟨"1"⟩
  | step {dentry : Dentry} (h : dentry ∈ s.dentries) (hparent : ClimbsToRoot s dentry.key.parentInodeId) :
      ClimbsToRoot s dentry.inodeId

/-- **The namespace is a tree.** -/
structure NamespaceTree (s : StoreState) : Prop where
  parent : ∀ dentry ∈ s.dentries, ∃ parent, s.get (.dfsInode dentry.key.parentInodeId) = some (.dfsInode parent) ∧
    parent.kind = .directory ∧ parent.namespaceId = dentry.key.namespaceId ∧ 0 < parent.attributes.nlink
  target : ∀ dentry ∈ s.dentries, ∃ inode, s.get (.dfsInode dentry.inodeId) = some (.dfsInode inode) ∧
    inode.namespaceId = dentry.key.namespaceId ∧ 0 < inode.attributes.nlink
  named : ∀ id inode, s.get (.dfsInode id) = some (.dfsInode inode) → inode.kind = .directory →
    0 < inode.attributes.nlink → id ≠ ⟨"1"⟩ → ∃! dentry, dentry ∈ s.dentries ∧ dentry.inodeId = id
  reaches : ∀ id inode, s.get (.dfsInode id) = some (.dfsInode inode) → inode.kind = .directory →
    0 < inode.attributes.nlink → ClimbsToRoot s id

theorem mem_dentries_iff : dentry ∈ s.dentries ↔ s.forest.entry dentry.key = some dentry.inodeId := by
  rw [MemoryState.mem_dentries]
  constructor
  · rintro ⟨versioned, hmem, he⟩
    exact entry_of_value hmem he
  · exact value_of_entry

theorem nlink_pos {inode} (h : s.get (.dfsInode id) = some (.dfsInode inode)) :
    0 < s.forest.links id ↔ 0 < inode.attributes.nlink := by
  rw [forest_links h, UInt32.lt_iff_toNat_lt]
  rfl

theorem climbsToRoot_of_reaches (h : Reaches namespaceShape s.forest.entry id) : ClimbsToRoot s id := by
  induction h with
  | root => exact .root
  | @step key id hkey hparent ih =>
    have hmem : (⟨key, id⟩ : Dentry) ∈ s.dentries := mem_dentries_iff.mpr hkey
    exact .step hmem ih

theorem namespaceTree_of_linked (h : Linked namespaceShape R s.forest) : NamespaceTree s where
  parent dentry hmem := by
    obtain ⟨label, hlabel, hdir, hfits, hpos⟩ := h.holds _ _ (mem_dentries_iff.mp hmem)
    obtain ⟨parent, hget, rfl⟩ := inode_of_label hlabel
    exact ⟨parent, hget, label_isDir.mp hdir, hfits.symm, (nlink_pos hget).mp hpos⟩
  target dentry hmem := by
    obtain ⟨label, hlabel, hfits, hpos⟩ := h.target _ _ (mem_dentries_iff.mp hmem)
    obtain ⟨inode, hget, rfl⟩ := inode_of_label hlabel
    exact ⟨inode, hget, hfits.symm, (nlink_pos hget).mp hpos⟩
  named id inode hget hkind hpos hroot := by
    have hdir := (forest_isDir hget).mpr hkind
    obtain ⟨key, hkey⟩ := h.named id hdir ((nlink_pos hget).mpr hpos) hroot
    refine ⟨⟨key, id⟩, ⟨mem_dentries_iff.mpr hkey, rfl⟩, ?_⟩
    rintro ⟨key', id'⟩ ⟨hmem, rfl⟩
    rw [h.unique _ key' key hdir (mem_dentries_iff.mp hmem) hkey]
  reaches id inode hget hkind hpos :=
    climbsToRoot_of_reaches (h.reaches id ((forest_isDir hget).mpr hkind) ((nlink_pos hget).mpr hpos))

/-- **The namespace is always a tree**: in every run in which `create` is sent a link count above zero and no link
    count is raised beyond the largest, every state reached is one, however the requests interleave. -/
theorem namespace_is_tree (h : Reachable service tick (linksCounted (· ≠ 0)) c) : NamespaceTree c.state.store := by
  refine namespaceTree_of_linked (Reachable.linked linkRel_ge ?_ h)
  intro n hn
  have hpos : n.toNat ≠ 0 := fun h0 => hn (UInt32.toNat_inj.mp h0)
  exact ⟨by omega, by show 1 ≤ n.toNat; omega⟩

/-- The counting condition, evaluated. -/
def countsLinks (createLinks : UInt32 → Bool) (r : Request) (s : System) (op : StoreOp) : Bool :=
  (match r with
    | .create request => createLinks request.attributes.nlink
    | _ => true) &&
  match op, r.raisesLinksOf with
  | .commit _, some id =>
    match s.store.get (.dfsInode id) with
    | some (.dfsInode inode) => inode.attributes.nlink ≠ .maxValue
    | _ => true
  | _, _ => true

theorem countsLinks_iff {createLinks r s op} :
    countsLinks createLinks r s op = true ↔ linksCounted (createLinks · = true) r s op := by
  unfold countsLinks
  rw [Bool.and_eq_true]
  refine and_congr ?_ ?_
  · cases r <;> simp
  · cases op with
    | commit txn =>
      cases r.raisesLinksOf with
      | none => simp
      | some id =>
        dsimp only
        split
        · next inode hget =>
          rw [decide_eq_true_iff]
          refine ⟨?_, fun h => h txn id inode rfl rfl hget⟩
          rintro hne _ _ other ⟨⟩ ⟨⟩ hother
          cases hget.symm.trans hother
          exact hne
        · next hnone =>
          refine iff_of_true rfl ?_
          rintro _ _ inode ⟨⟩ ⟨⟩ hget
          exact absurd hget (hnone inode)
    | _ => simp

instance (createLinks : UInt32 → Prop) [DecidablePred createLinks] (r : Request) (s : System) (op : StoreOp) :
    Decidable (linksCounted createLinks r s op) :=
  decidable_of_iff (countsLinks (fun n => createLinks n) r s op = true) (countsLinks_iff.trans (by simp))

namespace Cluster

def directory (name : String) : InodeId := plainService.codec.namespaceInodeId "a" ⟨name⟩

def makingDirectory (name : String) : Event :=
  .request (.mkdir ⟨"a", ⟨name⟩, ⟨"default"⟩, ⟨"1"⟩, Codec.utf8Bytes name, ⟨0o755, 0, 0, 2, 0, 0, 0⟩, ⟨0, 0, []⟩⟩)

/-- A file and two directories, of which one is moved into the other. -/
def movedDirectory : List Event :=
  [.request (.create (create "a" 1)), makingDirectory "d", makingDirectory "e",
    .request (.rename ⟨"a", ⟨"move"⟩, ⟨"default"⟩, ⟨"1"⟩, Codec.utf8Bytes "d", directory "e", Codec.utf8Bytes "d",
      .replace, ⟨0, 0, []⟩⟩)]

end Cluster

theorem namespace_is_tree_after_create :
    (∃ dentry ∈ (playAll plainService Cluster.movedDirectory).state.store.dentries,
      dentry.key.parentInodeId = Cluster.directory "e" ∧ dentry.inodeId = Cluster.directory "d") ∧
    NamespaceTree (playAll plainService Cluster.movedDirectory).state.store := by
  refine ⟨by decide +kernel, ?_⟩
  have hreachable : Reachable plainService (fun _ _ => True) (linksCounted (· ≠ 0))
      (playAll plainService Cluster.movedDirectory) :=
    reachable_playAll (fun _ _ _ => trivial) (by decide +kernel)
  exact namespace_is_tree hreachable

/-- The pool after one `create` that carries the given link count. -/
def afterCreate (nlink : UInt32) : ServicePool :=
  playAll plainService [.request (.create (Cluster.create "a" nlink))]

/-- `create` stores the link count it is sent, so an entry can name an inode without links. -/
theorem create_without_links_breaks_tree :
    Reachable plainService (fun _ _ => True) anyRun (afterCreate 0) ∧ ¬NamespaceTree (afterCreate 0).state.store := by
  refine ⟨reachable_playAll (by simp) (scriptMeets_any _), fun h => ?_⟩
  have hdead : ∃ dentry ∈ (afterCreate 0).state.store.dentries,
    (afterCreate 0).state.store.forest.links dentry.inodeId = 0 := by
    decide +kernel
  obtain ⟨dentry, hmem, hzero⟩ := hdead
  obtain ⟨inode, hget, -, hpos⟩ := h.target dentry hmem
  rw [forest_links hget] at hzero
  exact absurd hzero (UInt32.lt_iff_toNat_lt.mp hpos).ne'

/-! ## Link counts are exact -/

namespace StoreState

section

variable (s : StoreState) (id : InodeId)

def isDirectory : Bool :=
  match s.get (.dfsInode id) with
  | some (.dfsInode inode) => inode.kind = .directory
  | _ => false

/-- The number of entries in a directory. -/
def entryCount : Nat := s.dentries.countP (·.key.parentInodeId = id)

/-- The number of entries in a directory that are directories. -/
def subdirectoryCount : Nat :=
  s.dentries.countP fun dentry => dentry.key.parentInodeId = id && s.isDirectory dentry.inodeId

/-- The number of entries that name an inode. -/
def nameCount : Nat := s.dentries.countP (·.inodeId = id)

end

end StoreState

/-- **Link counts are exact.** A removed directory is one that no entry names. -/
structure ExactLinks (s : StoreState) : Prop where
  directory : ∀ id inode, s.get (.dfsInode id) = some (.dfsInode inode) → inode.kind = .directory →
    0 < inode.attributes.nlink → inode.attributes.nlink.toNat = 2 + s.subdirectoryCount id
  removed : ∀ id inode, s.get (.dfsInode id) = some (.dfsInode inode) → inode.kind = .directory → id ≠ ⟨"1"⟩ →
    s.nameCount id = 0 → inode.attributes.nlink = 0
  dead : ∀ id inode, s.get (.dfsInode id) = some (.dfsInode inode) → inode.attributes.nlink = 0 →
    s.entryCount id = 0 ∧ s.nameCount id = 0
  other : ∀ id inode, s.get (.dfsInode id) = some (.dfsInode inode) → inode.kind ≠ .directory →
    inode.attributes.nlink.toNat = s.nameCount id

/-- An entity that is an entry is stored under the key of the entry. -/
theorem key_of_mem_entities {item} (hmem : item ∈ s.entities.entries)
    (he : item.2.entity = .dfsDentry dentry) : item.1 = .dfsDentry dentry.key := by
  have hlookup : s.entities.lookup item.1 = some item.2 := AList.mem_lookup_iff.mpr hmem
  have hmatch := s.wf.keyed item.1 item.2 hlookup
  rw [he] at hmatch
  simpa [keyMatches, entityKey, eq_comm] using hmatch

theorem nodup_dentry_keys (s : StoreState) : (s.dentries.map (·.key)).Nodup := by
  show (s.dentries.map (·.key)).Pairwise (· ≠ ·)
  rw [pairwise_map, MemoryState.dentries, MemoryState.values, filterMap_map, pairwise_filterMap]
  have hkeys : s.entities.entries.Pairwise fun a b => a.1 ≠ b.1 := pairwise_map.mp s.entities.nodupKeys
  apply hkeys.imp_of_mem
  -- two entries with one key would be stored under one key
  intro a b ha hb hne dentry hdentry dentry' hdentry' he
  simp only [Function.comp_apply] at hdentry hdentry'
  split at hdentry
  · next hentity =>
    split at hdentry'
    · next hentity' =>
      cases hdentry
      cases hdentry'
      apply hne
      rw [key_of_mem_entities ha hentity, key_of_mem_entities hb hentity', he]
    · cases hdentry'
  · cases hdentry

/-- Counting in the list of entries counts the entries of the forest. -/
theorem countP_dentries (s : StoreState) (p : Dentry → Bool) :
    s.dentries.countP p = {key | ∃ id, s.forest.entry key = some id ∧ p ⟨key, id⟩ = true}.ncard := by
  have hnodup : ((s.dentries.filter p).map (·.key)).Nodup := (nodup_dentry_keys s).sublist (filter_sublist.map _)
  have hset : {key | ∃ id, s.forest.entry key = some id ∧ p ⟨key, id⟩ = true} =
      (((s.dentries.filter p).map (·.key)).toFinset : Set DentryKey) := by
    ext key
    simp only [Set.mem_ofPred_eq, coe_toFinset, mem_map, mem_filter]
    constructor
    · rintro ⟨id, hentry, hp⟩
      exact ⟨⟨key, id⟩, ⟨mem_dentries_iff.mpr hentry, hp⟩, rfl⟩
    · rintro ⟨dentry, ⟨hmem, hp⟩, rfl⟩
      exact ⟨dentry.inodeId, mem_dentries_iff.mp hmem, hp⟩
  rw [hset, Set.ncard_coe_finset, toFinset_card_of_nodup hnodup, length_map, countP_eq_length_filter]

theorem isDirectory_iff : s.isDirectory id = true ↔ IsDir namespaceShape s.forest id := by
  unfold StoreState.isDirectory
  split
  · next inode hget => rw [forest_isDir hget, decide_eq_true_iff]
  · next hnone =>
    refine ⟨nofun, ?_⟩
    rintro ⟨label, hlabel, -⟩
    obtain ⟨inode, hget, -⟩ := inode_of_label hlabel
    exact absurd hget (hnone inode)

theorem subdirectoryCount_eq (s : StoreState) (id : InodeId) :
    s.subdirectoryCount id = (subdirs namespaceShape s.forest id).ncard := by
  rw [StoreState.subdirectoryCount, countP_dentries]
  congr 1
  ext key
  simp only [Set.mem_ofPred_eq, subdirs, Bool.and_eq_true, decide_eq_true_eq, isDirectory_iff]
  constructor
  · rintro ⟨n, he, hp, hd⟩
    exact ⟨hp, n, he, hd⟩
  · rintro ⟨hp, n, he, hd⟩
    exact ⟨n, he, hp, hd⟩

theorem nameCount_eq (s : StoreState) (id : InodeId) : s.nameCount id = (names s.forest id).ncard := by
  rw [StoreState.nameCount, countP_dentries]
  congr 1
  ext key
  simp [names]

theorem exactLinks_of_linked (h : Linked namespaceShape (· = ·) s.forest) : ExactLinks s where
  directory id inode hget hkind hpos := by
    rw [subdirectoryCount_eq, ← forest_links hget]
    exact h.dirLinks id ((forest_isDir hget).mpr hkind) ((nlink_pos hget).mpr hpos)
  removed id inode hget hkind hroot hnames := by
    by_contra hne
    have hpos : 0 < s.forest.links id := by
      rw [forest_links hget]
      exact Nat.pos_of_ne_zero fun h0 => hne (UInt32.toNat_inj.mp h0)
    obtain ⟨key, hkey⟩ := h.named id ((forest_isDir hget).mpr hkind) hpos hroot
    have hnot := countP_eq_zero.mp hnames ⟨key, id⟩ (mem_dentries_iff.mpr hkey)
    exact hnot (decide_eq_true rfl)
  dead id inode hget hzero := by
    have hlinks : s.forest.links id = 0 := by
      rw [forest_links hget, hzero]
      rfl
    constructor
    · refine countP_eq_zero.mpr fun dentry hmem hparent => ?_
      obtain ⟨-, -, -, -, hpos⟩ := h.holds _ _ (mem_dentries_iff.mp hmem)
      rw [show namespaceShape.parentOf dentry.key = id from of_decide_eq_true hparent, hlinks] at hpos
      exact absurd hpos (Nat.lt_irrefl 0)
    · refine countP_eq_zero.mpr fun dentry hmem hname => ?_
      obtain ⟨-, -, -, hpos⟩ := h.target _ _ (mem_dentries_iff.mp hmem)
      rw [of_decide_eq_true hname, hlinks] at hpos
      exact absurd hpos (Nat.lt_irrefl 0)
  other id inode hget hkind := by
    rw [nameCount_eq, ← forest_links hget]
    exact h.leafLinks id inode.label (forest_label hget) fun hdir => hkind (label_isDir.mp hdir)

/-- **Link counts are exact** in every state of every run in which `create` is sent the link count one and no link
    count is raised beyond the largest. -/
theorem link_counts_exact (h : Reachable service tick (linksCounted (· = 1)) c) : ExactLinks c.state.store := by
  refine exactLinks_of_linked (Reachable.linked linkRel_eq ?_ h)
  rintro n rfl
  exact ⟨by decide, rfl⟩

theorem link_counts_exact_after_create :
    (playAll plainService Cluster.movedDirectory).state.store.dentries.length = 3 ∧
      ExactLinks (playAll plainService Cluster.movedDirectory).state.store := by
  refine ⟨by decide +kernel, ?_⟩
  have hreachable : Reachable plainService (fun _ _ => True) (linksCounted (· = 1))
      (playAll plainService Cluster.movedDirectory) :=
    reachable_playAll (fun _ _ _ => trivial) (by decide +kernel)
  exact link_counts_exact hreachable

end Afs
