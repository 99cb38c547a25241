import Afs.Lib.Forest
import Afs.Meta.Store.Effect

/-!
# `Meta.Dfs.Tree` — the namespace of a store as a directory forest

The directory entries and inodes of a store form a forest in the sense of `Afs.Lib.Forest`: an entry points from its
key to an inode id, an inode is labelled with its namespace and with whether it is a directory, and the link count
is the recorded `nlink`. This module defines that view and relates it to the checks the store evaluates when it
applies a transaction: the empty directory and the walk along parents.
-/

namespace Afs

open DirTree

variable {key : DentryKey} {id ancestor : InodeId} {inode : InodeRecord} {namespaceId : NamespaceId}

/-- What never changes about an inode. -/
structure NodeLabel where
  directory : Bool
  namespaceId : NamespaceId

def InodeRecord.label (inode : InodeRecord) : NodeLabel := ⟨inode.kind = .directory, inode.namespaceId⟩

/-- How the namespace reads as a forest; an entry points at inodes of its own namespace. -/
def namespaceShape : Shape DentryKey InodeId NodeLabel where
  parentOf := DentryKey.parentInodeId
  root := ⟨"1"⟩
  isDir label := label.directory
  fits key label := key.namespaceId = label.namespaceId

/-- The inode id of a stored directory entry. -/
def entryTarget : Option MetaEntity → Option InodeId
  | some (.dfsDentry dentry) => some dentry.inodeId
  | _ => none

def entityLabel : Option MetaEntity → Option NodeLabel
  | some (.dfsInode inode) => some inode.label
  | _ => none

def entityLinks : Option MetaEntity → Nat
  | some (.dfsInode inode) => inode.attributes.nlink.toNat
  | _ => 0

/-- The forest of a store. -/
def StoreState.forest (s : StoreState) : Forest DentryKey InodeId NodeLabel where
  entry key := entryTarget (s.get (.dfsDentry key))
  label id := entityLabel (s.get (.dfsInode id))
  links id := entityLinks (s.get (.dfsInode id))

variable {s : StoreState}

theorem forest_entry : s.forest.entry key = some id ↔ s.get (.dfsDentry key) = some (.dfsDentry ⟨key, id⟩) := by
  constructor
  · intro h
    change entryTarget (s.get (.dfsDentry key)) = some id at h
    unfold entryTarget at h
    split at h
    · next dentry he =>
      have hkey := StoreState.key_of_get he
      cases dentry
      cases hkey
      cases h
      exact he
    · cases h
  · intro h
    change entryTarget (s.get (.dfsDentry key)) = some id
    rw [h]
    rfl

theorem forest_label (h : s.get (.dfsInode id) = some (.dfsInode inode)) : s.forest.label id = some inode.label := by
  change entityLabel (s.get (.dfsInode id)) = _
  rw [h]
  rfl

theorem forest_links (h : s.get (.dfsInode id) = some (.dfsInode inode)) :
    s.forest.links id = inode.attributes.nlink.toNat := by
  change entityLinks (s.get (.dfsInode id)) = _
  rw [h]
  rfl

/-- A labelled node is a stored inode. -/
theorem inode_of_label {label} (h : s.forest.label id = some label) :
    ∃ inode, s.get (.dfsInode id) = some (.dfsInode inode) ∧ inode.label = label := by
  change entityLabel (s.get (.dfsInode id)) = some label at h
  unfold entityLabel at h
  split at h
  · next inode he =>
    cases h
    exact ⟨inode, he, rfl⟩
  · cases h

theorem label_isDir : namespaceShape.isDir inode.label ↔ inode.kind = .directory := by
  simp [namespaceShape, InodeRecord.label]

theorem forest_isDir (h : s.get (.dfsInode id) = some (.dfsInode inode)) :
    IsDir namespaceShape s.forest id ↔ inode.kind = .directory := by
  rw [IsDir, forest_label h, ← label_isDir]
  constructor
  · rintro ⟨label, hl, hdir⟩
    cases hl
    exact hdir
  · exact fun hdir => ⟨_, rfl, hdir⟩

/-! ## Entries as a list of values -/

theorem mem_values_iff {entity} :
    (∃ versioned ∈ s.values, versioned.entity = entity) ↔ ∃ key, s.get key = some entity := by
  constructor
  · rintro ⟨versioned, hmem, rfl⟩
    obtain ⟨⟨key, found⟩, hentry, rfl⟩ := List.mem_map.mp hmem
    refine ⟨key, ?_⟩
    rw [MemoryState.get, AList.mem_lookup_iff.mpr hentry]
    rfl
  · rintro ⟨key, hget⟩
    rw [MemoryState.get, Option.map_eq_some_iff] at hget
    obtain ⟨versioned, hlookup, rfl⟩ := hget
    exact ⟨versioned, List.mem_map.mpr ⟨_, AList.mem_lookup_iff.mp hlookup, rfl⟩, rfl⟩

/-- A stored entry, whatever key it is found under. -/
theorem entry_of_value {versioned dentry} (hmem : versioned ∈ s.values)
    (he : versioned.entity = .dfsDentry dentry) : s.forest.entry dentry.key = some dentry.inodeId := by
  obtain ⟨key, hkey⟩ := mem_values_iff.mp ⟨versioned, hmem, he⟩
  have hown : entityKey (.dfsDentry dentry) = key := by
    refine StoreState.entityKey_of_get hkey fun nodeId hne => ?_
    rw [hne] at hkey
    have hmatch := StoreState.keyMatches_of_get hkey
    simp [keyMatches, entityKey] at hmatch
  rw [forest_entry, ← show entityKey (.dfsDentry dentry) = .dfsDentry dentry.key from rfl, hown, hkey]

theorem value_of_entry (h : s.forest.entry key = some id) :
    ∃ versioned ∈ s.values, versioned.entity = .dfsDentry ⟨key, id⟩ :=
  mem_values_iff.mpr ⟨_, forest_entry.mp h⟩

/-! ## The checks of the store -/

/-- The empty-directory check finds every entry of the namespace. -/
theorem entry_of_directoryIsEmpty (h : s.dfsDirectoryIsEmpty namespaceId id = true)
    (hns : key.namespaceId = namespaceId) (hparent : key.parentInodeId = id) : s.forest.entry key = none := by
  by_contra hne
  obtain ⟨target, htarget⟩ := Option.ne_none_iff_exists'.mp hne
  obtain ⟨versioned, hmem, he⟩ := value_of_entry htarget
  rw [MemoryState.dfsDirectoryIsEmpty, Bool.not_eq_true', List.any_eq_false] at h
  have hnot := h versioned hmem
  simp [he, hns, hparent] at hnot

theorem parentOf_eq_some {parent} (h : s.dfsParentOf namespaceId id = some parent) :
    ∃ key, s.forest.entry key = some id ∧ key.namespaceId = namespaceId ∧ key.parentInodeId = parent := by
  obtain ⟨versioned, hmem, hfound⟩ := List.exists_of_findSome?_eq_some h
  split at hfound
  · next dentry he =>
    split at hfound
    · next hmatch =>
      cases hfound
      refine ⟨dentry.key, ?_, hmatch.1, rfl⟩
      rw [entry_of_value hmem he, hmatch.2]
    · cases hfound
  · cases hfound

theorem parentOf_eq_none (h : s.dfsParentOf namespaceId id = none) (hns : key.namespaceId = namespaceId) :
    s.forest.entry key ≠ some id := by
  intro hentry
  obtain ⟨versioned, hmem, he⟩ := value_of_entry hentry
  have hnone := List.findSome?_eq_none_iff.mp h versioned hmem
  simp [he, hns] at hnone

variable {R : Nat → Nat → Prop}

/-- A live directory of a namespace. -/
structure LiveDir (s : StoreState) (namespaceId : NamespaceId) (id : InodeId) : Prop where
  label : s.forest.label id = some ⟨true, namespaceId⟩
  links : 0 < s.forest.links id

theorem LiveDir.isDir (h : LiveDir s namespaceId id) : IsDir namespaceShape s.forest id := ⟨_, h.label, rfl⟩

theorem liveDir_of_holds (h : Holds namespaceShape s.forest key) : LiveDir s key.namespaceId key.parentInodeId := by
  obtain ⟨⟨directory, namespaceId⟩, hl, hdir, hfit, hpos⟩ := h
  cases (show directory = true from hdir)
  cases (show key.namespaceId = namespaceId from hfit)
  exact ⟨hl, hpos⟩

/-- **The walk along parents is sound**: when it ends without meeting the ancestor, the directory reaches the
    root by a path that avoids it. Running out of fuel answers that the ancestor was met, so the statement needs no
    bound on the length of the walk. -/
theorem reachesAvoiding_of_walk (h : Linked namespaceShape R s.forest) (fuel : Nat) {current seen}
    (hwalk : s.dfsAncestorWalk namespaceId ancestor fuel current seen = false)
    (hne : current ≠ ancestor) (hlive : LiveDir s namespaceId current) :
    ReachesAvoiding namespaceShape s.forest.entry ancestor current := by
  induction fuel generalizing current seen with
  | zero => cases hwalk
  | succ fuel ih =>
    unfold MemoryState.dfsAncestorWalk at hwalk
    split at hwalk
    · cases hwalk
    · split at hwalk
      · -- a live directory without an entry is the root
        next hnone =>
        have hroot : current = namespaceShape.root := by
          by_contra hcur
          obtain ⟨key, hkey⟩ := h.named current hlive.isDir hlive.links hcur
          obtain ⟨label, hl, hfit, -⟩ := h.target key current hkey
          have hsame : label = ⟨true, namespaceId⟩ := Option.some.inj (hl.symm.trans hlive.label)
          rw [hsame] at hfit
          exact parentOf_eq_none hnone hfit hkey
        rw [hroot] at hne ⊢
        exact .root hne
      · next parent hparent =>
        obtain ⟨key, hkey, hns, rfl⟩ := parentOf_eq_some hparent
        have hholds := liveDir_of_holds (h.holds key current hkey)
        rw [hns] at hholds
        split at hwalk
        · cases hwalk
        · next hparentne =>
          refine .step hne hkey ?_
          split at hwalk
          · next hone =>
            have hroot : key.parentInodeId = namespaceShape.root := by
              rw [namespaceShape, InodeId.mk.injEq]
              exact hone
            show ReachesAvoiding namespaceShape s.forest.entry ancestor key.parentInodeId
            rw [hroot] at hparentne ⊢
            exact .root hparentne
          · exact ih hwalk hparentne hholds

theorem reachesAvoiding_of_notDescendant (h : Linked namespaceShape R s.forest) {child}
    (hcheck : s.dfsIsDescendantOrSame namespaceId ancestor child = false) (hlive : LiveDir s namespaceId child) :
    ReachesAvoiding namespaceShape s.forest.entry ancestor child := by
  unfold MemoryState.dfsIsDescendantOrSame at hcheck
  split at hcheck
  · cases hcheck
  · next hne => exact reachesAvoiding_of_walk h _ hcheck (Ne.symm hne) hlive

/-- A directory of the namespace that passes the empty-directory check has no entry in any namespace. -/
theorem empty_of_directoryIsEmpty (h : Linked namespaceShape R s.forest) (namespaceId : NamespaceId) (directory : Bool)
    (hlabel : s.forest.label id = some ⟨directory, namespaceId⟩)
    (hempty : s.dfsDirectoryIsEmpty namespaceId id = true) : Empty namespaceShape s.forest id := by
  intro key hparent
  by_contra hne
  obtain ⟨target, htarget⟩ := Option.ne_none_iff_exists'.mp hne
  obtain ⟨label, hl, -, hfit, -⟩ := h.holds key target htarget
  rw [hparent, hlabel] at hl
  cases hl
  exact hne (entry_of_directoryIsEmpty hempty hfit hparent)

end Afs
