import Afs.Meta.Dfs.Runs
import Afs.Meta.Dfs.Script

/-!
# `Meta.Dfs.History` — the versions of a file form a line

The head of a file moves by commits only, to a version whose parent is the head it replaces. Versions and layouts are
written once, under ids that were free. So the versions behind any head form a list that ends at the first version of
the file: a new head is not in the list behind it, because every version in that list was stored before.
-/

namespace Afs

open Interaction Relation

variable {service : DfsService} {tick : Tick} {condition : RunCondition} {c c' : ServicePool}
  {s : System} {r : Request} {txn : MetaTxn} {outcome : RequestOutcome} {parts : CommitParts}

/-- The versions behind a head, found by following `parent_version`. -/
inductive HistoryOf (store : StoreState) : Option FileVersionId → List FileVersionId → Prop
  | nil : HistoryOf store none []
  | cons {id version history} (hget : store.get (.dfsFileVersion id) = some (.dfsFileVersion version))
      (hrest : HistoryOf store version.parentVersion history) : HistoryOf store (some id) (id :: history)

namespace HistoryOf

variable {store store' : StoreState} {head : Option FileVersionId} {history : List FileVersionId}

theorem mono (h : HistoryOf store head history)
    (hkeep : ∀ id version, store.get (.dfsFileVersion id) = some version →
      store'.get (.dfsFileVersion id) = some version) : HistoryOf store' head history := by
  induction h with
  | nil => exact .nil
  | cons hget hrest ih => exact .cons (hkeep _ _ hget) ih

theorem stored (h : HistoryOf store head history) {id} (hmem : id ∈ history) :
    store.get (.dfsFileVersion id) ≠ none := by
  induction h with
  | nil => cases hmem
  | cons hget hrest ih =>
    rcases List.mem_cons.mp hmem with rfl | hmem
    · rw [hget]
      exact nofun
    · exact ih hmem

end HistoryOf

/-! ## Commits -/

theorem IsCommit.parentVersion (h : IsCommit s r txn parts) :
    parts.commit.fileVersion.parentVersion = parts.current.headVersion := by
  have hone := h.checked.oneFile
  simp only [describesOneFile, Bool.and_eq_true, decide_eq_true_eq] at hone
  rw [hone.2, h.checked.head]

/-- The last records of a commit are its layout, its version and the inode. -/
theorem IsCommit.get_committed (h : IsCommit s r txn parts) (key : MetaKey) :
    (committed s txn).store.get key =
      if MetaKey.dfsInode parts.current.inodeId = key then some (.dfsInode parts.updated)
      else if .dfsFileVersion parts.commit.fileVersion.id = key then
        some (.dfsFileVersion parts.commit.fileVersion)
      else if .dfsLayoutRoot parts.commit.layoutRoot.id = key then some (.dfsLayoutRoot parts.commit.layoutRoot)
      else (s.store.applyMutations (parts.accepted.flatMap fun item =>
        receiptMutations parts.replication item.receipt item.copies item.now)).get key := by
  simp only [committed, h.txn, CommitParts.txn, commitTxn, StoreState.get_applyMutations, List.foldl_append,
    List.foldl_cons, List.foldl_nil, TxnMutation.effect, entityKey]
  rfl

theorem IsCommit.version_committed (h : IsCommit s r txn parts) :
    (committed s txn).store.get (.dfsFileVersion parts.commit.fileVersion.id) =
      some (.dfsFileVersion parts.commit.fileVersion) := by
  rw [h.get_committed, if_neg nofun, if_pos rfl]

/-! ## Histories in reachable states -/

/-- Every head has a history without repetition. -/
def LinearHistories (store : StoreState) : Prop :=
  ∀ id inode, store.get (.dfsInode id) = some (.dfsInode inode) →
    ∃ history, HistoryOf store inode.headVersion history ∧ history.Nodup

theorem Issued.linearHistories (h : Issued service tick s r txn) (happlies : s.Applies txn outcome)
    (hlinear : LinearHistories s.store) : LinearHistories (committed s txn).store := by
  have hkeep := (h.evolves happlies).versions
  intro id inode hget
  rcases MemoryState.get_applyMutations_eq_some hget with hold | ⟨hput, hkey⟩
  · obtain ⟨history, hhistory, hnodup⟩ := hlinear id inode hold
    exact ⟨history, hhistory.mono hkeep, hnodup⟩
  · cases h.writes hput with
    | inode hwrite =>
      cases hwrite with
      | kept current hcond hid hhead =>
        obtain ⟨history, hhistory, hnodup⟩ := hlinear _ _ (happlies.entityEquals hcond)
        rw [hhead]
        exact ⟨history, hhistory.mono hkeep, hnodup⟩
      | fresh hcond hhead =>
        rw [hhead]
        exact ⟨[], .nil, List.nodup_nil⟩
      | @head parts hcommit =>
        obtain ⟨history, hhistory, hnodup⟩ := hlinear _ _ (happlies.entityEquals hcommit.currentEquals)
        refine ⟨parts.commit.fileVersion.id :: history, ?_, List.nodup_cons.mpr ⟨fun hmem => ?_, hnodup⟩⟩
        · refine .cons hcommit.version_committed ?_
          rw [hcommit.parentVersion]
          exact hhistory.mono hkeep
        · -- the id of the new version was free
          exact hhistory.stored hmem (happlies.missing hcommit.versionMissing)

theorem Reachable.linearHistories (h : Reachable service tick condition c) : LinearHistories c.state.store := by
  refine Reachable.invariant (I := fun s => LinearHistories s.store) ?_ ?_ ?_ h
  · intro clock id inode hget
    cases hget
  · intro s s' haside hlinear id inode hget
    rw [haside.get _ rfl] at hget
    obtain ⟨history, hhistory, hnodup⟩ := hlinear id inode hget
    refine ⟨history, hhistory.mono fun id version hv => ?_, hnodup⟩
    rw [haside.get _ rfl, hv]
  · intro r s txn outcome hlinear _ hissued happlies
    exact hissued.linearHistories happlies hlinear

/-! ## Steps -/

/-- A commit that the store accepts in the step from `c` to `c'`: the inode before and after it. -/
structure AcceptedCommit (condition : RunCondition) (c c' : ServicePool) (commit : CommitFileVersion)
    (before after : InodeRecord) : Prop where
  act : ∃ i callerId txn reply,
    Pool.Act (served condition) c i (.commitFileVersion callerId commit) (.commit txn) reply c'
  inode : c.state.store.get (.dfsInode commit.inodeId) = some (.dfsInode before)
  updated : c'.state.store.get (.dfsInode commit.inodeId) = some (.dfsInode after)
  fresh : c.state.store.get (.dfsFileVersion commit.fileVersion.id) = none
  stored : c'.state.store.get (.dfsFileVersion commit.fileVersion.id) = some (.dfsFileVersion commit.fileVersion)
  head : after.headVersion = some commit.fileVersion.id
  parent : commit.fileVersion.parentVersion = before.headVersion

/-- **What a step does to files**: versions and layouts stay, heads move by accepted commits, new inodes have no head,
    and new versions are those of accepted commits. -/
structure LinearStep (condition : RunCondition) (c c' : ServicePool) : Prop where
  versions : ∀ id version, c.state.store.get (.dfsFileVersion id) = some version →
    c'.state.store.get (.dfsFileVersion id) = some version
  layouts : ∀ id layout, c.state.store.get (.dfsLayoutRoot id) = some layout →
    c'.state.store.get (.dfsLayoutRoot id) = some layout
  heads : ∀ id before, c.state.store.get (.dfsInode id) = some (.dfsInode before) →
    ∃ after, c'.state.store.get (.dfsInode id) = some (.dfsInode after) ∧
      (after.headVersion = before.headVersion ∨
        ∃ commit, commit.inodeId = id ∧ AcceptedCommit condition c c' commit before after)
  newInodes : ∀ id inode, c.state.store.get (.dfsInode id) = none →
    c'.state.store.get (.dfsInode id) = some (.dfsInode inode) → inode.headVersion = none
  newVersions : ∀ id version, c.state.store.get (.dfsFileVersion id) = none →
    c'.state.store.get (.dfsFileVersion id) = some (.dfsFileVersion version) →
      ∃ commit before after, commit.fileVersion = version ∧ AcceptedCommit condition c c' commit before after

theorem linearStep_of_aside (h : Aside c.state c'.state) : LinearStep condition c c' where
  versions id version hv := by rw [h.get _ rfl, hv]
  layouts id layout hl := by rw [h.get _ rfl, hl]
  heads id before hget := ⟨before, by rw [h.get _ rfl, hget], .inl rfl⟩
  newInodes id inode hnone hget := by
    rw [h.get _ rfl, hnone] at hget
    cases hget
  newVersions id version hnone hget := by
    rw [h.get _ rfl, hnone] at hget
    cases hget

/-- An applied commit is an accepted one. -/
theorem IsCommit.accepted {i reply} (h : IsCommit c.state r txn parts)
    (hact : Pool.Act (served condition) c i r (.commit txn) reply c')
    (happlies : c.state.Applies txn outcome) (hstate : c'.state = committed c.state txn) :
    AcceptedCommit condition c c' parts.commit parts.current parts.updated where
  act := by
    have hrequest := h.request
    subst hrequest
    exact ⟨i, parts.callerId, txn, reply, hact⟩
  inode := by
    rw [← h.checked.inodeId]
    exact happlies.entityEquals h.currentEquals
  updated := by rw [hstate, ← h.checked.inodeId, h.get_committed, if_pos rfl]
  fresh := happlies.missing h.versionMissing
  stored := by rw [hstate, h.version_committed]
  head := rfl
  parent := h.parentVersion

theorem linearStep_of_applied {i reply}
    (hact : Pool.Act (served condition) c i r (.commit txn) reply c') (hissued : Issued service tick c.state r txn)
    (happlies : c.state.Applies txn outcome) (hstate : c'.state = committed c.state txn) :
    LinearStep condition c c' where
  versions := by
    rw [hstate]
    exact (hissued.evolves happlies).versions
  layouts := by
    rw [hstate]
    exact (hissued.evolves happlies).layouts
  heads id before hget := by
    obtain ⟨entity, hentity, hcases⟩ := hissued.stays (by simp) hget
    obtain ⟨after, rfl⟩ := StoreState.inode_of_get hentity
    refine ⟨after, by rw [hstate, hentity], ?_⟩
    rcases hcases with hsame | ⟨hput, hkey⟩
    · cases hsame
      exact .inl rfl
    · have hid : after.inodeId = id := MetaKey.dfsInode.inj hkey
      cases hissued.writes hput with
      | inode hwrite =>
        cases hwrite with
        | kept current hcond hsame hhead =>
          have hcurrent := happlies.entityEquals hcond
          rw [show entityKey (.dfsInode _) = MetaKey.dfsInode id from by rw [entityKey, ← hsame, hid], hget] at hcurrent
          cases hcurrent
          exact .inl hhead
        | fresh hcond hhead =>
          have hnone := happlies.missing hcond
          rw [hid, hget] at hnone
          cases hnone
        | @head parts hcommit =>
          have hcurrent := happlies.entityEquals hcommit.currentEquals
          have hinode : parts.current.inodeId = id := hid
          rw [show entityKey (.dfsInode parts.current) = MetaKey.dfsInode id from by rw [entityKey, hinode],
            hget] at hcurrent
          cases hcurrent
          exact .inr ⟨parts.commit, by rw [← hcommit.checked.inodeId, hinode],
            hcommit.accepted hact happlies hstate⟩
  newInodes id inode hnone hget := by
    rw [hstate] at hget
    rcases MemoryState.get_applyMutations_eq_some hget with hold | ⟨hput, hkey⟩
    · rw [hnone] at hold
      cases hold
    · have hid : inode.inodeId = id := MetaKey.dfsInode.inj hkey
      cases hissued.writes hput with
      | inode hwrite =>
        cases hwrite with
        | kept _ hcond hsame =>
          have hcurrent := happlies.entityEquals hcond
          rw [show entityKey (.dfsInode _) = MetaKey.dfsInode id from by rw [entityKey, ← hsame, hid],
            hnone] at hcurrent
          cases hcurrent
        | fresh hcond hhead => exact hhead
        | @head parts hcommit =>
          have hcurrent := happlies.entityEquals hcommit.currentEquals
          rw [show entityKey (.dfsInode parts.current) = MetaKey.dfsInode id from by rw [entityKey]; exact hkey,
            hnone] at hcurrent
          cases hcurrent
  newVersions id version hnone hget := by
    rw [hstate] at hget
    rcases MemoryState.get_applyMutations_eq_some hget with hold | ⟨hput, -⟩
    · rw [hnone] at hold
      cases hold
    · cases hissued.writes hput with
      | @version parts hcommit =>
        exact ⟨parts.commit, parts.current, parts.updated, rfl, hcommit.accepted hact happlies hstate⟩

/-- **File history is linear.** In every run the versions behind a head form a list without repetition that ends at a
    version without parent, and every further step keeps versions and layouts and moves heads by commits only. -/
theorem file_history_linear (h : Reachable service tick condition c) :
    LinearHistories c.state.store ∧ ∀ c', ServiceStep service tick condition c c' → LinearStep condition c c' := by
  refine ⟨h.linearHistories, fun c' hstep => ?_⟩
  cases h.step_cases hstep with
  | aside haside => exact linearStep_of_aside haside
  | applied _ _ _ _ _ hact hissued happlies hstate =>
    exact linearStep_of_applied hact hissued happlies hstate

/-- A second version of the node's file. It refers to the chunk of the first one. -/
def Cluster.nextVersion (node : String) : FileVersion :=
  ⟨⟨"next-" ++ node⟩, Cluster.file node, some ⟨"version-" ++ node⟩, 4, ⟨"next-layout-" ++ node⟩, 0⟩

def Cluster.twoVersions : List Event :=
  Cluster.setup ++ [Cluster.committing "a" 8, .request (.commitFileVersion "a"
    { Cluster.commit "a" 8 with
      operationId := ⟨"commit-next"⟩
      expectedInodeRevision := 2
      expectedHeadVersion := some ⟨"version-a"⟩
      fileVersion := Cluster.nextVersion "a"
      layoutRoot := ⟨⟨"next-layout-a"⟩, 4, [⟨0, 4, ⟨"chunk"⟩, 0⟩]⟩
      chunkReceipts := [] })]

theorem file_history_linear_after_commit :
    (playAll plainService Cluster.twoVersions).state.store.get (.dfsFileVersion ⟨"version-a"⟩) =
        some (.dfsFileVersion (Cluster.commit "a" 8).fileVersion) ∧
      (playAll plainService Cluster.twoVersions).state.store.get (.dfsFileVersion ⟨"next-a"⟩) =
        some (.dfsFileVersion (Cluster.nextVersion "a")) ∧
      LinearHistories (playAll plainService Cluster.twoVersions).state.store := by
  refine ⟨by decide +kernel, by decide +kernel, ?_⟩
  have hreachable : Reachable plainService (fun _ _ => True) anyRun (playAll plainService Cluster.twoVersions) :=
    reachable_playAll (fun _ _ _ => trivial) (scriptMeets_any _)
  exact (file_history_linear hreachable).1

end Afs
