import Afs.Meta.Dfs.Runs
import Afs.Meta.Dfs.Script

/-!
# `Meta.Dfs.Layouts` — committed layouts stay readable

A commit checks its extents against its receipts and against the layout of the version it replaces. What it accepts is
readable in the state it leaves: the extents are in order and inside the file, and each lies inside the recorded chunk
it refers to. That the layout is still readable later needs that the record of a chunk stays what it is, and nothing
in the transaction of a commit says so: the chunk of a receipt is written whatever is recorded under its id. The
condition `chunksAgree` of a run is what is missing.
-/

namespace Afs

open Interaction Relation List Cluster

variable {service : DfsService} {tick : Tick} {c c' : ServicePool} {s : System} {r : Request}
  {txn : MetaTxn} {outcome : RequestOutcome} {parts : CommitParts}

variable {extent : Extent} {previousEnd : UInt64} {layout : LayoutRoot} {receipt : ChunkReceipt} {chunk : ChunkObject}

/-! ## What the extent check accepts -/

/-- The extent lies inside the chunk. -/
def Extent.Inside (extent : Extent) (chunk : ChunkObject) : Prop :=
  extent.chunkOffset.toNat + extent.length.toNat ≤ chunk.length.toNat

/-- The extents are not empty, in order, disjoint, and inside the file. -/
structure OrderedExtents (fileLength : UInt64) (extents : List Extent) : Prop where
  nonempty : ∀ extent ∈ extents, 0 < extent.length
  ordered : extents.Pairwise fun a b => a.fileOffset.toNat + a.length.toNat ≤ b.fileOffset.toNat
  within : ∀ extent ∈ extents, extent.fileOffset.toNat + extent.length.toNat ≤ fileLength.toNat

variable {receipts : List ChunkReceipt} {base : Option LayoutRoot} {fileLength : UInt64} {extents : List Extent}

/-- One turn of the check. -/
theorem checkExtents_cons (h : checkExtents receipts base fileLength (extent :: extents) previousEnd = .ok ()) :
    ∃ fileEnd : UInt64, extent.fileOffset.toNat + extent.length.toNat = fileEnd.toNat ∧ 0 < extent.length ∧
      previousEnd.toNat ≤ extent.fileOffset.toNat ∧ fileEnd.toNat ≤ fileLength.toNat ∧
      checkExtentSource receipts base extent = .ok () ∧
      checkExtents receipts base fileLength extents fileEnd = .ok () := by
  unfold checkExtents at h
  split at h
  · cases h
  · next fileEnd hend =>
    split at h
    · cases h
    · next hbounds =>
      split at h
      · cases h
      · next hsource =>
        simp only [Bool.or_eq_true, decide_eq_true_eq, not_or, gt_iff_lt, UInt64.not_lt] at hbounds
        obtain ⟨⟨hlength, hprevious⟩, hfile⟩ := hbounds
        refine ⟨fileEnd, UInt64.checkedAdd_eq_some.mp hend, ?_, ?_, ?_, hsource, h⟩
        · exact UInt64.pos_iff_ne_zero.mpr hlength
        · exact UInt64.le_iff_toNat_le.mp hprevious
        · exact UInt64.le_iff_toNat_le.mp hfile

/-- **What the extent check accepts**, from where the last extent ended. -/
theorem orderedExtents_of_check (h : checkExtents receipts base fileLength extents previousEnd = .ok ()) :
    OrderedExtents fileLength extents ∧ (∀ extent ∈ extents, previousEnd.toNat ≤ extent.fileOffset.toNat) ∧
      ∀ extent ∈ extents, checkExtentSource receipts base extent = .ok () := by
  induction extents generalizing previousEnd with
  | nil => exact ⟨⟨nofun, .nil, nofun⟩, nofun, nofun⟩
  | cons extent rest ih =>
    obtain ⟨fileEnd, hend, hlength, hprevious, hfile, hsource, hrest⟩ := checkExtents_cons h
    obtain ⟨hordered, hafter, hsources⟩ := ih hrest
    refine ⟨⟨?_, ?_, ?_⟩, ?_, ?_⟩
    · exact forall_mem_cons.mpr ⟨hlength, hordered.nonempty⟩
    · refine pairwise_cons.mpr ⟨fun later hlater => ?_, hordered.ordered⟩
      rw [hend]
      exact hafter later hlater
    · exact forall_mem_cons.mpr ⟨by omega, hordered.within⟩
    · refine forall_mem_cons.mpr ⟨hprevious, fun later hlater => ?_⟩
      have := hafter later hlater
      omega
    · exact forall_mem_cons.mpr ⟨hsource, hsources⟩

/-- An inherited extent lies where an extent of the base layout lies. -/
theorem inside_of_inherited (h : extentIsInherited extent layout = true) :
    ∃ candidate ∈ layout.inlineExtents, candidate.chunkId = extent.chunkId ∧
      ∀ chunk, candidate.Inside chunk → extent.Inside chunk := by
  unfold extentIsInherited at h
  split at h
  · cases h
  · next extentEnd hextent =>
    obtain ⟨candidate, hmem, hcandidate⟩ := any_eq_true.mp h
    split at hcandidate
    · cases hcandidate
    · next candidateEnd hend =>
      split at hcandidate
      · cases hcandidate
      · next hrange =>
        simp only [Bool.or_eq_true, decide_eq_true_eq, not_or, ne_eq, Decidable.not_not, gt_iff_lt,
          UInt64.not_lt] at hrange
        obtain ⟨⟨hchunk, hstart⟩, hstop⟩ := hrange
        refine ⟨candidate, hmem, hchunk, fun chunk hinside => ?_⟩
        -- both ends of the extent are inside the candidate, and the chunk offsets move along
        have hoffset := UInt64.checkedAdd_eq_some.mp (of_decide_eq_true hcandidate)
        rw [UInt64.toNat_sub_of_le _ _ hstart] at hoffset
        have hextent := UInt64.checkedAdd_eq_some.mp hextent
        have hend := UInt64.checkedAdd_eq_some.mp hend
        have hstart := UInt64.le_iff_toNat_le.mp hstart
        have hstop := UInt64.le_iff_toNat_le.mp hstop
        unfold Extent.Inside at hinside ⊢
        omega

/-- Where an accepted extent comes from. -/
theorem source_of_check (h : checkExtentSource receipts base extent = .ok ()) :
    (∃ receipt ∈ receipts, receipt.chunk.id = extent.chunkId ∧ extent.Inside receipt.chunk) ∨
      ∃ layout, base = some layout ∧ extentIsInherited extent layout = true := by
  unfold checkExtentSource at h
  split at h
  · cases h
  · next chunkEnd hend =>
    split at h
    · next receipt hfind =>
      split at h
      · cases h
      · next hlength =>
        refine .inl ⟨receipt, mem_of_find?_eq_some hfind, ?_, ?_⟩
        · simpa using find?_some hfind
        · rw [Extent.Inside, UInt64.checkedAdd_eq_some.mp hend]
          exact UInt64.le_iff_toNat_le.mp (UInt64.not_lt.mp hlength)
    · split at h
      · next hany =>
        cases base with
        | none => cases hany
        | some layout => exact .inr ⟨layout, rfl, hany⟩
      · cases h

/-! ## Readable layouts -/

/-- **The layout can be read** from the chunks that are recorded. -/
structure ReadableLayout (store : StoreState) (layout : LayoutRoot) : Prop where
  extents : OrderedExtents layout.fileLength layout.inlineExtents
  chunks : ∀ extent ∈ layout.inlineExtents, ∃ chunk,
    store.get (.dfsChunk extent.chunkId) = some (.dfsChunk chunk) ∧ extent.Inside chunk

/-- **The condition of a run**: a commit is submitted only when the record of every chunk it has a receipt for, if
    there is one, is that of the receipt. -/
def chunksAgree : RunCondition := fun r s op =>
  (match r, op with
    | .commitFileVersion _ commit, .commit _ =>
      commit.chunkReceipts.all fun receipt =>
        (s.store.get (.dfsChunk receipt.chunk.id)).all (· = .dfsChunk receipt.chunk)
    | _, _ => true) = true

instance (r : Request) (s : System) (op : StoreOp) : Decidable (chunksAgree r s op) :=
  inferInstanceAs (Decidable (_ = true))

theorem IsCommit.receipt_mem (h : IsCommit s r txn parts) {item} (hitem : item ∈ parts.accepted) :
    item.receipt ∈ parts.commit.chunkReceipts := by
  rw [← h.checked.accepted.receipts]
  exact mem_map_of_mem hitem

/-- Under the condition, chunk records stay. -/
theorem Issued.chunks_stay (h : Issued service tick s r txn) (hagree : chunksAgree r s (.commit txn)) {id}
    (hget : s.store.get (.dfsChunk id) = some (.dfsChunk chunk)) :
    (committed s txn).store.get (.dfsChunk id) = some (.dfsChunk chunk) := by
  obtain ⟨entity, hentity, rfl | ⟨hput, hkey⟩⟩ := h.stays (by simp) hget
  · exact hentity
  · rw [hentity]
    cases h.writes hput with
    | @chunk parts item hcommit hitem =>
      have hid : item.receipt.chunk.id = id := MetaKey.dfsChunk.inj hkey
      have hrecorded : s.store.get (.dfsChunk item.receipt.chunk.id) = some (.dfsChunk chunk) := hid ▸ hget
      rw [hcommit.request] at hagree
      have hall := all_eq_true.mp hagree _ (hcommit.receipt_mem hitem)
      rw [hrecorded] at hall
      rw [MetaEntity.dfsChunk.inj (of_decide_eq_true hall)]
    | _ => cases hkey

/-- The receipts of a commit are for different chunks. -/
theorem IsCommit.receipt_eq (h : IsCommit s r txn parts) {receipt'}
    (hmem : receipt ∈ parts.commit.chunkReceipts) (hmem' : receipt' ∈ parts.commit.chunkReceipts)
    (hid : receipt.chunk.id = receipt'.chunk.id) : receipt = receipt' := by
  have hdistinct := h.checked.accepted.distinct
  have hmap : parts.accepted.map (·.receipt.chunk.id) = parts.commit.chunkReceipts.map (·.chunk.id) := by
    rw [← h.checked.accepted.receipts, List.map_map]
    rfl
  rw [hmap] at hdistinct
  exact inj_on_of_nodup_map hdistinct hmem hmem' hid

/-- The chunks of the receipts are recorded by the commit. -/
theorem IsCommit.chunk_committed (h : IsCommit s r txn parts) (hissued : Issued service tick s r txn)
    (hmem : receipt ∈ parts.commit.chunkReceipts) :
    (committed s txn).store.get (.dfsChunk receipt.chunk.id) = some (.dfsChunk receipt.chunk) := by
  have hput : .put (.dfsChunk receipt.chunk) ∈ txn.mutations := by
    rw [← h.checked.accepted.receipts] at hmem
    obtain ⟨item, hitem, rfl⟩ := mem_map.mp hmem
    rw [h.txn]
    refine mem_append_left _ (mem_flatMap.mpr ⟨item, hitem, ?_⟩)
    simp [receiptMutations]
  have hdelete : .delete (.dfsChunk receipt.chunk.id) ∉ txn.mutations := fun hm => by cases hissued.writes hm
  obtain ⟨entity, hwritten, hkey, hget⟩ :=
    MemoryState.get_applyMutations_of_put s.store.toMemoryState hput rfl hdelete
  apply Eq.trans hget
  cases hissued.writes hwritten with
  | @chunk parts' item hcommit hitem =>
    have hsame : parts'.commit = parts.commit := by
      have hrequest := hcommit.request.symm.trans h.request
      cases parts'
      cases hrequest
      rfl
    have hitem := hcommit.receipt_mem hitem
    rw [hsame] at hitem
    rw [h.receipt_eq hitem hmem (MetaKey.dfsChunk.inj hkey)]
  | _ => cases hkey

/-- **A commit leaves a readable layout**, if the layout it inherits from is readable. -/
theorem IsCommit.readable (h : IsCommit s r txn parts) (hissued : Issued service tick s r txn)
    (hagree : chunksAgree r s (.commit txn))
    (hreadable : ∀ id layout, s.store.get (.dfsLayoutRoot id) = some (.dfsLayoutRoot layout) →
      ReadableLayout s.store layout) :
    ReadableLayout (committed s txn).store parts.commit.layoutRoot := by
  obtain ⟨base, hbase, hcheck⟩ := h.checked.extents
  obtain ⟨hordered, -, hsources⟩ := orderedExtents_of_check hcheck
  have hlength : parts.commit.fileVersion.length = parts.commit.layoutRoot.fileLength := by
    have hone := h.checked.oneFile
    simp only [describesOneFile, Bool.and_eq_true, decide_eq_true_eq] at hone
    exact hone.1.2
  refine ⟨hlength ▸ hordered, fun extent hextent => ?_⟩
  rcases source_of_check (hsources extent hextent) with ⟨receipt, hmem, hid, hinside⟩ | ⟨layout, rfl, hinherited⟩
  · exact ⟨receipt.chunk, by rw [← hid, h.chunk_committed hissued hmem], hinside⟩
  · -- the base layout was readable, and its chunks stay
    obtain ⟨candidate, hcandidate, hchunk, hinside⟩ := inside_of_inherited hinherited
    have hstored : ∃ id, s.store.get (.dfsLayoutRoot id) = some (.dfsLayoutRoot layout) := by
      unfold BaseLayout at hbase
      split at hbase
      · cases hbase
      · obtain ⟨version, layout', -, hlayout, he⟩ := hbase
        cases he
        exact ⟨_, hlayout⟩
    obtain ⟨id, hlayout⟩ := hstored
    obtain ⟨chunk, hget, hin⟩ := (hreadable id layout hlayout).chunks candidate hcandidate
    rw [hchunk] at hget
    exact ⟨chunk, hissued.chunks_stay hagree hget, hinside chunk hin⟩

/-- Every recorded layout is readable. -/
def ReadableLayouts (store : StoreState) : Prop :=
  ∀ id layout, store.get (.dfsLayoutRoot id) = some (.dfsLayoutRoot layout) → ReadableLayout store layout

theorem ReadableLayout.mono {store store'} (h : ReadableLayout store layout)
    (hkeep : ∀ id chunk, store.get (.dfsChunk id) = some (.dfsChunk chunk) →
      store'.get (.dfsChunk id) = some (.dfsChunk chunk)) : ReadableLayout store' layout := by
  refine ⟨h.extents, fun extent hextent => ?_⟩
  obtain ⟨chunk, hget, hinside⟩ := h.chunks extent hextent
  exact ⟨chunk, hkeep _ _ hget, hinside⟩

theorem Reachable.readableLayouts (h : Reachable service tick chunksAgree c) : ReadableLayouts c.state.store := by
  refine Reachable.invariant (I := fun s => ReadableLayouts s.store) ?_ ?_ ?_ h
  · intro clock id layout hget
    cases hget
  · intro s s' haside hreadable id layout hget
    rw [haside.get _ rfl] at hget
    exact (hreadable id layout hget).mono fun id chunk hc => by rw [haside.get _ rfl, hc]
  · intro r s txn outcome hreadable hagree hissued happlies id layout hget
    rcases MemoryState.get_applyMutations_eq_some hget with hold | ⟨hput, -⟩
    · exact (hreadable id layout hold).mono fun id chunk hc => hissued.chunks_stay hagree hc
    · cases hissued.writes hput with
      | layout hcommit => exact hcommit.readable hissued hagree hreadable

/-- **Committed layouts stay readable.** In every run in which a commit meets the chunk records it has receipts for as
    its receipts describe them, every layout is readable in every state, and no step changes the record of a chunk. -/
theorem committed_layouts_readable (h : Reachable service tick chunksAgree c) :
    ReadableLayouts c.state.store ∧ ∀ c', ServiceStep service tick chunksAgree c c' →
      ∀ id chunk, c.state.store.get (.dfsChunk id) = some (.dfsChunk chunk) →
        c'.state.store.get (.dfsChunk id) = some (.dfsChunk chunk) := by
  refine ⟨h.readableLayouts, fun c' hstep id chunk hget => ?_⟩
  cases h.step_cases hstep with
  | aside haside => rw [haside.get _ rfl, hget]
  | applied _ _ _ _ _ hact hissued _ hstate =>
    rw [hstate]
    exact hissued.chunks_stay hact.state.1 hget

/-- Two files that share a chunk, with receipts that agree on it. -/
theorem committed_layouts_readable_shared :
    (playAll plainService (Cluster.setup ++ [Cluster.committing "a" 8, Cluster.committing "b" 8])).state.store.get
        (.dfsLayoutRoot ⟨"layout-b"⟩) = some (.dfsLayoutRoot (Cluster.commit "b" 8).layoutRoot) ∧
      ReadableLayouts
        (playAll plainService (Cluster.setup ++ [Cluster.committing "a" 8, Cluster.committing "b" 8])).state.store := by
  refine ⟨by decide +kernel, ?_⟩
  have hreachable : Reachable plainService (fun _ _ => True) chunksAgree
      (playAll plainService (setup ++ [committing "a" 8, committing "b" 8])) :=
    reachable_playAll (fun _ _ _ => trivial) (by decide +kernel)
  exact (committed_layouts_readable hreachable).1

/-- A receipt for a recorded chunk that gives a smaller length replaces the record: the first file is cut off. -/
theorem shorter_receipt_breaks_layout :
    Reachable plainService (fun _ _ => True) anyRun
        (playAll plainService (Cluster.setup ++ [Cluster.committing "a" 8, Cluster.committing "b" 4])) ∧
      ¬ReadableLayouts
        (playAll plainService (Cluster.setup ++ [Cluster.committing "a" 8, Cluster.committing "b" 4])).state.store := by
  refine ⟨reachable_playAll (fun _ _ _ => trivial) (scriptMeets_any _), fun h => ?_⟩
  have hlayout := h ⟨"layout-a"⟩ (commit "a" 8).layoutRoot (by decide +kernel)
  obtain ⟨chunk, hget, hinside⟩ := hlayout.chunks ⟨0, 8, ⟨"chunk"⟩, 0⟩ (mem_singleton_self _)
  have hchunk : (playAll plainService
      (setup ++ [committing "a" 8, committing "b" 4])).state.store.get
        (.dfsChunk ⟨"chunk"⟩) = some (.dfsChunk (Cluster.chunk 4)) := by decide +kernel
  cases hget.symm.trans hchunk
  exact absurd (show (0 : UInt64).toNat + (8 : UInt64).toNat ≤ (4 : UInt64).toNat from hinside) (by decide)

end Afs
