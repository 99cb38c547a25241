import Afs.Meta.Dfs.Layouts
import Afs.Node.Dfs.Planned
import Afs.Node.Dfs.ReadBatches

/-!
# `Node.Dfs.Fragmented` — reading a file of many extents

A commit accepts any number of extents, and a read makes one operation of every extent that it meets. The engine takes
at most 128 operations in a batch, so that a read of a file whose chunks are all there fails when it meets more extents.
A write that ends past `2 ^ 64` leaves its extent in the dirty log, and every later read fails. Otherwise a read returns
the visible bytes.

`openVerified` is called for every read: the readers that the engine keeps open are readers of the same files.
-/

namespace Afs.Node

open Overlay Regions Grouping List UInt64

variable {batch : ReadBatch} {out : Bytes} {op : ChunkReadOp} {outputLen : Nat} {layout : LayoutRoot}

/-! ## Reading from the local store -/

section Store

variable (blake3 : Bytes → Digest) (catalog : LocalCatalog) (files : AList fun _ : ChunkId => Bytes)

/-- `open_verified`: the chunk and the bytes of its file. -/
def openVerified (id : ChunkId) : Result (ChunkObject × Bytes) :=
  match catalog.records.lookup id with
  | none => .error (ChunkStore.invalid s!"local Chunk '{id.value}' is not cataloged")
  | some record =>
    if record.state ≠ .durable then .error (ChunkStore.corrupt id "local copy is quarantined")
    else
      match pathForRecord record with
      | .error e => .error e
      | .ok path =>
        match verifyContent blake3 record.chunk (files.lookup path) with
        | .error e => .error e
        | .ok () => .ok (record.chunk, (files.lookup path).getD [])

/-- The engine over a local store. -/
def storeEnv {ω : Type} (rest : ReadEnv ω) : ReadEnv ω where
  localNodeId := rest.localNodeId
  localReader := fun id world => ((openVerified blake3 catalog files id).map fun _ => (), world)
  readRanges := fun id ranges out world =>
    match openVerified blake3 catalog files id with
    | .error e => ((.error e, out), world)
    | .ok (chunk, content) => (verifiedRangesInto blake3 content chunk ranges out false, world)
  localReadFailed := rest.localReadFailed
  sourcesFor := rest.sourcesFor
  transfer := rest.transfer

/-- The bytes that the local store has. -/
def storeBytes : ChunkBytes := fun id k =>
  match openVerified blake3 catalog files id with
  | .error _ => 0
  | .ok (_, content) => content.getD k 0

/-- The chunk is durable, and its file is intact. -/
structure IntactCopy (id : ChunkId) (chunk : ChunkObject) (content : Bytes) : Prop where
  cataloged : ∃ record, catalog.records.lookup id = some record ∧ record.state = .durable ∧ record.chunk = chunk ∧
    pathForRecord record = .ok id
  file : files.lookup id = some content
  length : content.length = chunk.length.toNat
  digest : (⟨.blake3, blake3 content⟩ : ContentDigest) = chunk.contentDigest

variable {blake3 catalog files}

theorem IntactCopy.openVerified {id chunk content} (h : IntactCopy blake3 catalog files id chunk content) :
    openVerified blake3 catalog files id = .ok (chunk, content) := by
  obtain ⟨record, hrecord, hstate, hchunk, hpath⟩ := h.cataloged
  subst hchunk
  have hlength : ofNat content.length = record.chunk.length := by
    rw [h.length]
    exact UInt64.ofNat_toNat
  have hverified : verifyContent blake3 record.chunk (some content) = .ok () := by
    rw [verifyContent, if_neg (not_not.mpr hlength), if_neg (not_not.mpr h.digest)]
  rw [Node.openVerified, hrecord]
  simp [hstate, hpath, h.file, hverified]

theorem storeEnv_faithfulLocally {ω : Type} (rest : ReadEnv ω) :
    (storeEnv blake3 catalog files rest).FaithfulLocally (storeBytes blake3 catalog files) where
  ranges_frame := by
    intro id ranges out world
    simp only [storeEnv]
    split
    · exact (Regions.Writes.refl out).mono (nil_subset _)
    · exact verifiedRangesInto_writes
  ranges_counts := by
    intro id ranges out world counts h
    simp only [storeEnv] at h
    split at h
    · cases h
    · exact verifiedRangesInto_counts h
  ranges_full := by
    intro id ranges out world counts h hapart pair hpair hfull
    simp only [storeEnv, storeBytes] at h ⊢
    split at h
    · cases h
    · exact verifiedRangesInto_holds h hapart pair hpair hfull

end Store

/-! ## Batches that the local store serves -/

section Serves

variable {ω : Type} {env : ReadEnv ω} {chunk : ChunkBytes} {outLen : Nat} {ops : List ChunkReadOp}

/-- The local store reads all of the operations into a buffer of this length. -/
def ReadEnv.Serves (env : ReadEnv ω) (outLen : Nat) (ops : List ChunkReadOp) : Prop :=
  ∀ chunkId, ∀ items ⊆ ops, items ≠ [] → (∀ op ∈ items, op.chunkId = chunkId) → ∀ world, ∃ world',
    env.localReader chunkId world = (.ok (), world') ∧ ∀ out : Bytes, out.length = outLen →
      (env.readRanges chunkId (items.map ChunkReadOp.range) out world').1.1 = .ok (items.map fun op => op.length.toNat)

theorem readLocalGroup_served (hserves : env.Serves outLen ops) {chunkId items}
    (hitems : ∀ item ∈ items, item.1 ∈ ops ∧ item.1.chunkId = chunkId) (hne : items ≠ []) {s}
    (hout : s.out.length = outLen) : (readLocalGroup env chunkId items s).remote = s.remote := by
  have hsubset : items.map Prod.fst ⊆ ops := by
    intro op hop
    obtain ⟨item, hitem, rfl⟩ := mem_map.mp hop
    exact (hitems item hitem).1
  have hchunk : ∀ op ∈ items.map Prod.fst, op.chunkId = chunkId := by
    intro op hop
    obtain ⟨item, hitem, rfl⟩ := mem_map.mp hop
    exact (hitems item hitem).2
  obtain ⟨world, hreader, hranges⟩ := hserves chunkId _ hsubset (by simpa using hne) hchunk s.world
  have hranges := hranges s.out hout
  simp only [map_map, Function.comp_def] at hranges
  unfold readLocalGroup
  rw [hreader]
  simp only
  generalize env.readRanges chunkId (items.map fun item => item.1.range) s.out world = answer at hranges
  obtain ⟨⟨counts, out⟩, world'⟩ := answer
  subst hranges
  -- every count is the length of its operation
  simp only
  rw [← map_prod_left_eq_zip, filter_eq_nil_iff.mpr]
  · rw [map_nil, append_nil]
  · intro pair hpair
    obtain ⟨item, -, rfl⟩ := mem_map.mp hpair
    simp

theorem readLocalGroups_served (henv : env.FaithfulLocally chunk) (hserves : env.Serves outLen ops) {groups}
    (hchunk : ∀ items ∈ groups, Headed (fun item other => item.1.chunkId == other.1.chunkId) items)
    (hmem : ∀ item ∈ groups.flatten, item.1 ∈ ops) (hapart : NonOverlapping (groups.flatten.map Prod.fst))
    {s} (hout : s.out.length = outLen) : (readLocalGroups env groups s).remote = s.remote := by
  induction groups generalizing s with
  | nil => rfl
  | cons items rest ih =>
    obtain ⟨hfirst, hrest⟩ := forall_mem_cons.mp hchunk
    obtain ⟨first, others, rfl, hothers⟩ := hfirst
    rw [flatten_cons, forall_mem_append] at hmem
    rw [flatten_cons, map_append] at hapart
    obtain ⟨hapartFirst, hapartRest, -⟩ := pairwise_append.mp hapart
    have hsame : ∀ item ∈ first :: others, item.1.chunkId = first.1.chunkId := by
      refine forall_mem_cons.mpr ⟨rfl, ?_⟩
      intro item hitem
      exact (eq_of_beq (hothers item hitem)).symm
    have hlength := (readLocalGroup_reads (s := s) henv hsame hapartFirst).1.length
    have hserved := readLocalGroup_served hserves (fun item hitem => ⟨hmem.1 item hitem, hsame item hitem⟩)
      (cons_ne_nil first others) hout
    rw [readLocalGroups, ih hrest hmem.2 hapartRest (hlength.trans hout), hserved]

/-- A batch that the local store serves is read from it. -/
theorem readBatchInto_served (henv : env.FaithfulLocally chunk) (hapart : NonOverlapping batch.ops) (out : Bytes)
    (hserves : env.Serves out.length batch.ops) (world : ω) :
    ∃ out' world', readBatchInto env batch out world = ((.ok (), out'), world') ∧
      ∀ op ∈ batch.ops, Filled chunk op out' := by
  have hperm := flatten_group (fun item other : ChunkReadOp × Nat => item.1.chunkId == other.1.chunkId)
    (readItems batch.ops)
  have hgroups : NonOverlapping ((chunkGroups batch.ops).flatten.map Prod.fst) :=
    ((hperm.map Prod.fst).pairwise_iff fun h => h.symm).mpr (hapart.sublist (filter_zipIdx_sublist _ batch.ops))
  have hmem : ∀ item ∈ (chunkGroups batch.ops).flatten, item.1 ∈ batch.ops := by
    intro item hitem
    exact (filter_zipIdx_sublist _ batch.ops).subset (mem_map_of_mem (hperm.mem_iff.mp hitem))
  have hremote : (readLocalGroups env (chunkGroups batch.ops) ⟨out, world, []⟩).remote = [] :=
    readLocalGroups_served henv hserves (headed_group _ (readItems batch.ops)) hmem hgroups rfl
  obtain ⟨-, hfilled⟩ := readLocal_filled henv hapart out world
  unfold readBatchInto
  generalize readLocalGroups env (chunkGroups batch.ops) ⟨out, world, []⟩ = s at hremote hfilled
  refine ⟨s.out, s.world, by simp [hremote], ?_⟩
  intro op hop
  rw [← map_fst_zipIdx batch.ops] at hop
  obtain ⟨item, hitem, rfl⟩ := mem_map.mp hop
  exact (hfilled item hitem).resolve_left (by simp [hremote])

theorem readOp_filled (hfits : op.Fits out.length) :
    Regions.Writes [op.region] out (readOp chunk out op) ∧ Filled chunk op (readOp chunk out op) := by
  have hlength : ((range op.length.toNat).map fun i => chunk op.chunkId (op.chunkOffset.toNat + i)).length =
      op.region.length := by simp [ChunkReadOp.region]
  refine ⟨writes_patch hfits hlength, holds_patch hfits hlength ?_⟩
  intro k hk
  have hk : k < op.length.toNat := hk
  simp [ChunkReadOp.content, hk]

/-- **A valid batch that the local store serves** is read as its operations say. -/
theorem readBatch_served (henv : env.FaithfulLocally chunk) {config}
    (hvalid : batch.validateForOutput out.length config = .ok ()) (hapart : NonOverlapping batch.ops)
    (hfits : ∀ op ∈ batch.ops, op.Fits out.length) (hserves : env.Serves (totalLength batch.ops) (packOps 0 batch.ops))
    (world : ω) : (readBatch env config batch out world).1 = (.ok (), batch.ops.foldl (readOp chunk) out) := by
  obtain ⟨hsize, -⟩ := validateForOutput_ok hvalid
  have hlength : (replicate (totalLength batch.ops) (0 : UInt8)).length = totalLength batch.ops :=
    length_replicate
  obtain ⟨staged, world', hread, hstaged⟩ := readBatchInto_served henv
    (show NonOverlapping ({ batch with ops := packOps 0 batch.ops } : ReadBatch).ops
      from (readable_packOps hsize).apart)
    (replicate (totalLength batch.ops) 0) (by rwa [hlength]) world
  obtain ⟨hwrites, hfilled⟩ := copyPacked out hapart (fun op hop _ => hfits op hop) hstaged
  unfold readBatch
  rw [hvalid]
  simp only
  rw [hread]
  refine Prod.ext rfl ?_
  show publish staged (batch.ops.zip (packOps 0 batch.ops)) out = batch.ops.foldl (readOp chunk) out
  rw [publish_eq]
  -- both buffers are determined by the places of the operations
  have hop : ∀ op ∈ batch.ops, ∀ mid : Bytes, mid.length = out.length →
      Regions.Writes [op.region] mid (readOp chunk mid op) ∧ Filled chunk op (readOp chunk mid op) := by
    intro op hop mid hmid
    exact readOp_filled (hmid ▸ hfits op hop)
  exact eq_of_holds hwrites (foldl_writes fun op hmem mid hmid => (hop op hmem mid hmid).1) hfilled
    (foldl_holds hapart hop)

end Serves

/-! ## The operations of a layout -/

section Operations

variable {offset stop : UInt64} {extents : List Extent} {ops : List ChunkReadOp}

/-- The extent has a byte between two offsets. -/
def Extent.Meets (offset stop : Nat) (extent : Extent) : Bool :=
  max offset extent.fileOffset.toNat < min stop (extent.fileOffset.toNat + extent.length.toNat)

/-- The operation reads what the extent has between two offsets. -/
structure ReadsExtent (offset stop : Nat) (extent : Extent) (op : ChunkReadOp) : Prop where
  chunkId : op.chunkId = extent.chunkId
  first : offset + op.outputOffset.toNat = max offset extent.fileOffset.toNat
  last : offset + op.outputOffset.toNat + op.length.toNat = min stop (extent.fileOffset.toNat + extent.length.toNat)
  source : op.chunkOffset.toNat + extent.fileOffset.toNat = extent.chunkOffset.toNat +
    max offset extent.fileOffset.toNat

/-- The operations are those of the extents that are met. -/
theorem layoutReadOps_reads (h : layoutReadOps offset stop extents = .ok ops) :
    List.Forall₂ (ReadsExtent offset.toNat stop.toNat) (extents.filter (Extent.Meets offset.toNat stop.toNat)) ops := by
  induction extents generalizing ops with
  | nil =>
    cases h
    exact .nil
  | cons extent rest ih =>
    rw [layoutReadOps] at h
    split at h
    · cases h
    next extentEnd hend =>
    rw [checkedAdd_eq_some] at hend
    simp only at h
    split at h
    · next hapart =>
      rw [ge_iff_le, le_iff_toNat_le, toNat_min, toNat_max, ← hend] at hapart
      rw [filter_cons_of_neg (by rw [Extent.Meets, decide_eq_true_eq]; omega)]
      exact ih h
    · next hmeets =>
      obtain ⟨hfirst, hsource, hlength, hlt⟩ := overlap_bounds hmeets
      rw [← hend] at hlength hlt
      split at h
      · cases h
      next chunkOffset hchunk =>
      rw [checkedAdd_eq_some] at hchunk
      split at h
      · cases h
      next more hmore =>
      cases h
      rw [filter_cons_of_pos (by rw [Extent.Meets, decide_eq_true_eq]; exact hlt)]
      refine .cons ⟨rfl, ?_, ?_, ?_⟩ (ih hmore)
      · simp only
        omega
      · simp only
        omega
      · simp only
        omega

theorem extent_of_op {offset stop} (h : List.Forall₂ (ReadsExtent offset stop) extents ops) (hop : op ∈ ops) :
    ∃ extent ∈ extents, ReadsExtent offset stop extent op := by
  obtain ⟨i, hi, rfl⟩ := getElem_of_mem hop
  have hlength := h.length_eq
  exact ⟨extents[i], getElem_mem _, h.get (by omega) hi⟩

/-- The operations of ordered extents do not overlap. -/
theorem nonOverlapping_of_reads {offset stop} (h : List.Forall₂ (ReadsExtent offset stop) extents ops)
    (hordered : extents.Pairwise fun a b => a.fileOffset.toNat + a.length.toNat ≤ b.fileOffset.toNat) :
    NonOverlapping ops := by
  induction h with
  | nil => exact .nil
  | @cons extent op extents ops hop hrest ih =>
    obtain ⟨hfirst, hordered⟩ := pairwise_cons.mp hordered
    refine pairwise_cons.mpr ⟨?_, ih hordered⟩
    intro other hother n hn hn'
    obtain ⟨later, hlater, hreads⟩ := extent_of_op hrest hother
    have hle := hfirst later hlater
    have hlast := hop.last
    have hlater := hreads.first
    simp only [ChunkReadOp.region, Region.Contains] at hn hn'
    omega

/-- Together they read no more than there is between the offsets. -/
theorem totalLength_of_reads {offset stop} (lower : Nat) (h : List.Forall₂ (ReadsExtent offset stop) extents ops)
    (hordered : extents.Pairwise fun a b => a.fileOffset.toNat + a.length.toNat ≤ b.fileOffset.toNat)
    (hlower : ∀ extent ∈ extents, lower ≤ max offset extent.fileOffset.toNat) (hle : lower ≤ stop) :
    lower + totalLength ops ≤ stop := by
  induction h generalizing lower with
  | nil => simpa [totalLength] using hle
  | @cons extent op extents ops hop hrest ih =>
    obtain ⟨hfirst, hordered⟩ := pairwise_cons.mp hordered
    have hstart := hop.first
    have hlast := hop.last
    have hfrom := hlower extent mem_cons_self
    have hrest := ih (offset + op.outputOffset.toNat + op.length.toNat) hordered (fun later hlater => by
      have hle := hfirst later hlater
      omega) (by omega)
    rw [totalLength_cons]
    omega

/-- A batch of few enough operations passes the validation. -/
theorem totalFor_of_fits (hfits : ∀ op ∈ ops, op.Fits outputLen) (hlen : outputLen < 2 ^ 64) {total}
    (htotal : total.toNat + totalLength ops < 2 ^ 64) :
    ∃ total', ReadBatch.totalFor outputLen ops total = .ok total' ∧ total'.toNat = total.toNat + totalLength ops := by
  induction ops generalizing total with
  | nil => exact ⟨total, rfl, rfl⟩
  | cons op rest ih =>
    rw [forall_mem_cons] at hfits
    rw [totalLength_cons] at htotal ⊢
    unfold ReadBatch.totalFor
    split
    · next hzero =>
      rw [hzero, UInt64.toNat_zero] at htotal ⊢
      simpa using ih hfits.2 (by omega)
    · have hroom : op.outputOffset.toNat + op.length.toNat ≤ outputLen := hfits.1
      have hsum : (total + op.length).toNat = total.toNat + op.length.toNat := by
        rw [UInt64.toNat_add, Nat.mod_eq_of_lt (by omega)]
      have hstop : (op.outputOffset + op.length).toNat = op.outputOffset.toNat + op.length.toNat := by
        rw [UInt64.toNat_add, Nat.mod_eq_of_lt (by omega)]
      rw [checkedAdd_of_lt (by omega), checkedAdd_of_lt (by omega)]
      simp only
      rw [if_neg (by omega)]
      obtain ⟨total', heq, htotal'⟩ := ih hfits.2 (by omega : (total + op.length).toNat + totalLength rest < 2 ^ 64)
      exact ⟨total', heq, by omega⟩

/-- **Which batches are valid**, when their ranges fit and are not too much together. -/
theorem validateForOutput_iff (hid : batch.layoutRootId.value ≠ "") (hfits : ∀ op ∈ batch.ops, op.Fits outputLen)
    (hlen : outputLen < 2 ^ 64) (htotal : totalLength batch.ops ≤ maxDfsReadBytes.toNat) :
    batch.validateForOutput outputLen .default = .ok () ↔ batch.ops.length ≤ maxDfsReadOps := by
  have hmax : maxDfsReadBytes.toNat < 2 ^ 64 := maxDfsReadBytes.toNat_lt
  obtain ⟨total, heq, htotal'⟩ :=
    totalFor_of_fits hfits hlen (show (0 : UInt64).toNat + totalLength batch.ops < 2 ^ 64 by
    rw [UInt64.toNat_zero]; omega)
  rw [UInt64.toNat_zero, Nat.zero_add] at htotal'
  have hvalid : DfsReadConfig.default.validate = .ok () := by decide
  unfold ReadBatch.validateForOutput
  rw [hvalid, if_neg hid, heq]
  have hbudget : ¬ DfsReadConfig.default.maxInflightBytes < total := by
    show ¬ maxDfsReadBytes < total
    rw [UInt64.lt_iff_toNat_lt]
    omega
  show (if maxDfsReadOps < batch.ops.length then _ else (if _ < total then _ else .ok () : Result Unit)) = .ok () ↔ _
  split
  · next hmany => exact ⟨nofun, fun hle => absurd hmany (by omega)⟩
  · next hfew => exact ⟨fun _ => by omega, fun _ => rfl⟩

end Operations

/-! ## Reads of a layout from the local store -/

section Layout

variable {blake3 : Bytes → Digest} {catalog : LocalCatalog} {files : AList fun _ : ChunkId => Bytes} {ω : Type}
  {ops : List ChunkReadOp}

theorem op_of_packed {start packed} (h : packed ∈ packOps start ops) : ∃ op ∈ ops, PackedAs op packed := by
  induction ops generalizing start with
  | nil => cases h
  | cons op ops ih =>
    rcases mem_cons.mp h with rfl | h
    · exact ⟨op, mem_cons_self, rfl, rfl, rfl⟩
    · obtain ⟨op', hop', hpacked⟩ := ih h
      exact ⟨op', mem_cons_of_mem _ hop', hpacked⟩

variable (blake3 catalog files) in
/-- The range lies in a chunk that is durable and intact in the local store. -/
def Servable (chunkId : ChunkId) (chunkOffset length : Nat) : Prop :=
  ∃ chunk content, IntactCopy blake3 catalog files chunkId chunk content ∧ chunkOffset + length ≤ chunk.length.toNat

theorem storeEnv_serves (rest : ReadEnv ω)
    (hops : ∀ op ∈ ops, Servable blake3 catalog files op.chunkId op.chunkOffset.toNat op.length.toNat)
    (hsize : totalLength ops < 2 ^ 64) :
    (storeEnv blake3 catalog files rest).Serves (totalLength ops) (packOps 0 ops) := by
  intro chunkId items hitems hne hchunk world
  have hservable : ∀ op ∈ items, Servable blake3 catalog files chunkId op.chunkOffset.toNat op.length.toNat := by
    intro packed hpacked
    obtain ⟨op, hop, has⟩ := op_of_packed (hitems hpacked)
    have h := hops op hop
    rwa [← has.chunkId, ← has.chunkOffset, ← has.length, hchunk packed hpacked] at h
  obtain ⟨first, hfirst⟩ := exists_mem_of_ne_nil items hne
  obtain ⟨chunk, content, hcopy, -⟩ := hservable first hfirst
  have hopen := hcopy.openVerified
  refine ⟨world, by simp [storeEnv, hopen, Except.map], ?_⟩
  intro out hout
  simp only [storeEnv, hopen]
  rw [verifiedRangesInto_intact hcopy.length hcopy.digest, map_map]
  · rfl
  · intro range hrange
    obtain ⟨op, hop, rfl⟩ := mem_map.mp hrange
    obtain ⟨chunk', content', hcopy', hinside⟩ := hservable op hop
    -- both copies are what the store opens
    have heq := hcopy'.openVerified
    rw [hopen] at heq
    cases heq
    exact hinside
  · intro range hrange
    obtain ⟨op, hop, rfl⟩ := mem_map.mp hrange
    rw [hout]
    exact (readable_packOps hsize).fits op (hitems hop)
  · omega

/-- The engine in a state of the outside. -/
def storeEngine (env : ReadEnv ω) (world : ω) : ReadEngine := fun batch out =>
  match (readBatch env .default batch out world).1 with
  | (.ok (), out') => .ok out'
  | (.error e, _) => .error e

/-- What `commit_file_version` requires of a layout. -/
structure Acceptable (layout : LayoutRoot) : Prop where
  id : requireId layout.id.value "layout_root.id" = .ok ()
  extents : ∃ receipts base, checkExtents receipts base layout.fileLength layout.inlineExtents 0 = .ok ()

variable (blake3 catalog files) in
/-- The chunks of the layout are all durable and intact in the local store. -/
def IntactLayout (layout : LayoutRoot) : Prop :=
  ∀ extent ∈ layout.inlineExtents,
    Servable blake3 catalog files extent.chunkId extent.chunkOffset.toNat extent.length.toNat

/-- The number of extents that a read meets. -/
def fragments (state : VisibleState) (offset outLen : UInt64) : Nat :=
  state.layout.inlineExtents.countP
    (Extent.Meets offset.toNat (offset.toNat + min (state.length.toNat - offset.toNat) outLen.toNat))

theorem Acceptable.ordered (h : Acceptable layout) : OrderedExtents layout.fileLength layout.inlineExtents := by
  obtain ⟨receipts, base, hcheck⟩ := h.extents
  exact (orderedExtents_of_check hcheck).1

theorem Acceptable.inRange (h : Acceptable layout) (hintact : IntactLayout blake3 catalog files layout) :
    ∀ extent ∈ layout.inlineExtents, ExtentInRange extent := by
  intro extent hextent
  obtain ⟨chunk, -, -, hinside⟩ := hintact extent hextent
  have hfile := h.ordered.within extent hextent
  have := layout.fileLength.toNat_lt
  have := chunk.length.toNat_lt
  exact ⟨by omega, by omega⟩

/-- The operations that read an acceptable layout. -/
structure LayoutOps (layout : LayoutRoot) (offset count : Nat) (ops : List ChunkReadOp) : Prop where
  apart : NonOverlapping ops
  fits : ∀ op ∈ ops, op.Fits count
  total : totalLength ops ≤ count
  number : ops.length = layout.inlineExtents.countP (Extent.Meets offset (offset + count))
  part : ∀ op ∈ ops, ∃ extent ∈ layout.inlineExtents, op.chunkId = extent.chunkId ∧
    op.chunkOffset.toNat + op.length.toNat ≤ extent.chunkOffset.toNat + extent.length.toNat

theorem Acceptable.layoutOps (h : Acceptable layout) {offset stop count}
    (hstop : stop.toNat = offset.toNat + count) (hops : layoutReadOps offset stop layout.inlineExtents = .ok ops) :
    LayoutOps layout offset.toNat count ops := by
  have hreads := layoutReadOps_reads hops
  have hordered := h.ordered.ordered.sublist
    (filter_sublist (p := Extent.Meets offset.toNat stop.toNat))
  refine ⟨nonOverlapping_of_reads hreads hordered, ?_, ?_, ?_, ?_⟩
  · intro op hop
    obtain ⟨extent, -, hread⟩ := extent_of_op hreads hop
    have := hread.last
    show op.outputOffset.toNat + op.length.toNat ≤ count
    omega
  · have htotal := totalLength_of_reads offset.toNat hreads hordered (fun extent _ => le_max_left _ _) (by omega)
    omega
  · rw [← hreads.length_eq, ← countP_eq_length_filter, hstop]
  · intro op hop
    obtain ⟨extent, hextent, hread⟩ := extent_of_op hreads hop
    obtain ⟨hextent, hmeets⟩ := mem_filter.mp hextent
    have := hread.first
    have := hread.last
    have := hread.source
    exact ⟨extent, hextent, hread.chunkId, by omega⟩

/-- **A read of an acceptable layout whose chunks are in the local store** is read as the chunks say if it makes few
    enough operations, and fails otherwise. -/
theorem readLayoutRange_store (rest : ReadEnv ω) (world : ω) (committed : Option FileVersionId)
    (hacceptable : Acceptable layout) (hintact : IntactLayout blake3 catalog files layout) {offset}
    (hend : offset.toNat + out.length < 2 ^ 64) (hlen : out.length ≤ maxDfsReadBytes.toNat) :
    if layout.inlineExtents.countP (Extent.Meets offset.toNat (offset.toNat + out.length)) ≤ maxDfsReadOps then
      readLayoutRange (storeEngine (storeEnv blake3 catalog files rest) world) committed layout offset out =
        readLayoutRange (chunkEngine (storeBytes blake3 catalog files)) committed layout offset out
    else ∃ e, readLayoutRange (storeEngine (storeEnv blake3 catalog files rest) world) committed layout offset out =
      .error e := by
  have hlength : (ofNat out.length).toNat = out.length :=
    toNat_ofNat_of_lt' (by simp only [size]; omega)
  have hstop : (offset + ofNat out.length).toNat = offset.toNat + out.length := by
    rw [UInt64.toNat_add, hlength, Nat.mod_eq_of_lt hend]
  obtain ⟨ops, hops⟩ := layoutReadOps_total offset (offset + ofNat out.length) (hacceptable.inRange hintact)
  have hlayout := hacceptable.layoutOps hstop hops
  have hid : layout.id.value ≠ "" := by
    intro hempty
    have := hacceptable.id
    rw [hempty] at this
    cases this
  have hvalid : ReadBatch.validateForOutput ⟨committed, layout.id, ops⟩ out.length .default = .ok () ↔
      ops.length ≤ maxDfsReadOps :=
    validateForOutput_iff hid hlayout.fits (by omega) (hlayout.total.trans hlen)
  rw [hlayout.number] at hvalid
  simp only [readLayoutRange, checkedAdd_of_lt (show offset.toNat + (ofNat out.length).toNat < 2 ^ 64 by
    rw [hlength]; exact hend), hops]
  split
  · next hfew =>
    have hservable : ∀ op ∈ ops, Servable blake3 catalog files op.chunkId op.chunkOffset.toNat op.length.toNat := by
      intro op hop
      obtain ⟨extent, hextent, hchunk, hpart⟩ := hlayout.part op hop
      obtain ⟨chunk, content, hcopy, hinside⟩ := hintact extent hextent
      exact ⟨chunk, content, hchunk ▸ hcopy, by omega⟩
    have htotal := hlayout.total
    have hserves := storeEnv_serves rest hservable (by omega)
    have hread :=
      readBatch_served (storeEnv_faithfulLocally rest) (hvalid.mpr hfew) hlayout.apart hlayout.fits hserves world
    rw [storeEngine, hread]
    rfl
  · next hmany =>
    rw [storeEngine, readBatch]
    cases hcheck : ReadBatch.validateForOutput ⟨committed, layout.id, ops⟩ out.length .default with
    | ok _ => exact absurd (hvalid.mp hcheck) hmany
    | error e => exact ⟨e, rfl⟩

/-- What a read returns is what a read of the chunks returns, unless it meets too many extents. -/
theorem readVisible_store (rest : ReadEnv ω) (world : ω) {state} (hacceptable : Acceptable state.layout)
    (hintact : IntactLayout blake3 catalog files state.layout) (offset : UInt64) {outLen}
    (hlen : outLen ≤ maxDfsReadBytes) :
    if fragments state offset outLen ≤ maxDfsReadOps then
      readVisible (storeEngine (storeEnv blake3 catalog files rest) world) state offset outLen =
        readVisible (chunkEngine (storeBytes blake3 catalog files)) state offset outLen
    else ∃ e, readVisible (storeEngine (storeEnv blake3 catalog files rest) world) state offset outLen = .error e := by
  have hlen := le_iff_toNat_le.mp hlen
  unfold fragments readVisible
  by_cases hnone : offset ≥ state.length ∨ outLen = 0
  · -- nothing is read
    have hzero : min (state.length.toNat - offset.toNat) outLen.toNat = 0 := by
      rcases hnone with hoffset | rfl
      · rw [ge_iff_le, le_iff_toNat_le] at hoffset
        omega
      · simp
    have hcount : state.layout.inlineExtents.countP (Extent.Meets offset.toNat (offset.toNat + 0)) = 0 := by
      rw [countP_eq_zero]
      intro extent _
      rw [Extent.Meets, decide_eq_true_eq]
      omega
    rw [hzero, hcount, if_pos (Nat.zero_le _), if_pos hnone, if_pos hnone]
  · rw [if_neg hnone, if_neg hnone]
    rw [not_or, ge_iff_le, UInt64.not_le] at hnone
    have hlt := lt_iff_toNat_lt.mp hnone.1
    have hcount :
      (min (state.length - offset) outLen).toNat = min (state.length.toNat - offset.toNat) outLen.toNat := by
      rw [UInt64.toNat_min, UInt64.toNat_sub_of_le _ _ (UInt64.le_of_lt hnone.1)]
    have := state.length.toNat_lt
    rw [← hcount]
    simp only
    generalize (min (state.length - offset) outLen).toNat = count at hcount ⊢
    have hzeros : (replicate count (0 : UInt8)).length = count := length_replicate
    have hread := readLayoutRange_store rest world state.committed hacceptable hintact
      (show offset.toNat + (replicate count (0 : UInt8)).length < 2 ^ 64 by omega) (by omega)
    rw [hzeros] at hread
    split
    · next hfew =>
      rw [if_pos hfew] at hread
      rw [hread]
    · next hmany =>
      rw [if_neg hmany] at hread
      obtain ⟨e, he⟩ := hread
      exact ⟨e, by rw [he]; rfl⟩

/-- A read of few extents returns the visible bytes. -/
theorem readVisible_of_few (rest : ReadEnv ω) (world : ω) {state} (hacceptable : Acceptable state.layout)
    (hintact : IntactLayout blake3 catalog files state.layout) {offset outLen} (hlen : outLen ≤ maxDfsReadBytes)
    (hfew : fragments state offset outLen ≤ maxDfsReadOps)
    (hlog : ∀ extent ∈ state.frozen.getD [] ++ state.active, extent.InRange) :
    ∃ bytes, readVisible (storeEngine (storeEnv blake3 catalog files rest) world) state offset outLen = .ok bytes ∧
      bytes.length = min (state.length.toNat - offset.toNat) outLen.toNat ∧
      ∀ i < bytes.length,
        bytes[i]? = some (visibleByte (storeBytes blake3 catalog files) state (offset.toNat + i)) := by
  have hengine := readsChunks_chunkEngine (storeBytes blake3 catalog files)
  have hread := readVisible_store rest world hacceptable hintact offset hlen
  rw [if_pos hfew] at hread
  have hanswers : AnswersRead (chunkEngine (storeBytes blake3 catalog files)) state offset outLen := fun _ _ => ⟨_, rfl⟩
  obtain ⟨bytes, hbytes⟩ := readVisible_total hengine hanswers ⟨hacceptable.inRange hintact, hlog⟩
  exact ⟨bytes, hread.trans hbytes, readVisible_eq hengine hbytes⟩

/-- **A file of many extents.** Let a layout be one that a commit accepts, with all of its chunks durable and intact in
    the local store. A read of at most 8 MiB returns the visible bytes, as many as there are, if and only if there is
    nothing to read, or it meets at most 128 extents and no extent of the dirty logs ends past `2 ^ 64`. -/
theorem fragmented_file_readable (rest : ReadEnv ω) (world : ω) {state : VisibleState}
    (hacceptable : Acceptable state.layout) (hintact : IntactLayout blake3 catalog files state.layout)
    (offset : UInt64) {outLen : UInt64} (hlen : outLen ≤ maxDfsReadBytes) :
    (∃ bytes, readVisible (storeEngine (storeEnv blake3 catalog files rest) world) state offset outLen = .ok bytes ∧
      bytes.length = min (state.length.toNat - offset.toNat) outLen.toNat ∧
      ∀ i < bytes.length, bytes[i]? = some (visibleByte (storeBytes blake3 catalog files) state (offset.toNat + i))) ↔
    (offset ≥ state.length ∨ outLen = 0) ∨
      fragments state offset outLen ≤ maxDfsReadOps ∧
        ∀ extent ∈ state.frozen.getD [] ++ state.active, extent.InRange := by
  constructor
  · rintro ⟨bytes, hok, -⟩
    by_cases hnone : offset ≥ state.length ∨ outLen = 0
    · exact .inl hnone
    refine .inr ⟨?_, inRange_of_readVisible hnone hok⟩
    by_contra hmany
    have hread := readVisible_store rest world hacceptable hintact offset hlen
    rw [if_neg hmany] at hread
    obtain ⟨e, he⟩ := hread
    rw [he] at hok
    cases hok
  · rintro (hnone | ⟨hfew, hlog⟩)
    · have hread :
        readVisible (chunkEngine (storeBytes blake3 catalog files)) state offset outLen = .ok [] := if_pos hnone
      exact ⟨[], if_pos hnone, readVisible_eq (readsChunks_chunkEngine _) hread⟩
    · exact readVisible_of_few rest world hacceptable hintact hlen hfew hlog

end Layout

/-! A chunk of one byte that a file refers to again and again. -/

section Sample

def byteChunk : ChunkObject := (StagedChunk.new zeroDigest ⟨"op"⟩ [7]).chunk

def byteCatalog : LocalCatalog :=
  ⟨1, AList.insert byteChunk.id (newRecord ⟨"here", "local-0", 1, .empty⟩ 1 byteChunk) ∅⟩

def byteFiles : AList fun _ : ChunkId => Bytes := AList.insert byteChunk.id [7] ∅

def byteReceipt : ChunkReceipt := ⟨⟨"operation"⟩, byteChunk, 1, 1, ⟨"group"⟩, []⟩

/-- A file of so many bytes, each an extent of its own. -/
def scattered (number : Nat) : LayoutRoot :=
  ⟨⟨"layout"⟩, UInt64.ofNat number, (List.range number).map fun k => ⟨UInt64.ofNat k, 1, byteChunk.id, 0⟩⟩

def scatteredState (number : Nat) : VisibleState := ⟨none, UInt64.ofNat number, scattered number, none, []⟩

theorem intactCopy_byte : IntactCopy zeroDigest byteCatalog byteFiles byteChunk.id byteChunk [7] where
  cataloged := ⟨_, AList.lookup_insert _, rfl, rfl, by simp [pathForRecord, newRecord]⟩
  file := AList.lookup_insert _
  length := rfl
  digest := rfl

theorem intactLayout_scattered (number : Nat) : IntactLayout zeroDigest byteCatalog byteFiles (scattered number) := by
  intro extent hextent
  obtain ⟨k, -, rfl⟩ := mem_map.mp hextent
  exact ⟨byteChunk, [7], intactCopy_byte, Nat.le_refl 1⟩

theorem acceptable_scattered {number}
    (h : checkExtents [byteReceipt] none (scattered number).fileLength (scattered number).inlineExtents 0 = .ok ()) :
    Acceptable (scattered number) := by
  have hid : requireId "layout" "layout_root.id" = .ok () := by decide
  exact ⟨hid, [byteReceipt], none, h⟩

/-- Two committed bytes; a commit in flight writes over the second, and a third is written after it. -/
def dirtyState : VisibleState :=
  { scatteredState 2 with
    length := 3
    frozen := some (DirtyExtentMap.writeAt [] 1 ⟨[8], by decide⟩ 1)
    active := DirtyExtentMap.writeAt [] 2 ⟨[6], by decide⟩ 2 }

theorem fragmented_file_readable_of_two :
    ∃ bytes, readVisible (storeEngine (storeEnv zeroDigest byteCatalog byteFiles peerOnly) ()) dirtyState 0 8 =
      .ok bytes ∧ bytes.length = 3 ∧
      ∀ i < bytes.length,
        bytes[i]? = some (visibleByte (storeBytes zeroDigest byteCatalog byteFiles) dirtyState (0 + i)) :=
  (fragmented_file_readable peerOnly () (acceptable_scattered (by decide) : Acceptable dirtyState.layout)
    (intactLayout_scattered 2) 0 (by decide)).mpr (.inr ⟨by decide, by decide⟩)

/-- A write that ends past `2 ^ 64` fails and leaves its extent in the log. -/
def overflowedState : VisibleState :=
  let log := (WriteLog.new 1).write 0xffffffffffffffff ⟨[8, 9], by decide⟩
  ⟨none, log.logicalLength, scattered 1, log.frozen, log.active⟩

/-- One extent too many, or one dirty extent that overflows: the chunk is there and the read fails. -/
theorem fragmented_file_unreadable :
    (Acceptable (scattered 129) ∧ IntactLayout zeroDigest byteCatalog byteFiles (scattered 129) ∧
      readVisible (storeEngine (storeEnv zeroDigest byteCatalog byteFiles peerOnly) ()) (scatteredState 129) 0 129 =
        .error (DfsRead.invalid "DFS read batch contains too many ranges")) ∧
    Acceptable (scattered 1) ∧ IntactLayout zeroDigest byteCatalog byteFiles (scattered 1) ∧
      readVisible (storeEngine (storeEnv zeroDigest byteCatalog byteFiles peerOnly) ()) overflowedState 0 1 =
        .error (invalid "dirty extent range overflow") :=
  ⟨⟨acceptable_scattered (by decide +kernel), intactLayout_scattered 129, by decide +kernel⟩,
    acceptable_scattered (by decide), intactLayout_scattered 1, by decide +kernel⟩

end Sample

end Afs.Node
