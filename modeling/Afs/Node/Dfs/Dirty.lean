import Afs.Dfs
import Afs.Error
import Afs.Lib.Overlay
import Afs.Lib.Runs
import Mathlib.Data.List.Sort

/-!
# `Node.Dfs.Dirty` — dirty extents and visible reads

The dirty log of an inode in `node/vfs/dfs.rs`: writes and resizes in the order they were accepted, each over a range
of the file, a resize as a hole. A read takes the bytes that the committed layout refers to and lays the log over
them. `readVisible_eq` says which byte a read returns at which offset. A rejected commit puts its log back before what
was written since.

A `usize` is as wide as a `u64`, so the conversions between them do not fail.
-/

namespace Afs.Node

open Overlay List UInt64

def invalid (message : String) : Error := ⟨.nodeVfsInvalid, message⟩
def stale (message : String) : Error := ⟨.nodeDfsStaleHandle, message⟩

/-! ## The dirty log -/

/-- A slice of bytes; no object of the program is larger than `isize::MAX`. -/
structure Payload where
  bytes : Bytes
  bound : bytes.length < 2 ^ 63

/-- A range of the file that a write filled with `data` or a resize with zeros. -/
structure DirtyExtent where
  (fileOffset length writeSeq : UInt64)
  data : Option Bytes
  sized : ∀ bytes ∈ data, bytes.length = length.toNat

abbrev DirtyExtentMap := List DirtyExtent

namespace DirtyExtentMap

/-- Answers all of `data.len()` as written. -/
def writeAt (map : DirtyExtentMap) (offset : UInt64) (data : Payload) (writeSeq : UInt64) : DirtyExtentMap :=
  if data.bytes.isEmpty then map
  else map ++ [{
    fileOffset := offset
    length := UInt64.ofNat data.bytes.length
    writeSeq := writeSeq
    data := some data.bytes
    sized := by
      intro bytes hbytes
      rw [← Option.mem_some_iff.mp hbytes]
      exact (UInt64.toNat_ofNat_of_lt (Nat.lt_trans data.bound (by decide))).symm }]

def resize (map : DirtyExtentMap) (oldLength newLength writeSeq : UInt64) : DirtyExtentMap :=
  let start := if newLength < oldLength then newLength else oldLength
  let stop := if newLength < oldLength then oldLength else newLength
  if start < stop then map ++ [⟨start, stop - start, writeSeq, none, fun _ h => nomatch h⟩] else map

/-- The part of an extent that lies in the buffer of a read is copied into it. -/
def overlayExtent (offset stop : UInt64) (out : Bytes) (extent : DirtyExtent) : Result Bytes :=
  match extent.fileOffset.checkedAdd extent.length with
  | none => .error (invalid "dirty extent range overflow")
  | some extentEnd =>
    let start := max offset extent.fileOffset
    let stop := min stop extentEnd
    if start ≥ stop then .ok out
    else
      let length := (stop - start).toNat
      match extent.data with
      | some data =>
        .ok (patch out (start - offset).toNat ((data.drop (start - extent.fileOffset).toNat).take length))
      | none => .ok (patch out (start - offset).toNat (List.replicate length 0))

/-- Lays the log over a buffer that was read from `offset` on. -/
def overlay (map : DirtyExtentMap) (offset : UInt64) (out : Bytes) : Result Bytes :=
  match offset.checkedAdd (UInt64.ofNat out.length) with
  | none => .error (invalid "dirty read range overflow")
  | some stop => map.foldlM (overlayExtent offset stop) out

/-- Puts older extents back, in the order of their sequence numbers. -/
def restoreBefore (map older : DirtyExtentMap) : DirtyExtentMap :=
  (older ++ map).insertionSort fun a b => a.writeSeq ≤ b.writeSeq

end DirtyExtentMap

/-! ## Reads -/

structure ChunkReadOp where
  chunkId : ChunkId
  (chunkOffset length outputOffset : UInt64)

structure ReadBatch where
  fileVersionId : Option FileVersionId
  layoutRootId : LayoutRootId
  ops : List ChunkReadOp

/-- The read engine fills the ranges of a buffer from chunks, or fails and leaves the buffer as it is. -/
abbrev ReadEngine := ReadBatch → Bytes → Result Bytes

/-- The operations that read the part of a layout between two offsets. -/
def layoutReadOps (offset stop : UInt64) : List Extent → Result (List ChunkReadOp)
  | [] => .ok []
  | extent :: rest =>
    match extent.fileOffset.checkedAdd extent.length with
    | none => .error (invalid "extent range overflow")
    | some extentEnd =>
      let start := max offset extent.fileOffset
      let stop' := min stop extentEnd
      if start ≥ stop' then layoutReadOps offset stop rest
      else
        match extent.chunkOffset.checkedAdd (start - extent.fileOffset) with
        | none => .error (invalid "chunk read offset overflow")
        | some chunkOffset =>
          match layoutReadOps offset stop rest with
          | .error e => .error e
          | .ok ops => .ok (⟨extent.chunkId, chunkOffset, stop' - start, start - offset⟩ :: ops)

def readLayoutRange (engine : ReadEngine) (committed : Option FileVersionId) (layout : LayoutRoot) (offset : UInt64)
    (out : Bytes) : Result Bytes :=
  match offset.checkedAdd (UInt64.ofNat out.length) with
  | none => .error (invalid "read range overflow")
  | some stop =>
    match layoutReadOps offset stop layout.inlineExtents with
    | .error e => .error e
    | .ok ops => engine ⟨committed, layout.id, ops⟩ out

/-- What a read takes from the write state under its lock. -/
structure VisibleState where
  committed : Option FileVersionId
  length : UInt64
  layout : LayoutRoot
  frozen : Option DirtyExtentMap
  active : DirtyExtentMap

variable {extent : DirtyExtent} {extents : List Extent} {state : VisibleState}

/-- The log of a commit in flight lies under the active one. -/
def overlayFrozen (frozen : Option DirtyExtentMap) (offset : UInt64) (out : Bytes) : Result Bytes :=
  match frozen with
  | some frozen => frozen.overlay offset out
  | none => .ok out

/-- `read_visible`: the bytes that are written to the front of a buffer of `outLen` bytes. -/
def readVisible (engine : ReadEngine) (state : VisibleState) (offset outLen : UInt64) : Result Bytes :=
  if offset ≥ state.length ∨ outLen = 0 then .ok []
  else do
    let count := min (state.length - offset) outLen
    let out ← readLayoutRange engine state.committed state.layout offset (List.replicate count.toNat 0)
    let out ← overlayFrozen state.frozen offset out
    state.active.overlay offset out

/-! ## What a read returns -/

/-- A dirty extent as a layer of bytes. -/
def dirtyLayers : Layers DirtyExtent UInt8 where
  lo := fun extent => extent.fileOffset.toNat
  hi := fun extent => extent.fileOffset.toNat + extent.length.toNat
  val := fun extent n =>
    match extent.data with
    | some data => data.getD (n - extent.fileOffset.toNat) 0
    | none => 0

/-- The bytes of every chunk. -/
abbrev ChunkBytes := ChunkId → Nat → UInt8

/-- An extent of a layout as a layer of bytes. -/
def extentLayers (chunk : ChunkBytes) : Layers Extent UInt8 where
  lo := fun extent => extent.fileOffset.toNat
  hi := fun extent => extent.fileOffset.toNat + extent.length.toNat
  val := fun extent n => chunk extent.chunkId (extent.chunkOffset.toNat + (n - extent.fileOffset.toNat))

/-- The byte that a layout refers to at an offset; a hole reads as zero. -/
def layoutByte (chunk : ChunkBytes) (layout : LayoutRoot) (n : Nat) : UInt8 :=
  (extentLayers chunk).top layout.inlineExtents 0 n

/-- The byte at an offset of what the write state makes visible. -/
def visibleByte (chunk : ChunkBytes) (state : VisibleState) (n : Nat) : UInt8 :=
  dirtyLayers.top state.active (dirtyLayers.top (state.frozen.getD []) (layoutByte chunk state.layout n) n) n

/-- The range that an extent and the buffer of a read have in common. -/
theorem overlap_bounds {offset stop lo hi : UInt64} (h : ¬ max offset lo ≥ min stop hi) :
    (max offset lo - offset).toNat = max offset.toNat lo.toNat - offset.toNat ∧
      (max offset lo - lo).toNat = max offset.toNat lo.toNat - lo.toNat ∧
      (min stop hi - max offset lo).toNat = min stop.toNat hi.toNat - max offset.toNat lo.toNat ∧
      max offset.toNat lo.toNat < min stop.toNat hi.toNat := by
  have hlt : (max offset lo).toNat < (min stop hi).toNat := by
    rw [ge_iff_le, UInt64.le_iff_toNat_le] at h
    omega
  have hoffset : offset ≤ max offset lo := le_iff_toNat_le.mpr (by rw [toNat_max]; omega)
  have hlo : lo ≤ max offset lo := le_iff_toNat_le.mpr (by rw [toNat_max]; omega)
  have hle : max offset lo ≤ min stop hi := le_iff_toNat_le.mpr (Nat.le_of_lt hlt)
  rw [UInt64.toNat_sub_of_le _ _ hoffset, UInt64.toNat_sub_of_le _ _ hlo, UInt64.toNat_sub_of_le _ _ hle]
  simp only [toNat_max, toNat_min] at hlt ⊢
  exact ⟨trivial, trivial, trivial, hlt⟩

namespace DirtyExtentMap

variable {offset stop : UInt64} {out out' : Bytes} {map : DirtyExtentMap}

/-- One extent of the log lays itself over the buffer. -/
theorem overlayExtent_eq (hstop : stop.toNat = offset.toNat + out.length)
    (h : overlayExtent offset stop out extent = .ok out') :
    out'.length = out.length ∧ ∀ i b, out[i]? = some b →
      out'[i]? = some (if dirtyLayers.Covers extent (offset.toNat + i) then
        dirtyLayers.val extent (offset.toNat + i) else b) := by
  rw [overlayExtent] at h
  split at h
  · cases h
  next extentEnd hend =>
  rw [checkedAdd_eq_some] at hend
  dsimp only at h
  split at h
  · next hempty =>
    cases h
    refine ⟨rfl, fun i b hb => ?_⟩
    have hi : i < out.length := (List.getElem?_eq_some_iff.mp hb).1
    rw [ge_iff_le, le_iff_toNat_le, toNat_max, toNat_min] at hempty
    rw [if_neg, hb]
    rintro ⟨hlo, hhi⟩
    simp only [dirtyLayers] at hlo hhi
    omega
  · next hsome =>
    obtain ⟨hstart, hsource, hlength, hlt⟩ := overlap_bounds hsome
    have hlo : max offset.toNat extent.fileOffset.toNat = max offset.toNat (dirtyLayers.lo extent) := rfl
    have hhi : min stop.toNat extentEnd.toNat = min (offset.toNat + out.length) (dirtyLayers.hi extent) := by
      rw [hstop, ← hend]
      rfl
    split at h
    · next data hdata =>
      cases h
      have hsized : data.length = extent.length.toNat := extent.sized data hdata
      rw [hstart, hsource, hlength]
      have hpiece : ((data.drop (max offset.toNat extent.fileOffset.toNat - extent.fileOffset.toNat)).take
          (min stop.toNat extentEnd.toNat - max offset.toNat extent.fileOffset.toNat)).length =
          min stop.toNat extentEnd.toNat - max offset.toNat extent.fileOffset.toNat := by
        rw [length_take, length_drop, hsized]
        omega
      refine ⟨length_patch (by rw [hpiece]; omega), fun i b hb => ?_⟩
      refine getElem?_patch_layer hlo hhi hlt hpiece ?_ hb
      intro n hn hn'
      rw [getElem?_take_of_lt (by omega), getElem?_drop]
      simp only [dirtyLayers, hdata]
      rw [getD_eq_getElem?_getD, getElem?_eq_getElem (by omega), getElem?_eq_getElem (by omega),
        Option.getD_some]
      congr 2
      omega
    · next hdata =>
      cases h
      rw [hstart, hlength]
      refine ⟨length_patch (by rw [length_replicate]; omega), fun i b hb => ?_⟩
      refine getElem?_patch_layer hlo hhi hlt length_replicate ?_ hb
      intro n hn hn'
      rw [getElem?_replicate, if_pos (by omega)]
      simp only [dirtyLayers, hdata]

/-- What a log shows depends on a buffer only through the byte under it. -/
def LaidOver (map : DirtyExtentMap) (offset : UInt64) (out out' : Bytes) : Prop :=
  out'.length = out.length ∧
    ∀ i b, out[i]? = some b → out'[i]? = some (dirtyLayers.top map b (offset.toNat + i))

theorem laidOver_of_foldlM (hstop : stop.toNat = offset.toNat + out.length)
    (h : map.foldlM (overlayExtent offset stop) out = .ok out') : LaidOver map offset out out' := by
  induction map generalizing out with
  | nil =>
    cases h
    exact ⟨rfl, fun _ _ hb => hb⟩
  | cons extent map ih =>
    rw [foldlM_cons] at h
    cases hextent : overlayExtent offset stop out extent with
    | error e =>
      rw [hextent] at h
      cases h
    | ok mid =>
      rw [hextent] at h
      obtain ⟨hlength, hmid⟩ := overlayExtent_eq hstop hextent
      obtain ⟨hlength', hrest⟩ := ih (by rw [hlength]; exact hstop) h
      refine ⟨hlength'.trans hlength, fun i b hb => ?_⟩
      rw [Layers.top_cons]
      exact hrest i _ (hmid i b hb)

/-- **The log over a buffer.** -/
theorem overlay_eq (hsize : out.length < 2 ^ 64) (h : map.overlay offset out = .ok out') :
    LaidOver map offset out out' := by
  rw [overlay] at h
  split at h
  · cases h
  · next stop hstop =>
    rw [checkedAdd_eq_some, toNat_ofNat_of_lt' hsize] at hstop
    exact laidOver_of_foldlM hstop.symm h

end DirtyExtentMap

/-! ## Reads of a layout -/

/-- What one operation of the read engine writes. -/
def readOp (chunk : ChunkBytes) (out : Bytes) (op : ChunkReadOp) : Bytes :=
  patch out op.outputOffset.toNat
    ((List.range op.length.toNat).map fun i => chunk op.chunkId (op.chunkOffset.toNat + i))

/-- A read engine that either fails or reads the bytes of the chunks. -/
def ReadsChunks (engine : ReadEngine) (chunk : ChunkBytes) : Prop :=
  ∀ batch out out', engine batch out = .ok out' → out' = batch.ops.foldl (readOp chunk) out

section Layout

variable {chunk : ChunkBytes} {engine : ReadEngine} {offset stop : UInt64} {out out' : Bytes}

theorem foldl_readOp {ops} (hstop : stop.toNat = offset.toNat + out.length)
    (h : layoutReadOps offset stop extents = .ok ops) :
    (ops.foldl (readOp chunk) out).length = out.length ∧ ∀ i b, out[i]? = some b →
      (ops.foldl (readOp chunk) out)[i]? = some ((extentLayers chunk).top extents b (offset.toNat + i)) := by
  induction extents generalizing out ops with
  | nil =>
    cases h
    exact ⟨rfl, fun _ _ hb => hb⟩
  | cons extent rest ih =>
    rw [layoutReadOps] at h
    split at h
    · cases h
    next extentEnd hend =>
    rw [checkedAdd_eq_some] at hend
    dsimp only at h
    split at h
    · -- The extent lies outside of the buffer.
      next hempty =>
      obtain ⟨hlength, hrest⟩ := ih hstop h
      refine ⟨hlength, fun i b hb => ?_⟩
      have hi : i < out.length := (List.getElem?_eq_some_iff.mp hb).1
      rw [ge_iff_le, le_iff_toNat_le, toNat_max, toNat_min] at hempty
      rw [Layers.top_cons, if_neg, hrest i b hb]
      rintro ⟨hlo, hhi⟩
      simp only [extentLayers] at hlo hhi
      omega
    · next hsome =>
      obtain ⟨hstart, hsource, hlength, hlt⟩ := overlap_bounds hsome
      split at h
      · cases h
      next chunkOffset hchunk =>
      rw [checkedAdd_eq_some, hsource] at hchunk
      split at h
      · cases h
      next ops' hops =>
      cases h
      have hlo : max offset.toNat extent.fileOffset.toNat = max offset.toNat ((extentLayers chunk).lo extent) := rfl
      have hhi : min stop.toNat extentEnd.toNat = min (offset.toNat + out.length) ((extentLayers chunk).hi extent) := by
        rw [hstop, ← hend]
        rfl
      rw [foldl_cons, readOp, hstart, hlength]
      generalize hpiece : (range _).map _ = piece
      have hpieceLength : piece.length = min stop.toNat extentEnd.toNat - max offset.toNat extent.fileOffset.toNat := by
        rw [← hpiece, length_map, length_range]
      have hmid : (patch out (max offset.toNat extent.fileOffset.toNat - offset.toNat) piece).length = out.length :=
        length_patch (by omega)
      obtain ⟨hlength', hrest⟩ := ih (by rw [hmid]; exact hstop) hops
      refine ⟨hlength'.trans hmid, fun i b hb => ?_⟩
      rw [Layers.top_cons]
      refine hrest i _ (getElem?_patch_layer hlo hhi hlt hpieceLength ?_ hb)
      intro n hn hn'
      rw [← hpiece, getElem?_map, getElem?_range (by omega)]
      simp only [extentLayers, Option.map_some]
      congr 2
      omega

theorem readLayoutRange_eq (hengine : ReadsChunks engine chunk) {committed layout} (hsize : out.length < 2 ^ 64)
    (h : readLayoutRange engine committed layout offset out = .ok out') :
    out'.length = out.length ∧ ∀ i b, out[i]? = some b →
      out'[i]? = some ((extentLayers chunk).top layout.inlineExtents b (offset.toNat + i)) := by
  rw [readLayoutRange] at h
  split at h
  · cases h
  next stop hstop =>
  rw [checkedAdd_eq_some, toNat_ofNat_of_lt' hsize] at hstop
  split at h
  · cases h
  next ops hops =>
  rw [hengine _ _ _ h]
  exact foldl_readOp hstop.symm hops

/-- **What a read returns**: the visible bytes from the offset on, as many as there are and fit. -/
theorem readVisible_eq (hengine : ReadsChunks engine chunk) {outLen bytes}
    (h : readVisible engine state offset outLen = .ok bytes) :
    bytes.length = min (state.length.toNat - offset.toNat) outLen.toNat ∧
      ∀ i, i < bytes.length → bytes[i]? = some (visibleByte chunk state (offset.toNat + i)) := by
  rw [readVisible] at h
  split at h
  · next hnone =>
    cases h
    refine ⟨?_, fun i hi => absurd hi (Nat.not_lt_zero i)⟩
    rcases hnone with hoffset | rfl
    · rw [ge_iff_le, le_iff_toNat_le] at hoffset
      simp only [length_nil]
      omega
    · simp
  next hsome =>
  have hlt : offset.toNat < state.length.toNat := by
    rw [not_or, ge_iff_le, le_iff_toNat_le] at hsome
    omega
  have hcount : (min (state.length - offset) outLen).toNat = min (state.length.toNat - offset.toNat) outLen.toNat := by
    rw [UInt64.toNat_min, UInt64.toNat_sub_of_le _ _ (UInt64.le_iff_toNat_le.mpr (Nat.le_of_lt hlt))]
  have hbound := (min (state.length - offset) outLen).toNat_lt
  obtain ⟨base, hbase, h⟩ := bind_eq_ok.mp h
  obtain ⟨mid, hmid, h⟩ := bind_eq_ok.mp h
  -- The three layers in turn: the committed bytes, the frozen log and the active one.
  have hzeros : (replicate (min (state.length - offset) outLen).toNat (0 : UInt8)).length =
      (min (state.length - offset) outLen).toNat := length_replicate
  obtain ⟨hbaseLength, hbase⟩ := readLayoutRange_eq hengine (by rw [hzeros]; exact hbound) hbase
  rw [hzeros] at hbaseLength
  have hmid : (state.frozen.getD []).LaidOver offset base mid := by
    cases hfrozen : state.frozen with
    | none =>
      rw [hfrozen] at hmid
      cases hmid
      exact ⟨rfl, fun _ _ hb => hb⟩
    | some frozen =>
      rw [hfrozen] at hmid
      exact DirtyExtentMap.overlay_eq (by rw [hbaseLength]; exact hbound) hmid
  have hactive : state.active.LaidOver offset mid bytes :=
    DirtyExtentMap.overlay_eq (by rw [hmid.1, hbaseLength]; exact hbound) h
  have hlength : bytes.length = (min (state.length - offset) outLen).toNat := by
    rw [hactive.1, hmid.1, hbaseLength]
  refine ⟨hlength.trans hcount, fun i hi => hactive.2 i _ (hmid.2 i _ (hbase i 0 ?_))⟩
  rw [getElem?_replicate, if_pos (hlength ▸ hi)]

end Layout

/-! ## Reads that succeed -/

/-- The end of a dirty extent is in range. -/
def DirtyExtent.InRange (extent : DirtyExtent) : Prop := extent.fileOffset.toNat + extent.length.toNat < 2 ^ 64

/-- The range of an extent and the part of the chunk it refers to are in range. -/
def ExtentInRange (extent : Extent) : Prop :=
  extent.fileOffset.toNat + extent.length.toNat < 2 ^ 64 ∧ extent.chunkOffset.toNat + extent.length.toNat < 2 ^ 64

instance (extent : DirtyExtent) : Decidable extent.InRange := inferInstanceAs (Decidable (_ < _))

instance (extent : Extent) : Decidable (ExtentInRange extent) := inferInstanceAs (Decidable (_ ∧ _))

theorem DirtyExtent.InRange.checkedAdd (h : extent.InRange) :
    extent.fileOffset.checkedAdd extent.length = some (extent.fileOffset + extent.length) := if_pos h

section Total

variable {chunk : ChunkBytes} {engine : ReadEngine} {offset stop : UInt64} {out : Bytes}

theorem layoutReadOps_total (offset stop : UInt64) (hrange : ∀ extent ∈ extents, ExtentInRange extent) :
    ∃ ops, layoutReadOps offset stop extents = .ok ops := by
  induction extents with
  | nil => exact ⟨[], rfl⟩
  | cons extent rest ih =>
    rw [forall_mem_cons] at hrange
    obtain ⟨⟨hfile, hchunk⟩, hrest⟩ := hrange
    obtain ⟨ops, hops⟩ := ih hrest
    rw [layoutReadOps, checkedAdd_of_lt hfile]
    dsimp only
    split
    · exact ⟨ops, hops⟩
    next hmeets =>
    obtain ⟨_, hdelta, _, hlt⟩ := overlap_bounds hmeets
    have hend : (extent.fileOffset + extent.length).toNat = extent.fileOffset.toNat + extent.length.toNat := by
      rw [UInt64.toNat_add, Nat.mod_eq_of_lt hfile]
    rw [hops, checkedAdd_of_lt]
    · exact ⟨_, rfl⟩
    · omega

theorem DirtyExtentMap.overlayExtent_total (offset stop : UInt64) (out : Bytes) (hrange : extent.InRange) :
    ∃ out', overlayExtent offset stop out extent = .ok out' := by
  rw [overlayExtent, hrange.checkedAdd]
  dsimp only
  split
  · exact ⟨out, rfl⟩
  · split
    · exact ⟨_, rfl⟩
    · exact ⟨_, rfl⟩

theorem DirtyExtentMap.overlay_total {map : DirtyExtentMap} (hout : offset.toNat + out.length < 2 ^ 64)
    (hrange : ∀ extent ∈ map, extent.InRange) : ∃ out', map.overlay offset out = .ok out' := by
  have hlength : (ofNat out.length).toNat = out.length :=
    toNat_ofNat_of_lt' (by simp only [size]; omega)
  rw [overlay, checkedAdd_of_lt (by rw [hlength]; exact hout)]
  obtain ⟨out', hout', -⟩ := foldlM_total (I := fun _ => True) (fun mid _ extent hextent =>
    (overlayExtent_total offset _ mid (hrange extent hextent)).imp fun _ h => ⟨h, trivial⟩) trivial
  exact ⟨out', hout'⟩

/-- The range of the extents that a state makes visible. -/
structure VisibleState.InRange (state : VisibleState) : Prop where
  layout : ∀ extent ∈ state.layout.inlineExtents, ExtentInRange extent
  log : ∀ extent ∈ state.frozen.getD [] ++ state.active, extent.InRange

/-- The engine answers the batch that a read gives it. -/
def AnswersRead (engine : ReadEngine) (state : VisibleState) (offset outLen : UInt64) : Prop :=
  let count := min (state.length - offset) outLen
  ∀ ops, layoutReadOps offset (offset + count) state.layout.inlineExtents = .ok ops →
    ∃ out, engine ⟨state.committed, state.layout.id, ops⟩ (replicate count.toNat 0) = .ok out

/-- **A read succeeds** when the engine answers it with the bytes of the chunks and no range overflows. -/
theorem readVisible_total {outLen : UInt64} (hengine : ReadsChunks engine chunk)
    (hanswers : AnswersRead engine state offset outLen) (hrange : state.InRange) :
    ∃ bytes, readVisible engine state offset outLen = .ok bytes := by
  obtain ⟨hlayout, hlog⟩ := hrange
  rw [forall_mem_append] at hlog
  rw [AnswersRead] at hanswers
  rw [readVisible]
  split
  · exact ⟨[], rfl⟩
  next hsome =>
  rw [not_or, ge_iff_le, UInt64.not_le] at hsome
  have hcount : offset.toNat + (min (state.length - offset) outLen).toNat < 2 ^ 64 := by
    have := lt_iff_toNat_lt.mp hsome.1
    have := state.length.toNat_lt
    rw [UInt64.toNat_min, UInt64.toNat_sub_of_le _ _ (UInt64.le_of_lt hsome.1)]
    omega
  dsimp only at hanswers ⊢
  generalize min (state.length - offset) outLen = count at hanswers hcount ⊢
  have hzeros : (replicate count.toNat (0 : UInt8)).length = count.toNat := length_replicate
  have hbase : ∃ base, readLayoutRange engine state.committed state.layout offset (replicate count.toNat 0) =
      .ok base := by
    rw [readLayoutRange, hzeros, UInt64.ofNat_toNat, checkedAdd_of_lt hcount]
    obtain ⟨ops, hops⟩ := layoutReadOps_total offset (offset + count) hlayout
    dsimp only
    rw [hops]
    exact hanswers ops hops
  obtain ⟨base, hbase⟩ := hbase
  obtain ⟨hbaseLength, _⟩ := readLayoutRange_eq hengine (by rw [hzeros]; omega) hbase
  rw [hzeros] at hbaseLength
  have hmid : ∃ mid, overlayFrozen state.frozen offset base = .ok mid ∧ mid.length = base.length := by
    cases hfrozen : state.frozen with
    | none => exact ⟨base, rfl, rfl⟩
    | some frozen =>
      rw [hfrozen, Option.getD_some] at hlog
      obtain ⟨mid, hmid⟩ := DirtyExtentMap.overlay_total (by rw [hbaseLength]; exact hcount) hlog.1
      exact ⟨mid, hmid, (DirtyExtentMap.overlay_eq (by rw [hbaseLength]; omega) hmid).1⟩
  obtain ⟨mid, hmid, hmidLength⟩ := hmid
  obtain ⟨bytes, hbytes⟩ := DirtyExtentMap.overlay_total (by rw [hmidLength, hbaseLength]; exact hcount) hlog.2
  exact ⟨bytes, bind_eq_ok.mpr ⟨base, hbase, bind_eq_ok.mpr ⟨mid, hmid, hbytes⟩⟩⟩

theorem DirtyExtentMap.overlay_inRange {map : DirtyExtentMap} {out' : Bytes} (h : map.overlay offset out = .ok out') :
    ∀ extent ∈ map, extent.InRange := by
  rw [overlay] at h
  split at h
  · cases h
  next stop hstop =>
  clear hstop
  induction map generalizing out with
  | nil => exact forall_mem_nil _
  | cons extent map ih =>
    rw [foldlM_cons] at h
    obtain ⟨mid, hmid, h⟩ := bind_eq_ok.mp h
    refine forall_mem_cons.mpr ⟨?_, ih h⟩
    by_contra hrange
    rw [overlayExtent, show extent.fileOffset.checkedAdd extent.length = none from if_neg hrange] at hmid
    cases hmid

/-- A read that is not of nothing looks at every extent of the logs, also at those that it does not meet. -/
theorem inRange_of_readVisible {outLen : UInt64} {bytes : Bytes} (hsome : ¬(offset ≥ state.length ∨ outLen = 0))
    (h : readVisible engine state offset outLen = .ok bytes) :
    ∀ extent ∈ state.frozen.getD [] ++ state.active, extent.InRange := by
  rw [readVisible, if_neg hsome] at h
  obtain ⟨base, -, h⟩ := bind_eq_ok.mp h
  obtain ⟨mid, hmid, h⟩ := bind_eq_ok.mp h
  refine forall_mem_append.mpr ⟨?_, DirtyExtentMap.overlay_inRange h⟩
  cases hfrozen : state.frozen with
  | none => exact forall_mem_nil _
  | some frozen =>
    rw [hfrozen] at hmid
    exact DirtyExtentMap.overlay_inRange hmid

end Total

/-! ## A commit that is taken back -/

/-- The part of an inode's write state that numbers and keeps the dirty log. `frozen` is the log of the commit in
    flight. -/
structure WriteLog where
  (nextWriteSeq logicalLength : UInt64)
  active : DirtyExtentMap
  frozen : Option DirtyExtentMap

inductive WriteEvent
  | write (offset : UInt64) (data : Payload)
  | resize (length : UInt64)
  | freeze | committed | aborted

namespace WriteLog

def new (logicalLength : UInt64) : WriteLog := ⟨0, logicalLength, [], none⟩

/-- One round of the write loop. If its end overflows it fails after the extent was recorded; the number is then given
    out again. -/
def write (log : WriteLog) (offset : UInt64) (data : Payload) : WriteLog :=
  if data.bytes.isEmpty then log
  else
    let nextSeq := log.nextWriteSeq.saturatingAdd 1
    let active := log.active.writeAt offset data nextSeq
    match offset.checkedAdd (UInt64.ofNat data.bytes.length) with
    | none => { log with active }
    | some endOffset => ⟨nextSeq, max log.logicalLength endOffset, active, log.frozen⟩

def resizeDirtyInode (log : WriteLog) (length : UInt64) : WriteLog :=
  let writeSeq := log.nextWriteSeq.saturatingAdd 1
  if log.logicalLength = length then { log with nextWriteSeq := writeSeq }
  else ⟨writeSeq, length, log.active.resize log.logicalLength length writeSeq, log.frozen⟩

def step (log : WriteLog) : WriteEvent → Option WriteLog
  | .write offset data => some (log.write offset data)
  | .resize length => some (log.resizeDirtyInode length)
  | .freeze => if log.frozen.isSome then none else some { log with active := [], frozen := some log.active }
  | .committed => log.frozen.map fun _ => { log with frozen := none }
  | .aborted => log.frozen.map fun older => { log with active := log.active.restoreBefore older, frozen := none }

abbrev Reachable (log : WriteLog) : Prop := ∃ length, Runs.Run step (fun _ _ => True) (new length) log

/-- The log in flight comes before the active one, in the order of the numbers; no number is beyond the next one. -/
structure Ordered (log : WriteLog) : Prop where
  sorted : (log.frozen.getD [] ++ log.active).Pairwise fun a b => a.writeSeq ≤ b.writeSeq
  bound : ∀ extent ∈ log.frozen.getD [] ++ log.active, extent.writeSeq ≤ log.nextWriteSeq.saturatingAdd 1

variable {log next : WriteLog} {older : DirtyExtentMap}

/-- An entry that takes the next number keeps the order. -/
theorem Ordered.record (h : log.Ordered) {active length seq} (hseq : log.nextWriteSeq ≤ seq)
    (hactive : active = log.active ∨ ∃ extent, extent.writeSeq = log.nextWriteSeq.saturatingAdd 1 ∧
      active = log.active ++ [extent]) :
    (⟨seq, length, active, log.frozen⟩ : WriteLog).Ordered := by
  have hnext : log.nextWriteSeq.saturatingAdd 1 ≤ seq.saturatingAdd 1 := by
    simp only [UInt64.le_iff_toNat_le, UInt64.toNat_saturatingAdd] at hseq ⊢
    omega
  have hbound extent hextent := UInt64.le_trans (h.bound extent hextent) hnext
  obtain rfl | ⟨extent, hextent, rfl⟩ := hactive
  · exact ⟨h.sorted, hbound⟩
  constructor
  · rw [← append_assoc, pairwise_append]
    refine ⟨h.sorted, pairwise_singleton _ _, fun a ha b hb => ?_⟩
    rw [mem_singleton.mp hb, hextent]
    exact h.bound a ha
  · rw [← append_assoc]
    refine forall_mem_append.mpr ⟨hbound, ?_⟩
    rw [forall_mem_singleton, hextent]
    exact hnext

/-- The entries of the log in flight and the active one are in order already, so nothing moves. -/
theorem Ordered.restoreBefore_eq (h : log.Ordered) (hfrozen : log.frozen = some older) :
    log.active.restoreBefore older = older ++ log.active := by
  have hsorted := h.sorted
  rw [hfrozen, Option.getD_some] at hsorted
  exact hsorted.insertionSort_eq

theorem le_saturatingAdd (n : UInt64) : n ≤ n.saturatingAdd 1 := by
  have hlt := n.toNat_lt
  simp only [UInt64.le_iff_toNat_le, UInt64.toNat_saturatingAdd, UInt64.reduceToNat]
  omega

theorem Ordered.step {event} (h : log.Ordered) (hstep : log.step event = some next) : next.Ordered := by
  have hnext := le_saturatingAdd log.nextWriteSeq
  cases event with
  | write offset data =>
    cases hstep
    rw [write]
    split
    · exact h
    next hdata =>
    have hactive := DirtyExtentMap.writeAt.eq_1 log.active offset data (log.nextWriteSeq.saturatingAdd 1)
    rw [if_neg hdata] at hactive
    split
    · exact h.record (UInt64.le_refl _) (.inr ⟨_, rfl, hactive⟩)
    · exact h.record hnext (.inr ⟨_, rfl, hactive⟩)
  | resize length =>
    cases hstep
    rw [resizeDirtyInode]
    split
    · exact h.record hnext (.inl rfl)
    · exact h.record hnext ((ite_eq_or_eq _ _ _).symm.imp_right fun hactive => ⟨_, rfl, hactive⟩)
  | freeze =>
    rw [WriteLog.step, Option.ite_none_left_eq_some] at hstep
    obtain ⟨hnone, hstep⟩ := hstep
    cases hstep
    rw [Option.not_isSome_iff_eq_none] at hnone
    obtain ⟨hsorted, hbound⟩ := h
    rw [hnone, Option.getD_none, nil_append] at hsorted hbound
    exact ⟨by rwa [Option.getD_some, append_nil], by rwa [Option.getD_some, append_nil]⟩
  | committed =>
    obtain ⟨older, hfrozen, rfl⟩ := Option.map_eq_some_iff.mp hstep
    exact ⟨(pairwise_append.mp h.sorted).2.1, fun extent hextent => h.bound extent (mem_append_right _ hextent)⟩
  | aborted =>
    obtain ⟨older, hfrozen, rfl⟩ := Option.map_eq_some_iff.mp hstep
    have heq := h.restoreBefore_eq hfrozen
    obtain ⟨hsorted, hbound⟩ := h
    rw [hfrozen, Option.getD_some, ← heq] at hsorted hbound
    exact ⟨hsorted, hbound⟩

theorem Reachable.ordered (h : log.Reachable) : log.Ordered := by
  obtain ⟨_, hrun⟩ := h
  exact hrun.invariant (fun _ _ _ h _ => h.step) ⟨List.Pairwise.nil, forall_mem_nil _⟩

/-- **An abort restores the log.** Laid over any buffer, the restored log does what the log that was taken for the
    commit and then the entries recorded since do. -/
theorem restored_log_overlays_in_turn (h : log.Reachable) (hfrozen : log.frozen = some older) (offset : UInt64)
    (out : Payload) :
    (log.active.restoreBefore older).overlay offset out.bytes =
      (older.overlay offset out.bytes).bind (log.active.overlay offset) := by
  have hsize := Nat.lt_trans out.bound (by decide : 2 ^ 63 < 2 ^ 64)
  rw [h.ordered.restoreBefore_eq hfrozen]
  cases holder : older.overlay offset out.bytes with
  | error e =>
    rw [DirtyExtentMap.overlay] at holder ⊢
    split at holder
    · exact holder
    · rw [foldlM_append, holder]
      rfl
  | ok mid =>
    have hlength := (DirtyExtentMap.overlay_eq hsize holder).1
    change _ = log.active.overlay offset mid
    rw [DirtyExtentMap.overlay] at holder ⊢
    rw [DirtyExtentMap.overlay, hlength]
    split at holder
    · cases holder
    · rw [foldlM_append, holder]
      rfl

/-- Two bytes are frozen, one of them is written again, and the commit is rejected. -/
theorem restored_log_overlays_in_turn_rewritten : ∃ older log, Reachable log ∧ log.frozen = some older ∧
    (log.active.restoreBefore older).overlay 0 [7, 7, 7] = (older.overlay 0 [7, 7, 7]).bind (log.active.overlay 0) := by
  have hrun := Runs.run_of_execute (fun _ _ => True) (fun _ _ _ => trivial) (rfl : Runs.execute step
    [.write 0 ⟨[1, 2], by decide⟩, .freeze, .write 1 ⟨[3], by decide⟩] (new 0) = some _)
  exact ⟨_, _, ⟨0, hrun⟩, rfl, restored_log_overlays_in_turn ⟨0, hrun⟩ rfl 0 ⟨[7, 7, 7], by decide⟩⟩

end WriteLog

end Afs.Node
