import Afs.Node.Dfs.Dirty

/-!
# `Node.Dfs.Planner` — planning a commit

`CommitPlanner::plan` of `node/vfs/dfs.rs` turns a frozen dirty log into a layout and the chunks it refers to. The log
is normalised into segments that do not overlap; the base layout is clipped to the new length and loses what the
segments cover; the bytes of the segments are packed into chunks of at most `commitChunkBytes`. Chunks are named by
the digest of their bytes; the hash function is a parameter.
-/

namespace Afs.Node

/-! ## Normalising the log -/

/-- A segment refers to its bytes by the buffer they are in and an offset into it. -/
structure OverlaySegment where
  (fileOffset length : UInt64)
  data : Option (Bytes × UInt64)
  deriving DecidableEq

/-- Replaces every element of a list by the pieces it is cut into. -/
def cutEach {α : Type} (cut : α → Result (List α)) : List α → Result (List α)
  | [] => .ok []
  | a :: rest => do
    let pieces ← cut a
    let others ← cutEach cut rest
    .ok (pieces ++ others)

/-- The data of the part of a segment that begins `delta` bytes after it. -/
def advanceData (delta : UInt64) : Option (Bytes × UInt64) → Result (Option (Bytes × UInt64))
  | none => .ok none
  | some (bytes, sourceOffset) =>
    match sourceOffset.checkedAdd delta with
    | none => .error (invalid "overlay source offset overflow")
    | some sourceOffset => .ok (some (bytes, sourceOffset))

/-- What a new dirty range leaves of an older segment. -/
def cutSegment (start stop : UInt64) (segment : OverlaySegment) : Result (List OverlaySegment) :=
  let segmentEnd := segment.fileOffset + segment.length
  if stop ≤ segment.fileOffset ∨ start ≥ segmentEnd then .ok [segment]
  else
    let left := if start > segment.fileOffset then
      [⟨segment.fileOffset, start - segment.fileOffset, segment.data⟩] else []
    if stop < segmentEnd then do
      let data ← advanceData (stop - segment.fileOffset) segment.data
      .ok (left ++ [⟨stop, segmentEnd - stop, data⟩])
    else .ok left

def overlayStep (fileLength : UInt64) (output : List OverlaySegment) (dirty : DirtyExtent) :
    Result (List OverlaySegment) :=
  if dirty.fileOffset ≥ fileLength ∨ dirty.length = 0 then .ok output
  else
    match dirty.fileOffset.checkedAdd dirty.length with
    | none => .error (invalid "dirty extent range overflow")
    | some dirtyEnd => do
      let stop := min dirtyEnd fileLength
      let next ← cutEach (cutSegment dirty.fileOffset stop) output
      let segment : OverlaySegment := ⟨dirty.fileOffset, stop - dirty.fileOffset, dirty.data.map (·, 0)⟩
      .ok ((next ++ [segment]).insertionSort fun a b => a.fileOffset ≤ b.fileOffset)

def normalizedOverlay (map : DirtyExtentMap) (fileLength : UInt64) : Result (List OverlaySegment) :=
  map.foldlM (overlayStep fileLength) []

/-! ## The base layout -/

def clipExtent (fileLength : UInt64) (extent : Extent) : Option Extent :=
  if extent.fileOffset ≥ fileLength then none
  else
    let length := min extent.length (fileLength - extent.fileOffset)
    if length > 0 then some { extent with length } else none

/-- What the range from `offset` to before `stop` leaves of an extent. -/
def subtractPieces (offset stop : UInt64) (extent : Extent) : Result (List Extent) :=
  match extent.fileOffset.checkedAdd extent.length with
  | none => .error (invalid "base extent range overflow")
  | some extentEnd =>
    if stop ≤ extent.fileOffset ∨ offset ≥ extentEnd then .ok [extent]
    else
      let left := if offset > extent.fileOffset then
        [{ extent with length := offset - extent.fileOffset }] else []
      if stop < extentEnd then
        match extent.chunkOffset.checkedAdd (stop - extent.fileOffset) with
        | none => .error (invalid "base extent chunk offset overflow")
        | some chunkOffset => .ok (left ++ [⟨stop, extentEnd - stop, extent.chunkId, chunkOffset⟩])
      else .ok left

def subtractRange (extents : List Extent) (offset length : UInt64) : Result (List Extent) :=
  if length = 0 then .ok extents
  else
    match offset.checkedAdd length with
    | none => .error (invalid "subtracted extent range overflow")
    | some stop => cutEach (subtractPieces offset stop) extents

/-! ## Staging chunks -/

/-- `MAX_STAGED_CHUNK_BYTES`. -/
def commitChunkBytes : Nat := 4 * 1024 * 1024

structure StagedChunk where
  operationId : OperationId
  chunk : ChunkObject
  bytes : Bytes
  deriving DecidableEq

def hexDigit (n : UInt8) : Char := ("0123456789abcdef".toList).getD n.toNat '0'

def digestHex (digest : ContentDigest) : String :=
  String.ofList (digest.bytes.toList.flatMap fun byte => [hexDigit (byte / 16), hexDigit (byte % 16)])

section Staging

variable (blake3 : Bytes → Digest) (operationId : OperationId)

def StagedChunk.new (bytes : Bytes) : StagedChunk :=
  let contentDigest : ContentDigest := ⟨.blake3, blake3 bytes⟩
  { operationId
    chunk := {
      id := ⟨s!"blake3-{digestHex contentDigest}-{bytes.length}"⟩
      length := UInt64.ofNat bytes.length
      contentDigest
      encoding := .raw }
    bytes }

/-- The extents and chunks made so far, and the bytes of the chunk being filled with the offset they begin at. -/
structure Packing where
  pendingStart : Option UInt64
  pending : Bytes
  extents : List Extent
  stagedChunks : List StagedChunk
  bound : pending.length ≤ commitChunkBytes
  started : pendingStart = none → pending = []

def flushPending (p : Packing) : Packing :=
  match p.pendingStart with
  | none => p
  | some fileOffset =>
    if p.pending.isEmpty then
      { p with pendingStart := none, pending := [], bound := Nat.zero_le _, started := fun _ => rfl }
    else
      let staged := StagedChunk.new blake3 operationId p.pending
      { pendingStart := none
        pending := []
        extents := p.extents ++ [⟨fileOffset, staged.chunk.length, staged.chunk.id, 0⟩]
        stagedChunks := p.stagedChunks ++ [staged]
        bound := Nat.zero_le _
        started := fun _ => rfl }

/-- The chunk being filled cannot take the byte at `fileOffset`: it ends elsewhere or is full. -/
def Packing.mustFlush (p : Packing) (fileOffset : UInt64) : Bool :=
  (p.pendingStart.any fun start => start + UInt64.ofNat p.pending.length != fileOffset) ||
    p.pending.length == commitChunkBytes

def flushFor (fileOffset : UInt64) (p : Packing) : Packing :=
  if p.mustFlush fileOffset then flushPending blake3 operationId p else p

theorem flushPending_pending (p : Packing) : (flushPending blake3 operationId p).pending = [] := by
  unfold flushPending
  split
  · next hstart => exact p.started hstart
  · split <;> rfl

/-- After that there is room for a byte. -/
theorem length_flushFor (fileOffset : UInt64) (p : Packing) :
    (flushFor blake3 operationId fileOffset p).pending.length < commitChunkBytes := by
  unfold flushFor
  split
  · rw [flushPending_pending]
    decide
  · next hkeep =>
    rw [Packing.mustFlush, Bool.or_eq_true, not_or, beq_iff_eq] at hkeep
    exact Nat.lt_of_le_of_ne p.bound hkeep.2

def Packing.extend (p : Packing) (fileOffset : UInt64) (bytes : Bytes)
    (h : p.pending.length + bytes.length ≤ commitChunkBytes) : Packing where
  pendingStart := some (p.pendingStart.getD fileOffset)
  pending := p.pending ++ bytes
  extents := p.extents
  stagedChunks := p.stagedChunks
  bound := by rw [List.length_append]; exact h
  started := fun hstart => nomatch hstart

/-- Appends `remaining` bytes of a buffer, which go to `fileOffset` in the file. -/
def packBytes (bytes : Bytes) (remaining sourceOffset : Nat) (fileOffset : UInt64) (p : Packing) : Packing :=
  if _h : remaining = 0 then p
  else
    let flushed := flushFor blake3 operationId fileOffset p
    let take := min (commitChunkBytes - flushed.pending.length) remaining
    packBytes bytes (remaining - take) (sourceOffset + take) (fileOffset + UInt64.ofNat take)
      (flushed.extend fileOffset ((bytes.drop sourceOffset).take take) (by
        have := flushed.bound
        rw [List.length_take]
        omega))
termination_by remaining
decreasing_by
  have := length_flushFor blake3 operationId fileOffset p
  omega

/-- A hole ends the chunk that is being filled. -/
def packSegment (p : Packing) (segment : OverlaySegment) : Packing :=
  match segment.data with
  | none => flushPending blake3 operationId p
  | some (bytes, sourceOffset) =>
    packBytes blake3 operationId bytes segment.length.toNat sourceOffset.toNat segment.fileOffset p

end Staging

/-! ## The plan -/

/-- What a commit takes from the write state when it begins. -/
structure FrozenCommit where
  (throughSeq logicalLength : UInt64)
  inode : InodeRecord
  writeLease : WriteLease
  baseVersion : Option FileVersion
  baseLayout : LayoutRoot
  dirtyExtents : DirtyExtentMap
  killSuidgidDirty : Bool

structure CommitPlan where
  layoutRoot : LayoutRoot
  stagedChunks : List StagedChunk
  deriving DecidableEq

def plan (blake3 : Bytes → Digest) (frozen : FrozenCommit) (operationId : OperationId) (layoutId : LayoutRootId) :
    Result CommitPlan := do
  let overlay ← normalizedOverlay frozen.dirtyExtents frozen.logicalLength
  let clipped := frozen.baseLayout.inlineExtents.filterMap (clipExtent frozen.logicalLength)
  let extents ← overlay.foldlM (fun extents segment => subtractRange extents segment.fileOffset segment.length) clipped
  let packing : Packing := ⟨none, [], extents, [], Nat.zero_le _, fun _ => rfl⟩
  let packed := flushPending blake3 operationId (overlay.foldl (packSegment blake3 operationId) packing)
  .ok {
    layoutRoot := {
      id := layoutId
      fileLength := frozen.logicalLength
      inlineExtents := packed.extents.insertionSort fun a b => a.fileOffset ≤ b.fileOffset }
    stagedChunks := packed.stagedChunks }

end Afs.Node
