import Afs.Node.Dfs.Normalize

/-!
# `Node.Dfs.Planned` — a planned layout holds the visible content

A plan reads the dirty log in its own way: normalised, cut out of the clipped base layout, and packed into chunks. What
its layout refers to is followed through the three parts with `Shows`: `shows_subtract` for the base layout,
`packs_segments` for the chunks. `plan_denotes_visible` puts them together: below the file length the layout refers to
the byte that a read of the same state returns.
-/

namespace Afs.Node

open Overlay List UInt64

variable {extent clipped : Extent} {n bound : Nat} {offset length : UInt64} {segments : List OverlaySegment}
  {bytes : Bytes}

section Base

variable {chunk : ChunkBytes} {fileLength : UInt64} {extents extents' : List Extent}

/-! ## The base layout -/

/-- Extents that are not empty, follow each other and end below `bound`. -/
structure ExtentsOk (chunk : ChunkBytes) (bound : Nat) (extents : List Extent) : Prop where
  follows : extents.Pairwise (extentLayers chunk).Follows
  bounded : ∀ extent ∈ extents, (extentLayers chunk).hi extent ≤ bound
  nonempty : ∀ extent ∈ extents, (extentLayers chunk).lo extent < (extentLayers chunk).hi extent

/-- A clipped extent is the part of the extent below the file length, if there is one. -/
theorem clipExtent_cases (fileLength : UInt64) (extent : Extent) :
    (clipExtent fileLength extent = none ∧
      (fileLength.toNat ≤ extent.fileOffset.toNat ∨ extent.length.toNat = 0)) ∨
    ∃ length : UInt64, clipExtent fileLength extent = some { extent with length } ∧ 0 < length.toNat ∧
      extent.fileOffset.toNat + length.toNat =
        min (extent.fileOffset.toNat + extent.length.toNat) fileLength.toNat := by
  unfold clipExtent
  split
  · next hge =>
    exact .inl ⟨rfl, .inl hge⟩
  next hlt =>
  rw [ge_iff_le, le_iff_toNat_le, Nat.not_le] at hlt
  have hmin := toNat_min extent.length (fileLength - extent.fileOffset)
  rw [UInt64.toNat_sub_of_le _ _ (UInt64.le_iff_toNat_le.mpr (Nat.le_of_lt hlt))] at hmin
  dsimp only
  split
  · next hpositive =>
    exact .inr ⟨_, rfl, hpositive, by omega⟩
  · next hzero =>
    rw [gt_iff_lt, UInt64.lt_iff_toNat_lt, hmin, UInt64.toNat_zero] at hzero
    exact .inl ⟨rfl, by omega⟩

variable (chunk) in
theorem clipExtent_eq_some (h : clipExtent fileLength extent = some clipped) :
    (extentLayers chunk).lo clipped = (extentLayers chunk).lo extent ∧
      (extentLayers chunk).hi clipped = min ((extentLayers chunk).hi extent) fileLength.toNat ∧
      (extentLayers chunk).lo clipped < (extentLayers chunk).hi clipped ∧
      ∀ n, (extentLayers chunk).val clipped n = (extentLayers chunk).val extent n := by
  rcases clipExtent_cases fileLength extent with ⟨hnone, -⟩ | ⟨length, hsome, hpositive, hend⟩
  · cases hnone.symm.trans h
  · cases hsome.symm.trans h
    exact ⟨rfl, hend, Nat.lt_add_of_pos_right hpositive, fun _ => rfl⟩

/-- An extent that is clipped away covers nothing below the file length. -/
theorem clipExtent_eq_none (h : clipExtent fileLength extent = none) (hn : n < fileLength.toNat) :
    ¬ (extentLayers chunk).Covers extent n := by
  rintro ⟨hlo, hhi⟩
  simp only [extentLayers] at hlo hhi
  rcases clipExtent_cases fileLength extent with ⟨-, hempty⟩ | ⟨length, hsome, -⟩
  · omega
  · cases hsome.symm.trans h

theorem shows_clip (hn : n < fileLength.toNat) (b : UInt8) :
    (extentLayers chunk).Shows (extents.filterMap (clipExtent fileLength)) n b ↔
      (extentLayers chunk).Shows extents n b := by
  constructor
  · rintro ⟨clipped, hclipped, ⟨hlo, hhi⟩, hval⟩
    obtain ⟨extent, hextent, hclip⟩ := mem_filterMap.mp hclipped
    obtain ⟨hlo', hhi', _, hval'⟩ := clipExtent_eq_some chunk hclip
    exact ⟨extent, hextent, ⟨by omega, by omega⟩, by rw [← hval', hval]⟩
  · rintro ⟨extent, hextent, hcovers, hval⟩
    cases hclip : clipExtent fileLength extent with
    | none => exact absurd hcovers (clipExtent_eq_none hclip hn)
    | some clipped =>
      obtain ⟨hlo', hhi', _, hval'⟩ := clipExtent_eq_some chunk hclip
      have hlo := hcovers.1
      have hhi := hcovers.2
      exact ⟨clipped, mem_filterMap.mpr ⟨extent, hextent, hclip⟩, ⟨by omega, by omega⟩, by rw [hval', hval]⟩

theorem extentsOk_clip (hfollows : extents.Pairwise (extentLayers chunk).Follows) :
    ExtentsOk chunk fileLength.toNat (extents.filterMap (clipExtent fileLength)) where
  follows := by
    apply hfollows.filterMap _
    intro a a' hfollows b hb b' hb'
    have hle : (extentLayers chunk).hi a ≤ (extentLayers chunk).lo a' := hfollows
    have hhi := (clipExtent_eq_some chunk hb).2.1
    have hlo := (clipExtent_eq_some chunk hb').1
    rw [Layers.Follows, hhi, hlo]
    omega
  bounded := by
    intro clipped hclipped
    obtain ⟨extent, _, hclip⟩ := mem_filterMap.mp hclipped
    rw [(clipExtent_eq_some chunk hclip).2.1]
    exact Nat.min_le_right _ _
  nonempty := by
    intro clipped hclipped
    obtain ⟨extent, _, hclip⟩ := mem_filterMap.mp hclipped
    exact (clipExtent_eq_some chunk hclip).2.2.1

theorem subtractPieces_eq {stop extentEnd} (hend : extent.fileOffset.checkedAdd extent.length = some extentEnd) :
    subtractPieces offset stop extent =
      cutRange offset stop extent.fileOffset extentEnd extent (fun length => { extent with length }) fun delta length =>
        match extent.chunkOffset.checkedAdd delta with
        | none => .error (invalid "base extent chunk offset overflow")
        | some chunkOffset => .ok ⟨stop, length, extent.chunkId, chunkOffset⟩ := by
  rw [subtractPieces, hend, cutRange]
  cases extent.chunkOffset.checkedAdd (stop - extent.fileOffset) with
  | none => rfl
  | some chunkOffset => rfl

variable (chunk) in
/-- **Cutting an extent** leaves what lies outside of the range, at the same place of the chunk. -/
theorem cutOf_subtractPieces {stop pieces} (hrange : offset.toNat ≤ stop.toNat)
    (h : subtractPieces offset stop extent = .ok pieces) :
    CutOf (extentLayers chunk) offset.toNat stop.toNat extent pieces := by
  cases hend : extent.fileOffset.checkedAdd extent.length with
  | none =>
    rw [subtractPieces, hend] at h
    cases h
  | some extentEnd =>
    rw [subtractPieces_eq hend] at h
    refine cutOf_cutRange h hrange rfl (checkedAdd_eq_some.mp hend) (fun _ => ⟨rfl, rfl, fun _ => rfl⟩) ?_
    intro delta length piece hdelta hpiece
    split at hpiece
    · cases hpiece
    next chunkOffset hchunk =>
    cases hpiece
    rw [checkedAdd_eq_some] at hchunk
    refine ⟨rfl, rfl, fun n hn => ?_⟩
    simp only [extentLayers]
    congr 1
    omega

theorem shows_subtractRange (hok : ExtentsOk chunk bound extents)
    (h : subtractRange extents offset length = .ok extents') :
    ExtentsOk chunk bound extents' ∧ ∀ n b, (extentLayers chunk).Shows extents' n b ↔
      (extentLayers chunk).Shows extents n b ∧ ¬ (offset.toNat ≤ n ∧ n < offset.toNat + length.toNat) := by
  rw [subtractRange] at h
  split at h
  · next hzero =>
    cases h
    refine ⟨hok, fun n b => ?_⟩
    rw [hzero, UInt64.toNat_zero]
    exact ⟨fun hshows => ⟨hshows, by omega⟩, fun hshows => hshows.1⟩
  split at h
  · cases h
  next stop hstop =>
  rw [checkedAdd_eq_some] at hstop
  obtain ⟨pss, hcuts, rfl⟩ := cutEach_eq_ok (fun extent _ _ => cutOf_subtractPieces chunk (by omega)) h
  refine ⟨⟨CutOf.follows_flatten hcuts hok.follows, ?_, ?_⟩, fun n b => ?_⟩
  · intro piece hpiece
    obtain ⟨extent, hextent, _, hhi, _⟩ := CutOf.exists_of_mem_flatten hcuts hpiece
    exact Nat.le_trans hhi (hok.bounded extent hextent)
  · intro piece hpiece
    obtain ⟨extent, hextent, _, _, hlt⟩ := CutOf.exists_of_mem_flatten hcuts hpiece
    exact hlt (hok.nonempty extent hextent)
  · rw [CutOf.shows_flatten hcuts, ← hstop]

/-- **The base layout without the segments.** -/
theorem shows_subtract (hok : ExtentsOk chunk bound extents)
    (h : segments.foldlM (fun extents segment => subtractRange extents segment.fileOffset segment.length) extents =
      .ok extents') :
    ExtentsOk chunk bound extents' ∧ ∀ n b, (extentLayers chunk).Shows extents' n b ↔
      (extentLayers chunk).Shows extents n b ∧ segmentMarks.Bare segments n := by
  induction segments generalizing extents with
  | nil =>
    cases h
    exact ⟨hok, fun n b => ⟨fun hshows => ⟨hshows, forall_mem_nil _⟩, fun hshows => hshows.1⟩⟩
  | cons _ _ ih =>
    obtain ⟨mid, hmid, h⟩ := bind_eq_ok.mp h
    obtain ⟨hmidOk, hmidShows⟩ := shows_subtractRange hok hmid
    obtain ⟨hok', hshows⟩ := ih hmidOk h
    refine ⟨hok', fun n b => ?_⟩
    rw [hshows, hmidShows, Layers.Bare, Layers.Bare, forall_mem_cons, and_assoc]
    rfl

theorem extentInRange_clip (hrange : ExtentInRange extent) (h : clipExtent fileLength extent = some clipped) :
    ExtentInRange clipped := by
  rcases clipExtent_cases fileLength extent with ⟨hnone, -⟩ | ⟨length, hsome, -, hend⟩
  · cases hnone.symm.trans h
  · cases hsome.symm.trans h
    obtain ⟨hfile, hchunk⟩ := hrange
    simp only [ExtentInRange]
    omega

/-- An extent in range is cut into extents in range. -/
theorem subtractPieces_total (offset stop : UInt64) (hrange : ExtentInRange extent) :
    ∃ pieces, subtractPieces offset stop extent = .ok pieces ∧ ∀ piece ∈ pieces, ExtentInRange piece := by
  obtain ⟨hfile, hchunk⟩ := hrange
  have hend : (extent.fileOffset + extent.length).toNat = extent.fileOffset.toNat + extent.length.toNat := by
    rw [UInt64.toNat_add, Nat.mod_eq_of_lt hfile]
  rw [subtractPieces_eq (checkedAdd_of_lt hfile)]
  refine cutRange_total ⟨hfile, hchunk⟩ ?_ ?_
  · intro length hlength hlt
    simp only [ExtentInRange]
    omega
  · intro delta length hdelta hlength
    have hsum : extent.chunkOffset.toNat + delta.toNat < 2 ^ 64 := by omega
    rw [checkedAdd_of_lt hsum]
    refine ⟨_, rfl, ?_⟩
    simp only [ExtentInRange]
    rw [UInt64.toNat_add, Nat.mod_eq_of_lt hsum]
    omega

theorem subtractRange_total (hrange : offset.toNat + length.toNat < 2 ^ 64)
    (hextents : ∀ extent ∈ extents, ExtentInRange extent) :
    ∃ extents', subtractRange extents offset length = .ok extents' ∧ ∀ extent ∈ extents', ExtentInRange extent := by
  rw [subtractRange]
  split
  · exact ⟨extents, rfl, hextents⟩
  rw [checkedAdd_of_lt hrange]
  exact cutEach_total fun extent hextent => subtractPieces_total offset (offset + length) (hextents extent hextent)

theorem subtract_total (hok : ∀ segment ∈ segments, SegmentOk fileLength segment)
    (hextents : ∀ extent ∈ extents, ExtentInRange extent) :
    ∃ extents',
      segments.foldlM (fun extents segment => subtractRange extents segment.fileOffset segment.length) extents =
      .ok extents' := by
  obtain ⟨extents', hextents', -⟩ := foldlM_total (fun _ hextents segment hsegment => subtractRange_total
    (Nat.lt_of_le_of_lt (hok segment hsegment).bound fileLength.toNat_lt) hextents) hextents
  exact ⟨extents', hextents'⟩

end Base

/-! ## Packing -/

/-- Every staged chunk is read back as the bytes that were staged. -/
def Stored (chunk : ChunkBytes) (stagedChunks : List StagedChunk) : Prop :=
  ∀ staged ∈ stagedChunks, ∀ i b, staged.bytes[i]? = some b → chunk staged.chunk.id i = b

/-- Byte `n` of the file is `b`, in an extent or in the chunk that is being filled. -/
def Packing.Shows (chunk : ChunkBytes) (p : Packing) (n : Nat) (b : UInt8) : Prop :=
  (extentLayers chunk).Shows p.extents n b ∨
    ∃ start ∈ p.pendingStart, start.toNat ≤ n ∧ p.pending[n - start.toNat]? = some b

/-- Nothing reaches past `limit`. -/
structure Packing.Below (limit : Nat) (p : Packing) : Prop where
  pending : ∀ start ∈ p.pendingStart, start.toNat + p.pending.length ≤ limit
  extents : ∀ extent ∈ p.extents, extent.fileOffset.toNat + extent.length.toNat ≤ limit

/-- From `p` to `p'` the bytes `added` have been packed. -/
structure Packs (limit : Nat) (p p' : Packing) (added : Nat → UInt8 → Prop) : Prop where
  staged : p.stagedChunks ⊆ p'.stagedChunks
  below : p'.Below limit
  shows : ∀ chunk, Stored chunk p'.stagedChunks → ∀ n b, p'.Shows chunk n b ↔ p.Shows chunk n b ∨ added n b

section Packing

variable {blake3 : Bytes → Digest} {operationId : OperationId} {limit : Nat} {p p' p'' : Packing}
  {added added' : Nat → UInt8 → Prop}

theorem Packs.trans (h : Packs limit p p' added) (h' : Packs limit p' p'' added') :
    Packs limit p p'' fun n b => added n b ∨ added' n b where
  staged := List.Subset.trans h.staged h'.staged
  below := h'.below
  shows := by
    intro chunk hstored n b
    have hstored' : Stored chunk p'.stagedChunks := fun staged hstaged => hstored staged (h'.staged hstaged)
    rw [h'.shows chunk hstored, h.shows chunk hstored', or_assoc]

theorem Packs.congr (h : Packs limit p p' added) (hadded : ∀ n b, added n b ↔ added' n b) : Packs limit p p' added' :=
  ⟨h.staged, h.below, fun chunk hstored n b => by rw [h.shows chunk hstored, hadded]⟩

variable (blake3 operationId) in
/-- Flushing moves the pending bytes into a chunk. -/
theorem packs_flushPending (hp : p.Below limit) :
    Packs limit p (flushPending blake3 operationId p) fun _ _ => False := by
  unfold flushPending
  split
  · exact ⟨List.Subset.refl _, hp, fun _ _ _ _ => (or_false _).symm ▸ Iff.rfl⟩
  next start hstart =>
  split
  · next hempty =>
    have hnil : p.pending = [] := isEmpty_iff.mp hempty
    refine ⟨List.Subset.refl _, ⟨by simp, hp.extents⟩, fun chunk _ n b => ?_⟩
    simp [Packing.Shows, hnil]
  · next hsome =>
    have hlength : (UInt64.ofNat p.pending.length).toNat = p.pending.length :=
      UInt64.toNat_ofNat_of_lt' (Nat.lt_of_le_of_lt p.bound (by decide))
    have hend := hp.pending start hstart
    refine ⟨subset_append_left _ _, ⟨by simp, ?_⟩, fun chunk hstored n b => ?_⟩
    · intro extent hextent
      rcases mem_append.mp hextent with hextent | hextent
      · exact hp.extents extent hextent
      · rw [mem_singleton.mp hextent]
        simp only [StagedChunk.new, hlength]
        exact hend
    · have hread : ∀ i b, p.pending[i]? = some b →
        chunk (StagedChunk.new blake3 operationId p.pending).chunk.id i = b :=
        hstored _ (mem_append_right _ (mem_singleton_self _))
      simp only [Packing.Shows, Layers.shows_append, Option.not_mem_none, false_and, exists_false, or_false, hstart,
        Option.mem_some_iff, exists_eq_left']
      apply or_congr Iff.rfl
      simp only [Layers.Shows, mem_singleton, exists_eq_left, Layers.Covers, extentLayers, UInt64.toNat_zero,
        Nat.zero_add]
      simp only [show (StagedChunk.new blake3 operationId p.pending).chunk.length.toNat = p.pending.length from hlength]
      constructor
      · rintro ⟨⟨hlo, hhi⟩, hval⟩
        refine ⟨hlo, ?_⟩
        have hget := getElem?_eq_getElem (show n - start.toNat < p.pending.length by omega)
        rw [hget, ← hread _ _ hget, hval]
      · rintro ⟨hlo, hget⟩
        have hlt := (List.getElem?_eq_some_iff.mp hget).1
        exact ⟨⟨hlo, by omega⟩, hread _ _ hget⟩

/-- Bytes that begin where the pending ones end. -/
theorem packs_extend (hp : p.Below limit) (fileOffset : UInt64) (bytes : Bytes)
    (hroom : p.pending.length + bytes.length ≤ commitChunkBytes) (hend : fileOffset.toNat + bytes.length ≤ limit)
    (hjoins : ∀ start ∈ p.pendingStart, start.toNat + p.pending.length = fileOffset.toNat) :
    Packs limit p (p.extend fileOffset bytes hroom)
      fun n b => fileOffset.toNat ≤ n ∧ bytes[n - fileOffset.toNat]? = some b := by
  cases hstart : p.pendingStart with
  | none =>
    have hnil := p.started hstart
    refine ⟨List.Subset.refl _, ⟨?_, hp.extents⟩, fun chunk _ n b => ?_⟩
    · intro start hmem
      simp only [Packing.extend, hstart, Option.getD_none, Option.mem_some_iff] at hmem
      simp only [Packing.extend, hnil, nil_append, ← hmem]
      exact hend
    · simp [Packing.Shows, Packing.extend, hstart, hnil]
  | some start =>
    have hjoin := hjoins start hstart
    refine ⟨List.Subset.refl _, ⟨?_, hp.extents⟩, fun chunk _ n b => ?_⟩
    · intro start' hmem
      simp only [Packing.extend, hstart, Option.getD_some, Option.mem_some_iff] at hmem
      simp only [Packing.extend, length_append, ← hmem]
      omega
    · simp only [Packing.Shows, Packing.extend, hstart, Option.getD_some, Option.mem_some_iff,
        exists_eq_left', or_assoc]
      apply or_congr Iff.rfl
      by_cases hn : n < fileOffset.toNat
      · -- Before the new bytes.
        constructor
        · rintro ⟨hlo, hget⟩
          rw [getElem?_append_left (by omega)] at hget
          exact .inl ⟨hlo, hget⟩
        · rintro (⟨hlo, hget⟩ | ⟨hge, _⟩)
          · exact ⟨hlo, by rw [getElem?_append_left (by omega)]; exact hget⟩
          · omega
      · have hindex : n - start.toNat - p.pending.length = n - fileOffset.toNat := by omega
        constructor
        · rintro ⟨hlo, hget⟩
          rw [getElem?_append_right (by omega), hindex] at hget
          exact .inr ⟨by omega, hget⟩
        · rintro (⟨hlo, hget⟩ | ⟨hge, hget⟩)
          · have := (List.getElem?_eq_some_iff.mp hget).1
            omega
          · exact ⟨by omega, by rw [getElem?_append_right (by omega), hindex]; exact hget⟩

theorem flushPending_pendingStart : (flushPending blake3 operationId p).pendingStart = none := by
  unfold flushPending
  split
  · next hnone => exact hnone
  · split <;> rfl

variable (blake3 operationId) in
/-- What is pending before bytes are appended ends where they begin. -/
theorem packs_flushFor (hp : p.Below limit) (hlimit : limit < 2 ^ 64) (fileOffset : UInt64) :
    Packs limit p (flushFor blake3 operationId fileOffset p) (fun _ _ => False) ∧
      ∀ start ∈ (flushFor blake3 operationId fileOffset p).pendingStart,
        start.toNat + (flushFor blake3 operationId fileOffset p).pending.length = fileOffset.toNat := by
  unfold flushFor
  split
  · refine ⟨packs_flushPending blake3 operationId hp, ?_⟩
    intro start hstart
    rw [flushPending_pendingStart] at hstart
    cases hstart
  · next hkeep =>
    refine ⟨⟨List.Subset.refl _, hp, fun _ _ _ _ => (or_false _).symm ▸ Iff.rfl⟩, ?_⟩
    intro start hstart
    have hend := hp.pending start hstart
    rw [Packing.mustFlush, Bool.or_eq_true, not_or] at hkeep
    have hsame : start + ofNat p.pending.length = fileOffset := by
      by_contra hne
      apply hkeep.1
      rw [Option.mem_def.mp hstart]
      exact bne_iff_ne.mpr hne
    rw [← hsame, UInt64.toNat_add, UInt64.toNat_ofNat_of_lt' (Nat.lt_of_le_of_lt p.bound (by decide)),
      Nat.mod_eq_of_lt (by omega)]

variable (blake3 operationId p) in
/-- One round of packing: a piece of the buffer is appended to what is pending, the rest is packed after it. -/
theorem packBytes_round {remaining sourceOffset fileOffset} (hpositive : remaining ≠ 0)
    (hfile : fileOffset.toNat + remaining < 2 ^ 64) (hsource : sourceOffset + remaining ≤ bytes.length) :
    ∃ take, 0 < take ∧ take ≤ remaining ∧ ((bytes.drop sourceOffset).take take).length = take ∧
      (fileOffset + ofNat take).toNat = fileOffset.toNat + take ∧
      ∃ hroom : (flushFor blake3 operationId fileOffset p).pending.length +
          ((bytes.drop sourceOffset).take take).length ≤ commitChunkBytes,
        packBytes blake3 operationId bytes remaining sourceOffset fileOffset p =
          packBytes blake3 operationId bytes (remaining - take) (sourceOffset + take) (fileOffset + ofNat take)
            ((flushFor blake3 operationId fileOffset p).extend fileOffset
              ((bytes.drop sourceOffset).take take) hroom) := by
  have hroom := length_flushFor blake3 operationId fileOffset p
  have htake : ∃ take, take = min (commitChunkBytes - (flushFor blake3 operationId fileOffset p).pending.length)
      remaining := ⟨_, rfl⟩
  obtain ⟨take, htake⟩ := htake
  have hpiece : ((bytes.drop sourceOffset).take take).length = take := by
    rw [length_take, length_drop]
    omega
  refine ⟨take, by omega, by omega, hpiece, ?_, by omega, ?_⟩
  · have hsize : size = 2 ^ 64 := rfl
    rw [UInt64.toNat_add, UInt64.toNat_ofNat_of_lt' (by omega), Nat.mod_eq_of_lt (by omega)]
  · rw [packBytes, dif_neg hpositive]
    simp only [← htake]

/-- **Packing the bytes of a segment.** -/
theorem packs_packBytes (hlimit : limit < 2 ^ 64) (remaining : Nat) :
    ∀ (sourceOffset : Nat) (fileOffset : UInt64) {p : Packing}, p.Below limit →
      fileOffset.toNat + remaining ≤ limit → sourceOffset + remaining ≤ bytes.length →
      Packs limit p (packBytes blake3 operationId bytes remaining sourceOffset fileOffset p) fun n b =>
        fileOffset.toNat ≤ n ∧ n < fileOffset.toNat + remaining ∧
          bytes[sourceOffset + (n - fileOffset.toNat)]? = some b := by
  induction remaining using Nat.strong_induction_on with
  | _ remaining ih =>
    intro sourceOffset fileOffset p hp hfile hsource
    by_cases hzero : remaining = 0
    · rw [packBytes, dif_pos hzero]
      refine ⟨List.Subset.refl _, hp, fun chunk _ n b => ⟨.inl, ?_⟩⟩
      rintro (h | ⟨_, _, _⟩)
      · exact h
      · omega
    obtain ⟨take, hpositive, hle, hpiece, hnext, hroom, hround⟩ := packBytes_round blake3 operationId p hzero
      (Nat.lt_of_le_of_lt hfile hlimit) hsource
    rw [hround]
    obtain ⟨hflush, hjoins⟩ := packs_flushFor blake3 operationId hp hlimit fileOffset
    have hextend := packs_extend hflush.below fileOffset _ hroom (by omega) hjoins
    have hrest := ih (remaining - take) (by omega) (sourceOffset + take) (fileOffset + ofNat take) hextend.below
      (by omega) (by omega)
    refine ((hflush.trans hextend).trans hrest).congr fun n b => ?_
    rw [false_or, hnext, getElem?_take, getElem?_drop]
    by_cases hn : n < fileOffset.toNat + take
    · constructor
      · rintro (⟨hlo, hget⟩ | ⟨hlo, _⟩)
        · rw [if_pos (by omega)] at hget
          exact ⟨hlo, by omega, hget⟩
        · omega
      · rintro ⟨hlo, _, hget⟩
        exact .inl ⟨hlo, by rw [if_pos (by omega)]; exact hget⟩
    · have hindex : sourceOffset + take + (n - (fileOffset.toNat + take)) = sourceOffset + (n - fileOffset.toNat) := by
        omega
      rw [hindex]
      constructor
      · rintro (⟨hlo, hget⟩ | ⟨hlo, hhi, hget⟩)
        · rw [if_neg (by omega)] at hget
          cases hget
        · exact ⟨by omega, by omega, hget⟩
      · rintro ⟨hlo, hhi, hget⟩
        exact .inr ⟨by omega, by omega, hget⟩

variable (blake3 operationId) in
/-- **Packing a segment.** -/
theorem packs_packSegment {fileLength} (hp : p.Below fileLength.toNat) {segment}
    (hok : SegmentOk fileLength segment) (hsized : Sized segment) :
    Packs fileLength.toNat p (packSegment blake3 operationId p segment) fun n b =>
      segmentMarks.Covers segment n ∧ segmentMarks.val segment n = some b := by
  cases hdata : segment.data with
  | none =>
    rw [packSegment, hdata]
    refine (packs_flushPending blake3 operationId hp).congr fun n b => ⟨False.elim, ?_⟩
    rintro ⟨_, hval⟩
    simp only [segmentMarks, hdata, Option.map_none, reduceCtorEq] at hval
  | some data =>
    obtain ⟨bytes, sourceOffset⟩ := data
    have hsource : sourceOffset.toNat + segment.length.toNat ≤ bytes.length := (hsized _ hdata).1
    rw [packSegment, hdata]
    refine (packs_packBytes fileLength.toNat_lt segment.length.toNat _ _ hp hok.bound hsource).congr fun n b => ?_
    rw [← and_assoc]
    refine and_congr_right fun hcovers => ?_
    have hget := getElem?_eq_getElem
      (show sourceOffset.toNat + (n - segment.fileOffset.toNat) < bytes.length by omega)
    simp [segmentMarks, hdata, hget]

variable (blake3 operationId) in
/-- **Packing all segments.** -/
theorem packs_segments {fileLength} (hok : ∀ segment ∈ segments, SegmentOk fileLength segment)
    (hsized : ∀ segment ∈ segments, Sized segment) (hp : p.Below fileLength.toNat) :
    Packs fileLength.toNat p (segments.foldl (packSegment blake3 operationId) p) fun n b =>
      segmentMarks.Shows segments n (some b) := by
  induction segments generalizing p with
  | nil =>
    refine ⟨List.Subset.refl _, hp, fun chunk _ n b => ⟨.inl, ?_⟩⟩
    rintro (h | ⟨_, hmem, _⟩)
    · exact h
    · cases hmem
  | cons _ _ ih =>
    rw [forall_mem_cons] at hok hsized
    have hfirst := packs_packSegment blake3 operationId hp hok.1 hsized.1
    refine (hfirst.trans (ih hok.2 hsized.2 hfirst.below)).congr fun n b => ?_
    rw [Layers.shows_cons]

end Packing

/-! ## The plan -/

section Plan

variable {blake3 : Bytes → Digest} {operationId : OperationId} {layoutId : LayoutRootId} {frozen : FrozenCommit}
  {planned : CommitPlan} {chunk : ChunkBytes}

section

variable (hbase : frozen.baseLayout.inlineExtents.Pairwise (extentLayers chunk).Follows)
    (h : plan blake3 frozen operationId layoutId = .ok planned)

include hbase h

/-- **What a planned layout refers to**: the bytes of the segments, and the base layout where there is none. -/
theorem shows_plan :
    (∀ extent ∈ planned.layoutRoot.inlineExtents,
      extent.fileOffset.toNat + extent.length.toNat ≤ frozen.logicalLength.toNat) ∧
    ∃ segments, normalizedOverlay frozen.dirtyExtents frozen.logicalLength = .ok segments ∧
      (Stored chunk planned.stagedChunks → ∀ n, n < frozen.logicalLength.toNat → ∀ b,
        (extentLayers chunk).Shows planned.layoutRoot.inlineExtents n b ↔
          ((extentLayers chunk).Shows frozen.baseLayout.inlineExtents n b ∧ segmentMarks.Bare segments n) ∨
            segmentMarks.Shows segments n (some b)) := by
  obtain ⟨segments, hsegments, h⟩ := bind_eq_ok.mp h
  obtain ⟨extents, hextents, h⟩ := bind_eq_ok.mp h
  cases h
  obtain ⟨hok, hshows⟩ := shows_subtract (extentsOk_clip hbase) hextents
  have hbelow : Packing.Below frozen.logicalLength.toNat ⟨none, [], extents, [], Nat.zero_le _, fun _ => rfl⟩ :=
    ⟨(fun _ hstart => nomatch hstart), hok.bounded⟩
  have hsegmentsPacked :=
    packs_segments blake3 operationId (normalized hsegments).1.ok (sized_normalized hsegments) hbelow
  have hpacks := hsegmentsPacked.trans (packs_flushPending blake3 operationId hsegmentsPacked.below)
  refine ⟨fun extent hextent => hpacks.below.extents extent ((mem_insertionSort _).mp hextent), segments, hsegments, ?_⟩
  intro hstored n hn b
  have hpackedShows := hpacks.shows chunk hstored n b
  simp only [Packing.Shows, flushPending_pendingStart, Option.not_mem_none, false_and, exists_false, or_false]
    at hpackedShows
  rw [Layers.shows_perm (perm_insertionSort _ _), hpackedShows, hshows, shows_clip hn]

/-- **A planned layout holds the visible bytes.** -/
theorem layoutByte_plan (hstored : Stored chunk planned.stagedChunks) (hn : n < frozen.logicalLength.toNat) :
    layoutByte chunk planned.layoutRoot n =
      dirtyLayers.top frozen.dirtyExtents (layoutByte chunk frozen.baseLayout n) n := by
  obtain ⟨_, segments, hsegments, hshows⟩ := shows_plan hbase h
  replace hshows := hshows hstored n hn
  obtain ⟨hnormal, htop⟩ := normalized hsegments
  rw [top_dirtyLayers, ← htop n hn, layoutByte]
  rcases Layers.bare_or_shows segments n with hbare | ⟨mark, hmark⟩
  · -- No segment covers the offset: the plan keeps what the base layout refers to.
    have hkept : ∀ b, (extentLayers chunk).Shows planned.layoutRoot.inlineExtents n b ↔
        (extentLayers chunk).Shows frozen.baseLayout.inlineExtents n b := by
      intro b
      rw [hshows]
      exact ⟨fun h => h.elim (·.1) (absurd · hbare.not_shows), fun h => .inl ⟨h, hbare⟩⟩
    rw [Layers.top_of_bare hbare, Option.getD_some, layoutByte]
    rcases Layers.bare_or_shows frozen.baseLayout.inlineExtents n with hempty | ⟨b, hb⟩
    · rw [Layers.top_of_bare hempty, Layers.top_of_bare]
      exact fun a ha hcovers => hempty.not_shows ((hkept _).mp ⟨a, ha, hcovers, rfl⟩)
    · rw [Layers.top_eq_of_shows hbase hb]
      exact Layers.top_of_shows (fun b' hb' => Layers.shows_unique hbase ((hkept b').mp hb') hb) ((hkept b).mpr hb)
  · -- A segment covers it: the base layout has been cut there.
    have hcut : ∀ b, (extentLayers chunk).Shows planned.layoutRoot.inlineExtents n b ↔ some b = mark := by
      intro b
      rw [hshows]
      constructor
      · rintro (⟨_, hbare⟩ | hb)
        · exact absurd hmark hbare.not_shows
        · exact Layers.shows_unique hnormal.follows hb hmark
      · rintro rfl
        exact .inr hmark
    rw [Layers.top_eq_of_shows hnormal.follows hmark]
    cases mark with
    | none =>
      rw [Layers.top_of_bare]
      · rfl
      · intro a ha hcovers
        cases (hcut _).mp ⟨a, ha, hcovers, rfl⟩
    | some b =>
      exact Layers.top_of_shows (fun b' hb' => Option.some.inj ((hcut b').mp hb')) ((hcut b).mpr rfl)

end

/-- Every range that a plan reads is in range. -/
structure FrozenCommit.InRange (frozen : FrozenCommit) : Prop where
  base : ∀ extent ∈ frozen.baseLayout.inlineExtents, ExtentInRange extent
  dirty : ∀ extent ∈ frozen.dirtyExtents, extent.InRange

/-- **Planning succeeds** when no range overflows. -/
theorem plan_total (blake3 : Bytes → Digest) (operationId : OperationId) (layoutId : LayoutRootId)
    (hrange : frozen.InRange) : ∃ planned, plan blake3 frozen operationId layoutId = .ok planned := by
  obtain ⟨segments, hsegments⟩ := normalizedOverlay_total hrange.dirty frozen.logicalLength
  have hclipped : ∀ extent ∈ frozen.baseLayout.inlineExtents.filterMap (clipExtent frozen.logicalLength),
      ExtentInRange extent := by
    intro clipped hclipped
    obtain ⟨extent, hextent, hclip⟩ := mem_filterMap.mp hclipped
    exact extentInRange_clip (hrange.base extent hextent) hclip
  obtain ⟨extents, hextents⟩ := subtract_total (normalized hsegments).1.ok hclipped
  exact ⟨_, bind_eq_ok.mpr ⟨segments, hsegments, bind_eq_ok.mpr ⟨extents, hextents, rfl⟩⟩⟩

/-- The state that a commit froze: its base layout and length, with the log frozen, active or part of each. -/
structure FrozenCommit.Of (frozen : FrozenCommit) (state : VisibleState) : Prop where
  length : state.length = frozen.logicalLength
  layout : state.layout = frozen.baseLayout
  log : state.frozen.getD [] ++ state.active = frozen.dirtyExtents

theorem FrozenCommit.Of.visibleByte {state} (hof : frozen.Of state) (n : Nat) :
    visibleByte chunk state n = dirtyLayers.top frozen.dirtyExtents (layoutByte chunk frozen.baseLayout n) n := by
  rw [Node.visibleByte, ← Layers.top_append, hof.log, hof.layout]

/-- **A planned layout denotes the visible content.** Planning a frozen log over a base layout of ordered, disjoint
    extents succeeds when no range overflows. No planned extent reaches past the length, and once the staged chunks
    are stored every byte that a read of the frozen state returns is the byte that the planned layout refers to; a
    read returns all bytes of its range below the length, and it succeeds when no range overflows and the engine
    answers its batch. -/
theorem plan_denotes_visible (blake3 : Bytes → Digest) (frozen : FrozenCommit) (operationId : OperationId)
    (layoutId : LayoutRootId) (chunk : ChunkBytes) (engine : ReadEngine) (state : VisibleState)
    (hbase : frozen.baseLayout.inlineExtents.Pairwise fun extent next =>
      extent.fileOffset.toNat + extent.length.toNat ≤ next.fileOffset.toNat)
    (hengine : ReadsChunks engine chunk) (hof : frozen.Of state) :
    (frozen.InRange → (∃ planned, plan blake3 frozen operationId layoutId = .ok planned) ∧
      ∀ offset outLen, AnswersRead engine state offset outLen →
        ∃ bytes, readVisible engine state offset outLen = .ok bytes) ∧
    ∀ planned, plan blake3 frozen operationId layoutId = .ok planned →
      (∀ extent ∈ planned.layoutRoot.inlineExtents,
        extent.fileOffset.toNat + extent.length.toNat ≤ frozen.logicalLength.toNat) ∧
      (Stored chunk planned.stagedChunks → ∀ offset outLen bytes, readVisible engine state offset outLen = .ok bytes →
        bytes.length = min (frozen.logicalLength.toNat - offset.toNat) outLen.toNat ∧
        ∀ i, i < bytes.length → bytes[i]? = some (layoutByte chunk planned.layoutRoot (offset.toNat + i))) := by
  constructor
  · intro hrange
    refine ⟨plan_total blake3 operationId layoutId hrange, fun offset outLen hanswers => ?_⟩
    exact readVisible_total hengine hanswers ⟨hof.layout ▸ hrange.base, hof.log ▸ hrange.dirty⟩
  · intro planned hplanned
    have hfollows : frozen.baseLayout.inlineExtents.Pairwise (extentLayers chunk).Follows := hbase
    refine ⟨(shows_plan hfollows hplanned).1, fun hstored offset outLen bytes hread => ?_⟩
    obtain ⟨hlength, hbytes⟩ := readVisible_eq hengine hread
    rw [hof.length] at hlength
    refine ⟨hlength, fun i hi => ?_⟩
    rw [hbytes i hi, hof.visibleByte, layoutByte_plan hfollows hplanned hstored (by omega)]

end Plan

/-- A shrink, a growth and a write over a file whose four bytes are in one chunk. -/
def truncatedAndAppended : FrozenCommit where
  throughSeq := 3
  logicalLength := 6
  inode := {
    namespaceId := ⟨"ns"⟩
    inodeId := ⟨"file"⟩
    kind := .regular
    attributes := ⟨0o644, 0, 0, 1, 0, 0, 0⟩
    headVersion := none
    symlinkTarget := none
    xattrs := []
    revision := 1 }
  writeLease := ⟨⟨"file"⟩, "node", "session", 1, 0⟩
  baseVersion := none
  baseLayout := ⟨⟨"layout"⟩, 4, [⟨0, 4, ⟨"base"⟩, 1⟩]⟩
  dirtyExtents :=
    DirtyExtentMap.writeAt (DirtyExtentMap.resize (DirtyExtentMap.resize [] 4 2 1) 2 5 2) 5 ⟨[9], by decide⟩ 3
  killSuidgidDirty := false

def sampleChunk : ChunkBytes := fun id i => if id = ⟨"base"⟩ then UInt8.ofNat i else 9

def zeroDigest : Bytes → Digest := fun _ => Vector.replicate 32 0

/-- A read engine that always answers. -/
def chunkEngine (chunk : ChunkBytes) : ReadEngine := fun batch out => .ok (batch.ops.foldl (readOp chunk) out)

theorem readsChunks_chunkEngine (chunk : ChunkBytes) : ReadsChunks (chunkEngine chunk) chunk :=
  fun _ _ _ h => (Except.ok.inj h).symm

def truncatedAndAppendedPlan : CommitPlan where
  layoutRoot := ⟨⟨"next"⟩, 6,
    [⟨0, 2, ⟨"base"⟩, 1⟩, ⟨5, 1, (StagedChunk.new zeroDigest ⟨"op"⟩ [9]).chunk.id, 0⟩]⟩
  stagedChunks := [StagedChunk.new zeroDigest ⟨"op"⟩ [9]]

theorem plan_denotes_visible_truncated :
    plan zeroDigest truncatedAndAppended ⟨"op"⟩ ⟨"next"⟩ = .ok truncatedAndAppendedPlan ∧
    readVisible (chunkEngine sampleChunk) ⟨none, 6, truncatedAndAppended.baseLayout, none,
      truncatedAndAppended.dirtyExtents⟩ 1 10 = .ok [2, 0, 0, 0, 9] ∧
    ∀ i, i < 5 → ([2, 0, 0, 0, 9] : Bytes)[i]? =
      some (layoutByte sampleChunk truncatedAndAppendedPlan.layoutRoot (1 + i)) := by
  have hplan : plan zeroDigest truncatedAndAppended ⟨"op"⟩ ⟨"next"⟩ = .ok truncatedAndAppendedPlan := by
    decide +kernel
  have hread : readVisible (chunkEngine sampleChunk) ⟨none, 6, truncatedAndAppended.baseLayout, none,
      truncatedAndAppended.dirtyExtents⟩ 1 10 = .ok [2, 0, 0, 0, 9] := by
    decide +kernel
  refine ⟨hplan, hread, ?_⟩
  have hdenotes := (plan_denotes_visible zeroDigest truncatedAndAppended ⟨"op"⟩ ⟨"next"⟩ sampleChunk
    (chunkEngine sampleChunk) ⟨none, 6, truncatedAndAppended.baseLayout, none, truncatedAndAppended.dirtyExtents⟩
    (pairwise_singleton _ _) (readsChunks_chunkEngine _) ⟨rfl, rfl, rfl⟩).2 _ hplan
  refine (hdenotes.2 ?_ 1 10 _ hread).2
  -- The one staged chunk holds the byte that was written.
  intro staged hstaged i b hb
  rw [truncatedAndAppendedPlan, mem_singleton] at hstaged
  subst hstaged
  cases i with
  | zero =>
    cases hb
    decide
  | succ i => cases hb

end Afs.Node
