import Afs.Lib.Regions
import Afs.Node.Chunk.Store

/-!
# `Node.Chunk.Reader` — verified reads of a local chunk

A chunk of the local store is read as a whole and checked against its digest while the requested ranges are copied to
the buffer. The buffer may be dirtied before an error is found; the caller publishes it only after a success.

The file is read in pieces of 64 KiB and does not change meanwhile.
-/

namespace Afs.Node

open Overlay Regions List

structure VerifiedRangeCopy where
  (chunkOffset length outputOffset : UInt64)
  deriving DecidableEq

def VerifiedRangeCopy.region (range : VerifiedRangeCopy) : Region := ⟨range.outputOffset.toNat, range.length.toNat⟩

/-- How much of a range the chunk has. -/
def allowedCount (chunk : ChunkObject) (range : VerifiedRangeCopy) : UInt64 :=
  if range.chunkOffset ≥ chunk.length ∨ range.length = 0 then 0 else min (chunk.length - range.chunkOffset) range.length

/-- The first loop of `verified_ranges_into`. -/
def rangeCounts (chunk : ChunkObject) (outLen : Nat) : List VerifiedRangeCopy → Result (List Nat)
  | [] => .ok []
  | range :: rest =>
    match range.outputOffset.checkedAdd (allowedCount chunk range) with
    | none => .error (ChunkStore.invalid "verified Chunk output range overflow")
    | some stop =>
      if outLen < stop.toNat then .error (ChunkStore.invalid "verified Chunk output range exceeds buffer")
      else do
        let counts ← rangeCounts chunk outLen rest
        return (allowedCount chunk range).toNat :: counts

/-- The part of a range that lies in the piece between two positions of the file. -/
def copyPiece (content : Bytes) (position next : Nat) (out : Bytes) (active : VerifiedRangeCopy × Nat) : Bytes :=
  let start := max position active.1.chunkOffset.toNat
  let stop := min next (active.1.chunkOffset.toNat + active.2)
  if start < stop then
    patch out (active.1.outputOffset.toNat + (start - active.1.chunkOffset.toNat)) (slice ⟨start, stop - start⟩ content)
  else out

def pieceLength : Nat := 64 * 1024

/-- The loop over the pieces of the file. -/
def scanPieces (content : Bytes) (active : List (VerifiedRangeCopy × Nat)) (out : Bytes) : Bytes :=
  (List.range ((content.length + (pieceLength - 1)) / pieceLength)).foldl
    (fun out i => active.foldl (copyPiece content (i * pieceLength) (min ((i + 1) * pieceLength) content.length)) out)
    out

/-- `verified_ranges_into`, with the buffer as it is left. -/
def verifiedRangesInto (blake3 : Bytes → Digest) (content : Bytes) (chunk : ChunkObject)
    (ranges : List VerifiedRangeCopy) (out : Bytes) (forceScan : Bool) : Result (List Nat) × Bytes :=
  match rangeCounts chunk out.length ranges with
  | .error e => (.error e, out)
  | .ok counts =>
    let active := (ranges.zip counts).filter fun pair => pair.2 ≠ 0
    if active = [] ∧ forceScan = false then (.ok counts, out)
    else if content.length ≠ chunk.length.toNat then (.error (ChunkStore.corrupt chunk.id "length mismatch"), out)
    else
      let out := scanPieces content active out
      if (⟨.blake3, blake3 content⟩ : ContentDigest) ≠ chunk.contentDigest then
        (.error (ChunkStore.corrupt chunk.id "digest mismatch"), out)
      else (.ok counts, out)

/-! ## What a scan copies -/

section Scan

variable {content out : Bytes} {active : List (VerifiedRangeCopy × Nat)}

/-- The places of the buffer that the ranges are copied to. -/
def activeRegion (a : VerifiedRangeCopy × Nat) : Region := ⟨a.1.outputOffset.toNat, a.2⟩

/-- The range lies in the file and its place in the buffer. -/
structure ActiveFits (content : Bytes) (outLen : Nat) (a : VerifiedRangeCopy × Nat) : Prop where
  file : a.1.chunkOffset.toNat + a.2 ≤ content.length
  buffer : a.1.outputOffset.toNat + a.2 ≤ outLen

def pieceStart (a : VerifiedRangeCopy × Nat) (i : Nat) : Nat := max (i * pieceLength) a.1.chunkOffset.toNat

def pieceStop (a : VerifiedRangeCopy × Nat) (i : Nat) : Nat := min ((i + 1) * pieceLength) (a.1.chunkOffset.toNat + a.2)

/-- The place of the part of a range that lies in a piece. -/
def pieceRegion (item : Nat × (VerifiedRangeCopy × Nat)) : Region :=
  ⟨item.2.1.outputOffset.toNat + (pieceStart item.2 item.1 - item.2.1.chunkOffset.toNat),
    pieceStop item.2 item.1 - pieceStart item.2 item.1⟩

variable {item : Nat × (VerifiedRangeCopy × Nat)}

/-- The parts lie in the place of their range, at the distance they have in the file. -/
theorem pieceRegion_contains {n} (h : (pieceRegion item).Contains n) :
    (activeRegion item.2).Contains n ∧
      item.1 * pieceLength ≤ item.2.1.chunkOffset.toNat + (n - item.2.1.outputOffset.toNat) ∧
      item.2.1.chunkOffset.toNat + (n - item.2.1.outputOffset.toNat) < (item.1 + 1) * pieceLength := by
  obtain ⟨hlower, hupper⟩ := h
  simp only [pieceRegion, pieceStart, pieceStop, activeRegion, Region.Contains] at *
  generalize (item.1 + 1) * pieceLength = next at *
  omega

theorem pieceRegion_apart_of_active {item other}
    (h : (activeRegion item.2).Apart (activeRegion other.2)) : (pieceRegion item).Apart (pieceRegion other) :=
  fun n hitem hother => h n (pieceRegion_contains hitem).1 (pieceRegion_contains hother).1

theorem pieceRegion_apart_of_lt {i j} (h : i < j) (a : VerifiedRangeCopy × Nat) :
    (pieceRegion (i, a)).Apart (pieceRegion (j, a)) := by
  intro n hitem hother
  have hupper := (pieceRegion_contains hitem).2.2
  have hlower := (pieceRegion_contains hother).2.1
  have hle : (i + 1) * pieceLength ≤ j * pieceLength := Nat.mul_le_mul_right _ h
  simp only at hupper hlower
  omega

/-- Copying a part of a range. -/
theorem copyPiece_holds {i a} (hfits : ActiveFits content out.length a) :
    Regions.Writes [pieceRegion (i, a)] out
        (copyPiece content (i * pieceLength) (min ((i + 1) * pieceLength) content.length) out a) ∧
      Holds (pieceRegion (i, a)) (fun k => content.getD (pieceStart a i + k) 0)
        (copyPiece content (i * pieceLength) (min ((i + 1) * pieceLength) content.length) out a) := by
  have hfile := hfits.file
  have hbuffer := hfits.buffer
  have hstop : min (min ((i + 1) * pieceLength) content.length) (a.1.chunkOffset.toNat + a.2) = pieceStop a i := by
    rw [pieceStop]
    omega
  simp only [copyPiece, hstop]
  show Regions.Writes _ out (if pieceStart a i < pieceStop a i then _ else _) ∧
    Holds _ _ (if pieceStart a i < pieceStop a i then _ else _)
  split
  · next hlt =>
    have hbound : pieceStart a i + (pieceStop a i - pieceStart a i) ≤ content.length := by
      simp only [pieceStart, pieceStop] at *
      omega
    have hroom : (pieceRegion (i, a)).start + (pieceRegion (i, a)).length ≤ out.length := by
      simp only [pieceRegion, pieceStart, pieceStop] at *
      omega
    have hlength :
      (slice ⟨pieceStart a i, pieceStop a i - pieceStart a i⟩ content).length = pieceStop a i - pieceStart a i :=
      length_slice hbound
    refine ⟨writes_patch hroom hlength, holds_patch hroom hlength ?_⟩
    intro k hk
    have hk : k < pieceStop a i - pieceStart a i := hk
    have hindex : pieceStart a i + k < content.length := by omega
    refine (getElem?_slice hk).trans ?_
    show content[pieceStart a i + k]? = some (content.getD (pieceStart a i + k) 0)
    rw [getD_eq_getElem?_getD, getElem?_eq_getElem hindex]
    rfl
  · next hge =>
    refine ⟨(Regions.Writes.refl out).mono (nil_subset _), ?_⟩
    intro k hk
    have hk : k < pieceStop a i - pieceStart a i := hk
    omega

/-- The parts in the order in which they are copied. -/
def scanItems (content : Bytes) (active : List (VerifiedRangeCopy × Nat)) : List (Nat × (VerifiedRangeCopy × Nat)) :=
  (List.range ((content.length + (pieceLength - 1)) / pieceLength)).flatMap fun i => active.map fun a => (i, a)

theorem scanPieces_eq : scanPieces content active out = (scanItems content active).foldl
    (fun out item =>
      copyPiece content (item.1 * pieceLength) (min ((item.1 + 1) * pieceLength) content.length) out item.2)
    out := by
  simp only [scanItems, foldl_flatMap, foldl_map]
  rfl

theorem mem_scanItems (h : item ∈ scanItems content active) : item.2 ∈ active := by
  obtain ⟨i, -, hi⟩ := mem_flatMap.mp h
  obtain ⟨a, ha, rfl⟩ := mem_map.mp hi
  exact ha

/-- A scan changes the places of the ranges at most. -/
theorem scanPieces_writes (hfits : ∀ a ∈ active, ActiveFits content out.length a) :
    Regions.Writes (active.map activeRegion) out (scanPieces content active out) := by
  rw [scanPieces_eq]
  have hwrites : Regions.Writes ((scanItems content active).map pieceRegion) out _ :=
    foldl_writes fun item hitem mid hmid => (copyPiece_holds (hmid ▸ hfits item.2 (mem_scanItems hitem))).1
  apply hwrites.cover
  intro region hregion n hn
  obtain ⟨item, hitem, rfl⟩ := mem_map.mp hregion
  exact ⟨_, mem_map_of_mem (mem_scanItems hitem), (pieceRegion_contains hn).1⟩

theorem scanItems_apart (content : Bytes)
    (hapart : active.Pairwise fun a b => (activeRegion a).Apart (activeRegion b)) :
    (scanItems content active).Pairwise fun item other => (pieceRegion item).Apart (pieceRegion other) := by
  refine pairwise_flatMap.mpr ⟨?_, pairwise_lt_range.imp ?_⟩
  · intro i _
    exact pairwise_map.mpr (hapart.imp fun h => pieceRegion_apart_of_active h)
  · intro i j hij item hitem other hother
    obtain ⟨a, ha, rfl⟩ := mem_map.mp hitem
    obtain ⟨b, hb, rfl⟩ := mem_map.mp hother
    by_cases heq : a = b
    · subst heq
      exact pieceRegion_apart_of_lt hij a
    · have : Std.Symm fun a b => (activeRegion a).Apart (activeRegion b) := ⟨fun _ _ h => h.symm⟩
      exact pieceRegion_apart_of_active (hapart.forall ha hb heq)

/-- **A scan copies every range.** -/
theorem scanPieces_holds (hfits : ∀ a ∈ active, ActiveFits content out.length a)
    (hapart : active.Pairwise fun a b => (activeRegion a).Apart (activeRegion b)) :
    ∀ a ∈ active, Holds (activeRegion a) (fun k => content.getD (a.1.chunkOffset.toNat + k) 0)
      (scanPieces content active out) := by
  have hpieces : ∀ item ∈ scanItems content active, Holds (pieceRegion item)
      (fun k => content.getD (pieceStart item.2 item.1 + k) 0) (scanPieces content active out) := by
    rw [scanPieces_eq]
    exact foldl_holds (scanItems_apart content hapart) fun item hitem mid hmid =>
      copyPiece_holds (hmid ▸ hfits item.2 (mem_scanItems hitem))
  intro a ha k hk
  have hk : k < a.2 := hk
  have hfile := (hfits a ha).file
  -- the piece that has the byte
  obtain ⟨i, hi⟩ : ∃ i, i = (a.1.chunkOffset.toNat + k) / pieceLength := ⟨_, rfl⟩
  have hlower : i * pieceLength ≤ a.1.chunkOffset.toNat + k := hi ▸ Nat.div_mul_le_self _ _
  have hupper : a.1.chunkOffset.toNat + k < (i + 1) * pieceLength := by
    rw [hi]
    exact (Nat.div_lt_iff_lt_mul (by decide)).mp (Nat.lt_succ_self _)
  have hpiece : i < (content.length + (pieceLength - 1)) / pieceLength := by
    apply (Nat.le_div_iff_mul_le (by decide)).mpr
    have hpos : 0 < pieceLength := by decide
    rw [Nat.succ_mul]
    omega
  have hmem : (i, a) ∈ scanItems content active :=
    mem_flatMap.mpr ⟨i, mem_range.mpr hpiece, mem_map_of_mem ha⟩
  have hstart : pieceStart a i ≤ a.1.chunkOffset.toNat + k := by
    rw [pieceStart]
    omega
  have hbyte := hpieces (i, a) hmem (a.1.chunkOffset.toNat + k - pieceStart a i) (by
    show _ < pieceStop a i - pieceStart a i
    rw [pieceStop]
    omega)
  have hplace :
    (pieceRegion (i, a)).start + (a.1.chunkOffset.toNat + k - pieceStart a i) = (activeRegion a).start + k := by
    show a.1.outputOffset.toNat + (pieceStart a i - a.1.chunkOffset.toNat) + _ = a.1.outputOffset.toNat + k
    rw [pieceStart] at hstart ⊢
    omega
  rw [hplace] at hbyte
  apply hbyte.trans
  show some (content.getD (pieceStart a i + (a.1.chunkOffset.toNat + k - pieceStart a i)) 0) = _
  rw [Nat.add_sub_cancel' hstart]

end Scan

/-! ## Verified reads -/

section Verified

variable {blake3 : Bytes → Digest} {content out : Bytes} {chunk : ChunkObject} {ranges : List VerifiedRangeCopy}
  {forceScan : Bool} {counts : List Nat}

theorem toNat_allowedCount (chunk : ChunkObject) (range : VerifiedRangeCopy) :
    (allowedCount chunk range).toNat ≤ range.length.toNat ∧
      (allowedCount chunk range ≠ 0 →
        range.chunkOffset.toNat + (allowedCount chunk range).toNat ≤ chunk.length.toNat) := by
  unfold allowedCount
  split
  · simp
  · next h =>
    rw [not_or, ge_iff_le, UInt64.not_le, UInt64.lt_iff_toNat_lt] at h
    rw [UInt64.toNat_min, UInt64.toNat_sub_of_le _ _ (UInt64.le_iff_toNat_le.mpr (by omega))]
    exact ⟨by omega, fun _ => by omega⟩

/-- The counts, one for each range. -/
theorem rangeCounts_ok {outLen} (h : rangeCounts chunk outLen ranges = .ok counts) :
    counts = ranges.map (fun range => (allowedCount chunk range).toNat) ∧
      ∀ range ∈ ranges, range.outputOffset.toNat + (allowedCount chunk range).toNat ≤ outLen := by
  induction ranges generalizing counts with
  | nil =>
    cases h
    exact ⟨rfl, nofun⟩
  | cons range rest ih =>
    unfold rangeCounts at h
    split at h
    · cases h
    · next stop hstop =>
      split at h
      · cases h
      · next hroom =>
        cases hrest : rangeCounts chunk outLen rest with
        | error e => simp [hrest, bind, Except.bind] at h
        | ok more =>
          simp only [hrest, bind, Except.bind, pure, Except.pure, Except.ok.injEq] at h
          subst h
          rw [UInt64.checkedAdd_eq_some] at hstop
          obtain ⟨hcounts, hfits⟩ := ih hrest
          refine ⟨by rw [hcounts, map_cons], forall_mem_cons.mpr ⟨by omega, hfits⟩⟩

/-- The ranges of which something is copied. -/
theorem active_fits (hcounts : rangeCounts chunk out.length ranges = .ok counts)
    (hlength : content.length = chunk.length.toNat) :
    ∀ a ∈ (ranges.zip counts).filter (fun pair => pair.2 ≠ 0),
      a.1 ∈ ranges ∧ a.2 = (allowedCount chunk a.1).toNat ∧ ActiveFits content out.length a := by
  obtain ⟨rfl, hfits⟩ := rangeCounts_ok hcounts
  intro a ha
  obtain ⟨hzip, hne⟩ := mem_filter.mp ha
  rw [← map_prod_left_eq_zip] at hzip
  obtain ⟨range, hrange, rfl⟩ := mem_map.mp hzip
  have hcount : allowedCount chunk range ≠ 0 := by
    intro hzero
    simp [hzero] at hne
  exact ⟨hrange, rfl, by rw [hlength]; exact (toNat_allowedCount chunk range).2 hcount, hfits range hrange⟩

theorem activeRegion_contains {a} (h : a.2 = (allowedCount chunk a.1).toNat) {n}
    (hn : (activeRegion a).Contains n) : a.1.region.Contains n := by
  have hle := (toNat_allowedCount chunk a.1).1
  obtain ⟨hlower, hupper⟩ := hn
  refine ⟨hlower, ?_⟩
  show n < a.1.outputOffset.toNat + a.1.length.toNat
  have hupper : n < a.1.outputOffset.toNat + a.2 := hupper
  omega

/-- A verified read changes its ranges at most, whatever it answers. -/
theorem verifiedRangesInto_writes :
    Regions.Writes (ranges.map VerifiedRangeCopy.region) out
      (verifiedRangesInto blake3 content chunk ranges out forceScan).2 := by
  have hsame : Regions.Writes (ranges.map VerifiedRangeCopy.region) out out :=
    (Regions.Writes.refl out).mono (nil_subset _)
  unfold verifiedRangesInto
  split
  · exact hsame
  · next counts hcounts =>
    simp only
    split
    · exact hsame
    · split
      · exact hsame
      · next hlength =>
        have hactive := active_fits hcounts (not_not.mp hlength)
        have hwrites := (scanPieces_writes fun a ha => (hactive a ha).2.2).cover fun region hregion n hn => by
          obtain ⟨a, ha, rfl⟩ := mem_map.mp hregion
          exact ⟨a.1.region, mem_map_of_mem (hactive a ha).1, activeRegion_contains (hactive a ha).2.1 hn⟩
        split
        · exact hwrites
        · exact hwrites

theorem active_apart (hcounts : rangeCounts chunk out.length ranges = .ok counts)
    (hlength : content.length = chunk.length.toNat)
    (hapart : ranges.Pairwise fun range other => range.region.Apart other.region) :
    ((ranges.zip counts).filter fun pair => pair.2 ≠ 0).Pairwise fun a b =>
      (activeRegion a).Apart (activeRegion b) := by
  have hactive := active_fits hcounts hlength
  have hzip : (ranges.zip counts).Pairwise fun a b => a.1.region.Apart b.1.region := by
    rw [(rangeCounts_ok hcounts).1, ← map_prod_left_eq_zip]
    exact pairwise_map.mpr hapart
  apply (hzip.sublist filter_sublist).imp_of_mem
  intro a b ha hb hab n hna hnb
  exact hab n (activeRegion_contains (hactive a ha).2.1 hna) (activeRegion_contains (hactive b hb).2.1 hnb)

theorem verifiedRangesInto_counts
    (hok : (verifiedRangesInto blake3 content chunk ranges out forceScan).1 = .ok counts) :
    counts.length = ranges.length := by
  have hcounts : rangeCounts chunk out.length ranges = .ok counts := by
    unfold verifiedRangesInto at hok
    split at hok
    · cases hok
    · next counts' hcounts =>
      rw [hcounts]
      simp only at hok
      split at hok
      · exact hok
      · split at hok
        · cases hok
        · split at hok
          · cases hok
          · exact hok
  rw [(rangeCounts_ok hcounts).1, length_map]

/-- **A verified read fills the ranges that it reports in full.** -/
theorem verifiedRangesInto_holds (hok : (verifiedRangesInto blake3 content chunk ranges out forceScan).1 = .ok counts)
    (hapart : ranges.Pairwise fun range other => range.region.Apart other.region) :
    ∀ pair ∈ ranges.zip counts, pair.2 = pair.1.length.toNat →
      Holds pair.1.region (fun k => content.getD (pair.1.chunkOffset.toNat + k) 0)
        (verifiedRangesInto blake3 content chunk ranges out forceScan).2 := by
  intro pair hpair hfull k hk
  have hk : k < pair.1.length.toNat := hk
  have hmem : pair ∈ (ranges.zip counts).filter fun pair => pair.2 ≠ 0 :=
    mem_filter.mpr ⟨hpair, decide_eq_true (by omega)⟩
  unfold verifiedRangesInto at hok ⊢
  split at hok
  · cases hok
  · next counts' hcounts =>
    simp only at hok ⊢
    split at hok
    · next hnone =>
      cases hok
      rw [hnone.1] at hmem
      cases hmem
    · next hsome =>
      split at hok
      · cases hok
      · next hlength =>
        split at hok
        · cases hok
        · next hdigest =>
          cases hok
          have hheld := scanPieces_holds (fun a ha => (active_fits hcounts (not_not.mp hlength) a ha).2.2)
            (active_apart hcounts (not_not.mp hlength) hapart) pair hmem k (by show k < pair.2; omega)
          rw [if_neg hsome, if_neg hlength, if_neg hdigest]
          exact hheld

theorem allowedCount_of_inside {range} (h : range.chunkOffset.toNat + range.length.toNat ≤ chunk.length.toNat) :
    allowedCount chunk range = range.length := by
  unfold allowedCount
  split
  · next hnone =>
    rcases hnone with hoffset | hzero
    · rw [ge_iff_le, UInt64.le_iff_toNat_le] at hoffset
      exact (UInt64.toNat_inj.mp (show range.length.toNat = 0 by omega)).symm
    · exact hzero.symm
  · next hsome =>
    rw [not_or, ge_iff_le, UInt64.not_le, UInt64.lt_iff_toNat_lt] at hsome
    apply UInt64.toNat_inj.mp
    rw [UInt64.toNat_min, UInt64.toNat_sub_of_le _ _ (UInt64.le_iff_toNat_le.mpr (by omega))]
    omega

theorem rangeCounts_of_inside {outLen} (hsize : outLen < 2 ^ 64)
    (hinside : ∀ range ∈ ranges, range.chunkOffset.toNat + range.length.toNat ≤ chunk.length.toNat)
    (hfits : ∀ range ∈ ranges, range.outputOffset.toNat + range.length.toNat ≤ outLen) :
    rangeCounts chunk outLen ranges = .ok (ranges.map fun range => range.length.toNat) := by
  induction ranges with
  | nil => rfl
  | cons range rest ih =>
    obtain ⟨hfirst, hrest⟩ := forall_mem_cons.mp hinside
    obtain ⟨hroom, hrooms⟩ := forall_mem_cons.mp hfits
    have hadd : range.outputOffset.checkedAdd range.length = some (range.outputOffset + range.length) :=
      UInt64.checkedAdd_of_lt (by omega)
    have hstop := UInt64.checkedAdd_eq_some.mp hadd
    rw [rangeCounts, allowedCount_of_inside hfirst, hadd]
    simp only
    rw [if_neg (by omega), ih hrest hrooms]
    rfl

/-- The ranges of an intact file are read. -/
theorem verifiedRangesInto_intact (hlength : content.length = chunk.length.toNat)
    (hdigest : (⟨.blake3, blake3 content⟩ : ContentDigest) = chunk.contentDigest)
    (hinside : ∀ range ∈ ranges, range.chunkOffset.toNat + range.length.toNat ≤ chunk.length.toNat)
    (hfits : ∀ range ∈ ranges, range.outputOffset.toNat + range.length.toNat ≤ out.length)
    (hsize : out.length < 2 ^ 64) :
    (verifiedRangesInto blake3 content chunk ranges out forceScan).1 =
      .ok (ranges.map fun range => range.length.toNat) := by
  unfold verifiedRangesInto
  rw [rangeCounts_of_inside hsize hinside hfits]
  simp only
  split
  · rfl
  · rw [if_neg (not_not.mpr hlength), if_neg (not_not.mpr hdigest)]

end Verified

end Afs.Node
