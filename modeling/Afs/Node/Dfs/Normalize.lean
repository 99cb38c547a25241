import Afs.Node.Dfs.Planner

/-!
# `Node.Dfs.Normalize` — the normalised log

`normalizedOverlay` resolves a dirty log: its segments follow each other, cover what the log covers below the file
length, and give each byte what the last entry of the log that covers it gives, a hole for a resize (`normalized`).
One entry is one step: it is cut out of the segments so far and added to them.
-/

namespace Afs.Node

open Overlay List UInt64

variable {α : Type} {delta : UInt64} {data data' : Option (Bytes × UInt64)}

/-- What an entry of the log leaves at an offset: a byte, or a hole. -/
def dirtyMarks : Layers DirtyExtent (Option UInt8) where
  lo := dirtyLayers.lo
  hi := dirtyLayers.hi
  val := fun extent n => extent.data.map fun data => data.getD (n - extent.fileOffset.toNat) 0

def segmentMarks : Layers OverlaySegment (Option UInt8) where
  lo := fun segment => segment.fileOffset.toNat
  hi := fun segment => segment.fileOffset.toNat + segment.length.toNat
  val := fun segment n => segment.data.map fun data =>
    data.1.getD (data.2.toNat + (n - segment.fileOffset.toNat)) 0

/-- A hole reads as zero. -/
theorem top_dirtyLayers (map : DirtyExtentMap) (b : UInt8) (n : Nat) :
    dirtyLayers.top map b n = (dirtyMarks.top map (some b) n).getD 0 := by
  have hval : ∀ extent, dirtyLayers.val extent n = (dirtyMarks.val extent n).getD 0 := by
    intro extent
    cases hdata : extent.data <;> simp [dirtyLayers, dirtyMarks, hdata]
  suffices h : ∀ bottom : Option UInt8,
      dirtyLayers.top map (bottom.getD 0) n = (dirtyMarks.top map bottom n).getD 0 from h (some b)
  induction map with
  | nil => exact fun _ => rfl
  | cons extent map ih =>
    intro bottom
    rw [Layers.top_cons, Layers.top_cons]
    by_cases hcovers : dirtyMarks.Covers extent n
    · have hcovers' : dirtyLayers.Covers extent n := hcovers
      rw [if_pos hcovers', if_pos hcovers, hval, ih]
    · have hcovers' : ¬ dirtyLayers.Covers extent n := hcovers
      rw [if_neg hcovers', if_neg hcovers, ih]

/-- A list of fallible cuts, each of them as `related` says. -/
theorem cutEach_eq_ok {cut} {related : α → List α → Prop} {l l'}
    (hcut : ∀ a ∈ l, ∀ pieces, cut a = .ok pieces → related a pieces) (h : cutEach cut l = .ok l') :
    ∃ pss, List.Forall₂ related l pss ∧ l' = pss.flatten := by
  induction l generalizing l' with
  | nil =>
    cases h
    exact ⟨[], .nil, rfl⟩
  | cons a rest ih =>
    rw [cutEach] at h
    obtain ⟨pieces, hpieces, h⟩ := bind_eq_ok.mp h
    obtain ⟨others, hothers, h⟩ := bind_eq_ok.mp h
    cases h
    obtain ⟨pss, hpss, rfl⟩ := ih (fun b hb => hcut b (mem_cons_of_mem _ hb)) hothers
    exact ⟨pieces :: pss, .cons (hcut a mem_cons_self pieces hpieces) hpss, rfl⟩

/-- Cuts that succeed, into pieces with a property. -/
theorem cutEach_total {cut} {P : α → Prop} {l}
    (h : ∀ a ∈ l, ∃ pieces, cut a = .ok pieces ∧ ∀ p ∈ pieces, P p) : ∃ l', cutEach cut l = .ok l' ∧ ∀ p ∈ l', P p := by
  induction l with
  | nil => exact ⟨[], rfl, forall_mem_nil _⟩
  | cons a rest ih =>
    obtain ⟨pieces, hpieces, hP⟩ := h a mem_cons_self
    obtain ⟨others, hothers, hP'⟩ := ih fun b hb => h b (mem_cons_of_mem _ hb)
    exact ⟨pieces ++ others, bind_eq_ok.mpr ⟨pieces, hpieces, bind_eq_ok.mpr ⟨others, hothers, rfl⟩⟩,
      forall_mem_append.mpr ⟨hP, hP'⟩⟩

/-! ## Cutting a range -/

/-- What the range from `start` to before `stop` leaves of something from `lo` to before `hi`: `left` makes the part
    before the range from its length, `right` the one after it from where it begins in the whole and its length. -/
def cutRange (start stop lo hi : UInt64) (whole : α) (left : UInt64 → α) (right : UInt64 → UInt64 → Result α) :
    Result (List α) :=
  if stop ≤ lo ∨ start ≥ hi then .ok [whole]
  else
    let before := if start > lo then [left (start - lo)] else []
    if stop < hi then do
      let after ← right (stop - lo) (hi - stop)
      .ok (before ++ [after])
    else .ok before

section Range

variable {start stop lo hi : UInt64} {whole : α} {left : UInt64 → α} {right : UInt64 → UInt64 → Result α}

theorem cutOf_cutRange {β : Type} {v : Layers α β} {pieces : List α}
    (h : cutRange start stop lo hi whole left right = .ok pieces)
    (hrange : start.toNat ≤ stop.toNat) (hlo : v.lo whole = lo.toNat) (hhi : v.hi whole = hi.toNat)
    (hleft : ∀ length, v.lo (left length) = lo.toNat ∧ v.hi (left length) = lo.toNat + length.toNat ∧
      ∀ n, v.val (left length) n = v.val whole n)
    (hright : ∀ delta length piece, lo.toNat + delta.toNat = stop.toNat → right delta length = .ok piece →
      v.lo piece = stop.toNat ∧ v.hi piece = stop.toNat + length.toNat ∧
        ∀ n, stop.toNat ≤ n → v.val piece n = v.val whole n) :
    CutOf v start.toNat stop.toNat whole pieces := by
  rw [cutRange] at h
  split at h
  · next hout =>
    cases h
    rw [ge_iff_le, le_iff_toNat_le, le_iff_toNat_le, ← hlo, ← hhi] at hout
    exact CutOf.self hout
  next hin =>
  rw [ge_iff_le, not_or, UInt64.not_le, UInt64.not_le] at hin
  have hstop := lt_iff_toNat_lt.mp hin.1
  have hstart := lt_iff_toNat_lt.mp hin.2
  dsimp only at h
  generalize hpieces : (if start > lo then [left (start - lo)] else []) = before at h
  have hbefore : PartOf v whole (v.lo whole) start.toNat before := by
    split at hpieces
    · next hlt =>
      have hlength := UInt64.toNat_sub_of_le _ _ (UInt64.le_of_lt hlt)
      rw [gt_iff_lt, lt_iff_toNat_lt] at hlt
      obtain ⟨hlo', hhi', hval⟩ := hleft (start - lo)
      exact .inr ⟨by omega, _, hpieces.symm, by omega, by omega, fun n _ => hval n⟩
    · next hle =>
      rw [gt_iff_lt, lt_iff_toNat_lt, Nat.not_lt] at hle
      exact .inl ⟨hpieces.symm, by omega⟩
  split at h
  · next hlt =>
    obtain ⟨after, hafter, h⟩ := bind_eq_ok.mp h
    cases h
    have hdelta := UInt64.toNat_sub_of_le _ _ (UInt64.le_of_lt hin.1)
    have hlength := UInt64.toNat_sub_of_le _ _ (UInt64.le_of_lt hlt)
    rw [lt_iff_toNat_lt] at hlt
    obtain ⟨hlo', hhi', hval⟩ := hright _ _ _ (by omega) hafter
    refine CutOf.of_parts hrange (by omega) (by omega) hbefore (.inr ⟨by omega, after, rfl, hlo', by omega, ?_⟩)
    exact fun n hn => hval n (hlo' ▸ hn.1)
  · next hle =>
    cases h
    rw [lt_iff_toNat_lt, Nat.not_lt] at hle
    have hcut := CutOf.of_parts hrange (by omega) (by omega) hbefore (.inl ⟨rfl, by omega⟩)
    rwa [append_nil] at hcut

/-- Cutting succeeds when the part after the range can be made. -/
theorem cutRange_total {P : α → Prop} (hwhole : P whole)
    (hleft : ∀ length : UInt64, lo.toNat + length.toNat = start.toNat → start.toNat < hi.toNat → P (left length))
    (hright : ∀ delta length : UInt64, lo.toNat + delta.toNat = stop.toNat → stop.toNat + length.toNat = hi.toNat →
      ∃ piece, right delta length = .ok piece ∧ P piece) :
    ∃ pieces, cutRange start stop lo hi whole left right = .ok pieces ∧ ∀ piece ∈ pieces, P piece := by
  rw [cutRange]
  split
  · exact ⟨_, rfl, forall_mem_singleton.mpr hwhole⟩
  next hin =>
  rw [ge_iff_le, not_or, UInt64.not_le, UInt64.not_le] at hin
  have hstop := lt_iff_toNat_lt.mp hin.1
  have hbefore : ∀ piece ∈ (if start > lo then [left (start - lo)] else []), P piece := by
    split
    · next hlt =>
      have hlength := UInt64.toNat_sub_of_le _ _ (UInt64.le_of_lt hlt)
      rw [gt_iff_lt, lt_iff_toNat_lt] at hlt
      exact forall_mem_singleton.mpr (hleft _ (by omega) (lt_iff_toNat_lt.mp hin.2))
    · exact forall_mem_nil _
  dsimp only
  split
  · next hlt =>
    have hdelta := UInt64.toNat_sub_of_le _ _ (UInt64.le_of_lt hin.1)
    have hlength := UInt64.toNat_sub_of_le _ _ (UInt64.le_of_lt hlt)
    rw [lt_iff_toNat_lt] at hlt
    obtain ⟨after, hafter, hP⟩ := hright (stop - lo) (hi - stop) (by omega) (by omega)
    exact ⟨_, bind_eq_ok.mpr ⟨after, hafter, rfl⟩,
      forall_mem_append.mpr ⟨hbefore, forall_mem_singleton.mpr hP⟩⟩
  · exact ⟨_, rfl, hbefore⟩

end Range

/-! ## Cutting segments -/

/-- A segment that is not empty and lies below the file length. -/
structure SegmentOk (fileLength : UInt64) (segment : OverlaySegment) : Prop where
  nonempty : 0 < segment.length.toNat
  bound : segment.fileOffset.toNat + segment.length.toNat ≤ fileLength.toNat

section Cut

variable {fileLength start stop : UInt64} {segment : OverlaySegment} {pieces : List OverlaySegment}

theorem SegmentOk.end_toNat (h : SegmentOk fileLength segment) :
    (segment.fileOffset + segment.length).toNat = segment.fileOffset.toNat + segment.length.toNat := by
  have := fileLength.toNat_lt
  have := h.bound
  rw [UInt64.toNat_add, Nat.mod_eq_of_lt (by omega)]

/-- The data of a part of a segment is read where the segment's own data was. -/
theorem map_advanceData (h : advanceData delta data = .ok data') (i : Nat) :
    (data'.map fun d => d.1.getD (d.2.toNat + i) 0) =
      data.map fun d => d.1.getD (d.2.toNat + (delta.toNat + i)) 0 := by
  cases data with
  | none =>
    cases h
    rfl
  | some d =>
    rw [advanceData] at h
    split at h
    · cases h
    next sourceOffset hsource =>
    cases h
    rw [checkedAdd_eq_some] at hsource
    rw [Option.map_some, Option.map_some, ← hsource, Nat.add_assoc]

theorem cutSegment_eq : cutSegment start stop segment =
    cutRange start stop segment.fileOffset (segment.fileOffset + segment.length) segment
      (fun length => ⟨segment.fileOffset, length, segment.data⟩)
      (fun delta length => (advanceData delta segment.data).map fun data => ⟨stop, length, data⟩) := by
  rw [cutSegment, cutRange]
  cases advanceData (stop - segment.fileOffset) segment.data with
  | error e => rfl
  | ok data => rfl

/-- **Cutting a segment** leaves what lies outside of the new range, as it was. -/
theorem cutOf_cutSegment (hok : SegmentOk fileLength segment) (hrange : start.toNat ≤ stop.toNat)
    (h : cutSegment start stop segment = .ok pieces) : CutOf segmentMarks start.toNat stop.toNat segment pieces := by
  rw [cutSegment_eq] at h
  refine cutOf_cutRange h hrange rfl hok.end_toNat.symm (fun _ => ⟨rfl, rfl, fun _ => rfl⟩) ?_
  intro delta length piece hdelta hpiece
  cases hdata : advanceData delta segment.data with
  | error e =>
    rw [hdata] at hpiece
    cases hpiece
  | ok data =>
    rw [hdata] at hpiece
    cases hpiece
    refine ⟨rfl, rfl, fun n hn => ?_⟩
    simp only [segmentMarks]
    rw [map_advanceData hdata]
    congr 2
    funext d
    congr 2
    omega

/-- A segment's data reaches to its end, and offsets into it are in range. -/
def Sized (segment : OverlaySegment) : Prop :=
  ∀ d ∈ segment.data, d.2.toNat + segment.length.toNat ≤ d.1.length ∧ d.1.length < 2 ^ 64

variable (start stop) in
/-- No offset into the data of a segment overflows. -/
theorem cutSegment_total (hok : SegmentOk fileLength segment) (hsized : Sized segment) :
    ∃ pieces, cutSegment start stop segment = .ok pieces ∧ ∀ piece ∈ pieces, Sized piece := by
  have hend := hok.end_toNat
  rw [cutSegment_eq]
  refine cutRange_total hsized ?_ ?_
  · intro length hlength hlt d hd
    have := hsized d hd
    dsimp only
    omega
  · intro delta length hdelta hlength
    cases hdata : segment.data with
    | none => exact ⟨_, rfl, nofun⟩
    | some d =>
      have := hsized d hdata
      have hsum : d.2.toNat + delta.toNat < 2 ^ 64 := by omega
      rw [advanceData, checkedAdd_of_lt hsum]
      refine ⟨_, rfl, fun d' hd' => ?_⟩
      cases hd'
      dsimp only
      rw [UInt64.toNat_add, Nat.mod_eq_of_lt hsum]
      omega

end Cut

/-! ## The segments -/

/-- Segments below the file length that follow each other. -/
structure Normal (fileLength : UInt64) (segments : List OverlaySegment) : Prop where
  ok : ∀ segment ∈ segments, SegmentOk fileLength segment
  follows : segments.Pairwise segmentMarks.Follows

section Steps

variable {fileLength : UInt64} {output next : List OverlaySegment} {dirty : DirtyExtent} {map : DirtyExtentMap}

/-- The segments that a range is cut out of. -/
theorem Normal.cut (hnormal : Normal fileLength output) {start stop} (hrange : start.toNat ≤ stop.toNat)
    (h : cutEach (cutSegment start stop) output = .ok next) :
    Normal fileLength next ∧ ∀ n m, segmentMarks.Shows next n m ↔
      segmentMarks.Shows output n m ∧ ¬ (start.toNat ≤ n ∧ n < stop.toNat) := by
  obtain ⟨pss, hcuts, rfl⟩ :=
    cutEach_eq_ok (fun segment hsegment _ => cutOf_cutSegment (hnormal.ok segment hsegment) hrange) h
  refine ⟨⟨?_, CutOf.follows_flatten hcuts hnormal.follows⟩, fun n m => CutOf.shows_flatten hcuts⟩
  intro piece hpiece
  obtain ⟨segment, hsegment, hlo, hhi, hlt⟩ := CutOf.exists_of_mem_flatten hcuts hpiece
  have hok := hnormal.ok segment hsegment
  have hnonempty := hlt (Nat.lt_add_of_pos_right hok.nonempty)
  simp only [segmentMarks] at hlo hhi hnonempty
  exact ⟨by omega, Nat.le_trans hhi hok.bound⟩

/-- The segment of an entry that reaches below the file length. -/
theorem Normal.insert (hnormal : Normal fileLength next) {segment} (hok : SegmentOk fileLength segment)
    (hout : ∀ n, segmentMarks.Covers segment n → segmentMarks.Bare next n) :
    Normal fileLength ((next ++ [segment]).insertionSort fun a b => a.fileOffset ≤ b.fileOffset) := by
  have hperm := perm_insertionSort (fun a b : OverlaySegment => a.fileOffset ≤ b.fileOffset) (next ++ [segment])
  have hok' : ∀ s ∈ next ++ [segment], SegmentOk fileLength s := by
    intro s hs
    rcases mem_append.mp hs with hs | hs
    · exact hnormal.ok s hs
    · rwa [mem_singleton.mp hs]
  refine ⟨fun s hs => hok' s (hperm.mem_iff.mp hs), Layers.follows_of_sorted ?_ ?_ ?_⟩
  · have htotal : Std.Total fun a b : OverlaySegment => a.fileOffset ≤ b.fileOffset :=
      ⟨fun a b => UInt64.le_total _ _⟩
    have htrans : IsTrans OverlaySegment fun a b => a.fileOffset ≤ b.fileOffset := ⟨fun a b c => UInt64.le_trans⟩
    exact (pairwise_insertionSort _ _).imp le_iff_toNat_le.mp
  · have hsymm : ∀ {a b : OverlaySegment}, segmentMarks.Follows a b ∨ segmentMarks.Follows b a →
        segmentMarks.Follows b a ∨ segmentMarks.Follows a b := Or.symm
    refine (hperm.pairwise_iff hsymm).mpr (pairwise_append.mpr ⟨hnormal.follows.imp .inl, ?_, ?_⟩)
    · exact pairwise_singleton _ _
    · -- Two segments that do not lie apart share the later of their first offsets.
      intro a ha b hb
      rw [mem_singleton.mp hb]
      by_contra hapart
      simp only [Layers.Follows, segmentMarks, not_or, Nat.not_le] at hapart
      have ha' := (hnormal.ok a ha).nonempty
      have hb' := hok.nonempty
      refine hout (max a.fileOffset.toNat segment.fileOffset.toNat) ?_ a ha ?_
      all_goals simp only [Layers.Covers, segmentMarks]; omega
  · intro s hs
    exact Nat.lt_add_of_pos_right (hok' s (hperm.mem_iff.mp hs)).nonempty

/-- **One entry of the log** lies over the segments so far. -/
theorem overlayStep_eq (hnormal : Normal fileLength output) (h : overlayStep fileLength output dirty = .ok next) :
    Normal fileLength next ∧ ∀ n, n < fileLength.toNat → ∀ bottom, segmentMarks.top next bottom n =
      if dirtyMarks.Covers dirty n then dirtyMarks.val dirty n else segmentMarks.top output bottom n := by
  rw [overlayStep] at h
  split at h
  · next hskip =>
    cases h
    refine ⟨hnormal, fun n hn bottom => ?_⟩
    rw [if_neg]
    rintro ⟨hlo, hhi⟩
    simp only [dirtyMarks, dirtyLayers] at hlo hhi
    rcases hskip with hskip | hskip
    · rw [ge_iff_le, UInt64.le_iff_toNat_le] at hskip
      omega
    · rw [hskip, UInt64.toNat_zero] at hhi
      omega
  next hkeep =>
  rw [not_or, ge_iff_le, UInt64.le_iff_toNat_le, Nat.not_le] at hkeep
  have hpositive : 0 < dirty.length.toNat := Nat.pos_of_ne_zero fun h0 => hkeep.2 (UInt64.toNat_inj.mp h0)
  split at h
  · cases h
  next dirtyEnd hend =>
  rw [UInt64.checkedAdd_eq_some] at hend
  obtain ⟨cut, hcut, h⟩ := bind_eq_ok.mp h
  cases h
  have hstop : (min dirtyEnd fileLength).toNat = min dirtyEnd.toNat fileLength.toNat := UInt64.toNat_min _ _
  have hlt : dirty.fileOffset.toNat < (min dirtyEnd fileLength).toNat := by omega
  have hlength : (min dirtyEnd fileLength - dirty.fileOffset).toNat =
      (min dirtyEnd fileLength).toNat - dirty.fileOffset.toNat :=
    UInt64.toNat_sub_of_le _ _ (UInt64.le_iff_toNat_le.mpr (Nat.le_of_lt hlt))
  obtain ⟨hcutNormal, hcutShows⟩ := hnormal.cut (Nat.le_of_lt hlt) hcut
  generalize hsegment : (⟨dirty.fileOffset, min dirtyEnd fileLength - dirty.fileOffset, dirty.data.map (·, 0)⟩ :
    OverlaySegment) = segment
  have hcovers : ∀ n, segmentMarks.Covers segment n ↔
      dirty.fileOffset.toNat ≤ n ∧ n < (min dirtyEnd fileLength).toNat := by
    intro n
    simp only [Layers.Covers, segmentMarks, ← hsegment, hlength]
    omega
  have hval : ∀ n, segmentMarks.val segment n = dirtyMarks.val dirty n := by
    intro n
    simp only [segmentMarks, dirtyMarks, ← hsegment, Option.map_map, Function.comp_def, UInt64.toNat_zero, Nat.zero_add]
  have hok : SegmentOk fileLength segment := by
    subst hsegment
    refine ⟨?_, ?_⟩
    all_goals simp only [hlength]; omega
  have hnext : Normal fileLength ((cut ++ [segment]).insertionSort fun a b => a.fileOffset ≤ b.fileOffset) :=
    hcutNormal.insert hok fun n hn a ha hcovers' =>
      ((hcutShows n _).mp ⟨a, ha, hcovers', rfl⟩).2 ((hcovers n).mp hn)
  have hshows :
    ∀ n m, segmentMarks.Shows ((cut ++ [segment]).insertionSort fun a b => a.fileOffset ≤ b.fileOffset) n m ↔
      (segmentMarks.Shows output n m ∧ ¬ segmentMarks.Covers segment n) ∨
        (segmentMarks.Covers segment n ∧ segmentMarks.val segment n = m) := by
    intro n m
    rw [Layers.shows_perm (perm_insertionSort _ _), Layers.shows_append, hcutShows, hcovers]
    simp [Layers.Shows, hcovers]
  refine ⟨hnext, fun n hn bottom => ?_⟩
  have hdirty : dirtyMarks.Covers dirty n ↔ segmentMarks.Covers segment n := by
    rw [hcovers]
    simp only [Layers.Covers, dirtyMarks, dirtyLayers]
    omega
  by_cases hin : dirtyMarks.Covers dirty n
  · rw [if_pos hin]
    exact Layers.top_eq_of_shows hnext.follows ((hshows n _).mpr (.inr ⟨hdirty.mp hin, hval n⟩))
  · rw [if_neg hin]
    refine Layers.top_congr hnext.follows hnormal.follows fun m => ?_
    have hout : ¬ segmentMarks.Covers segment n := fun h => hin (hdirty.mpr h)
    rw [hshows]
    simp [hout]

theorem foldlM_overlayStep (hnormal : Normal fileLength output)
    (h : map.foldlM (overlayStep fileLength) output = .ok next) :
    Normal fileLength next ∧ ∀ n, n < fileLength.toNat → ∀ bottom,
      segmentMarks.top next bottom n = dirtyMarks.top map (segmentMarks.top output bottom n) n := by
  induction map generalizing output with
  | nil =>
    cases h
    exact ⟨hnormal, fun _ _ _ => rfl⟩
  | cons dirty map ih =>
    rw [foldlM_cons] at h
    obtain ⟨mid, hmid, h⟩ := bind_eq_ok.mp h
    obtain ⟨hmidNormal, hmidTop⟩ := overlayStep_eq hnormal hmid
    obtain ⟨hnextNormal, hnextTop⟩ := ih hmidNormal h
    refine ⟨hnextNormal, fun n hn bottom => ?_⟩
    rw [hnextTop n hn, hmidTop n hn, Layers.top_cons]

/-- **The normalised log** shows below the file length what the log shows. -/
theorem normalized (h : normalizedOverlay map fileLength = .ok next) :
    Normal fileLength next ∧ ∀ n, n < fileLength.toNat → ∀ bottom,
      segmentMarks.top next bottom n = dirtyMarks.top map bottom n :=
  foldlM_overlayStep ⟨forall_mem_nil _, .nil⟩ h

end Steps

/-! ## The data of the segments -/

section Data

variable {fileLength : UInt64} {output next : List OverlaySegment} {dirty : DirtyExtent} {map : DirtyExtentMap}

theorem sized_overlayStep (hnormal : Normal fileLength output) (hsized : ∀ segment ∈ output, Sized segment)
    (h : overlayStep fileLength output dirty = .ok next) : ∀ segment ∈ next, Sized segment := by
  rw [overlayStep] at h
  split at h
  · cases h
    exact hsized
  next hkeep =>
  rw [not_or, ge_iff_le, le_iff_toNat_le, Nat.not_le] at hkeep
  split at h
  · cases h
  next dirtyEnd hend =>
  rw [checkedAdd_eq_some] at hend
  obtain ⟨cut, hcut, h⟩ := bind_eq_ok.mp h
  cases h
  intro segment hsegment
  rw [mem_insertionSort, mem_append, mem_singleton] at hsegment
  rcases hsegment with hsegment | rfl
  · obtain ⟨cut', hcut', hsizedCut⟩ := cutEach_total fun whole hwhole =>
      cutSegment_total dirty.fileOffset (min dirtyEnd fileLength) (hnormal.ok whole hwhole) (hsized whole hwhole)
    cases hcut.symm.trans hcut'
    exact hsizedCut segment hsegment
  · intro d hd
    have hstop : (min dirtyEnd fileLength).toNat = min dirtyEnd.toNat fileLength.toNat := toNat_min _ _
    obtain ⟨data, hdata, rfl⟩ := Option.mem_map.mp hd
    have := dirty.length.toNat_lt
    rw [dirty.sized data hdata, UInt64.toNat_zero, UInt64.toNat_sub_of_le _ _ (UInt64.le_iff_toNat_le.mpr (by omega))]
    omega

theorem sized_foldlM (hnormal : Normal fileLength output) (hsized : ∀ segment ∈ output, Sized segment)
    (h : map.foldlM (overlayStep fileLength) output = .ok next) : ∀ segment ∈ next, Sized segment := by
  induction map generalizing output with
  | nil =>
    cases h
    exact hsized
  | cons dirty map ih =>
    rw [foldlM_cons] at h
    obtain ⟨mid, hmid, h⟩ := bind_eq_ok.mp h
    exact ih (overlayStep_eq hnormal hmid).1 (sized_overlayStep hnormal hsized hmid) h

theorem sized_normalized (h : normalizedOverlay map fileLength = .ok next) : ∀ segment ∈ next, Sized segment :=
  sized_foldlM ⟨forall_mem_nil _, .nil⟩ (forall_mem_nil _) h

variable (fileLength output) in
theorem overlayStep_total (h : Normal fileLength output ∧ ∀ segment ∈ output, Sized segment) (hrange : dirty.InRange) :
    ∃ next, overlayStep fileLength output dirty = .ok next ∧ Normal fileLength next ∧
      ∀ segment ∈ next, Sized segment := by
  have htotal : ∃ next, overlayStep fileLength output dirty = .ok next := by
    rw [overlayStep]
    split
    · exact ⟨_, rfl⟩
    rw [hrange.checkedAdd]
    obtain ⟨cut, hcut, -⟩ := cutEach_total fun segment hsegment =>
      cutSegment_total dirty.fileOffset (min (dirty.fileOffset + dirty.length) fileLength) (h.1.ok segment hsegment)
        (h.2 segment hsegment)
    exact ⟨_, bind_eq_ok.mpr ⟨cut, hcut, rfl⟩⟩
  obtain ⟨next, hnext⟩ := htotal
  exact ⟨next, hnext, (overlayStep_eq h.1 hnext).1, sized_overlayStep h.1 h.2 hnext⟩

/-- **Normalising succeeds** when no entry of the log ends past the range of offsets. -/
theorem normalizedOverlay_total (hrange : ∀ dirty ∈ map, dirty.InRange)
    (fileLength : UInt64) : ∃ next, normalizedOverlay map fileLength = .ok next := by
  obtain ⟨next, hnext, -⟩ := foldlM_total
    (fun output h dirty hdirty => overlayStep_total fileLength output h (hrange dirty hdirty))
    ⟨⟨forall_mem_nil _, .nil⟩, forall_mem_nil _⟩
  exact ⟨next, hnext⟩

/-- **The last writer wins.** The segments are not empty, follow each other and refer to bytes that are there. They
    cover the bytes below the file length that some entry of the log touches, and give each of them what the last of
    these entries does, a hole if it is a resize. -/
theorem overlay_last_writer_wins {segments : List OverlaySegment}
    (h : normalizedOverlay map fileLength = .ok segments) :
    segments.Pairwise (fun a b => a.fileOffset.toNat + a.length.toNat ≤ b.fileOffset.toNat) ∧
    (∀ segment ∈ segments, 0 < segment.length.toNat ∧ Sized segment) ∧
    (∀ n, (∃ segment ∈ segments, segmentMarks.Covers segment n) ↔
      n < fileLength.toNat ∧ ∃ dirty ∈ map, dirtyMarks.Covers dirty n) ∧
    ∀ segment ∈ segments, ∀ n, segmentMarks.Covers segment n → ∀ before dirty after, map = before ++ dirty :: after →
      dirtyMarks.Covers dirty n → dirtyMarks.Bare after n → segmentMarks.val segment n = dirtyMarks.val dirty n := by
  obtain ⟨hnormal, htop⟩ := normalized h
  have hbelow : ∀ segment ∈ segments, ∀ n, segmentMarks.Covers segment n → n < fileLength.toNat :=
    fun segment hsegment n hn => Nat.lt_of_lt_of_le hn.2 (hnormal.ok segment hsegment).bound
  -- what shows through one list shows through the other
  have hbare : ∀ n, n < fileLength.toNat → (segmentMarks.Bare segments n ↔ dirtyMarks.Bare map n) := by
    intro n hn
    constructor
    · intro hsegments
      have hsame (mark : Option UInt8) := (htop n hn mark).symm.trans (Layers.top_of_bare hsegments)
      exact Layers.bare_of_top (Option.some_ne_none 0).symm (hsame none) (hsame (some 0))
    · intro hmap
      have hsame (mark : Option UInt8) := (htop n hn mark).trans (Layers.top_of_bare hmap)
      exact Layers.bare_of_top (Option.some_ne_none 0).symm (hsame none) (hsame (some 0))
  refine ⟨hnormal.follows, fun segment hsegment =>
    ⟨(hnormal.ok segment hsegment).nonempty, sized_normalized h segment hsegment⟩,
    fun n => ⟨?_, ?_⟩, ?_⟩
  · rintro ⟨segment, hsegment, hn⟩
    have hlt := hbelow segment hsegment n hn
    refine ⟨hlt, ?_⟩
    by_contra hnone
    exact (hbare n hlt).mpr (fun dirty hdirty hcovers => hnone ⟨dirty, hdirty, hcovers⟩) segment hsegment hn
  · rintro ⟨hlt, dirty, hdirty, hn⟩
    by_contra hnone
    exact (hbare n hlt).mp (fun segment hsegment hcovers => hnone ⟨segment, hsegment, hcovers⟩) dirty hdirty hn
  · rintro segment hsegment n hn before dirty after rfl hcovers hafter
    have hseen := htop n (hbelow segment hsegment n hn) none
    rwa [Layers.top_eq_of_shows hnormal.follows ⟨segment, hsegment, hn, rfl⟩, Layers.top_of_last hcovers hafter]
      at hseen

/-- Three bytes are written, the file shrinks to one byte and grows to two. -/
theorem overlay_last_writer_wins_shrunk :
    let log := DirtyExtentMap.resize (.resize (.writeAt [] 0 ⟨[1, 2, 3], by decide⟩ 1) 3 1 2) 1 2 3
    normalizedOverlay log 2 = .ok [⟨0, 1, some ([1, 2, 3], 0)⟩, ⟨1, 1, none⟩] ∧
      ∀ n, (∃ segment ∈ [⟨0, 1, some ([1, 2, 3], 0)⟩, ⟨1, 1, none⟩], segmentMarks.Covers segment n) ↔
        n < 2 ∧ ∃ dirty ∈ log, dirtyMarks.Covers dirty n := by
  intro log
  have h : normalizedOverlay log 2 = .ok [⟨0, 1, some ([1, 2, 3], 0)⟩, ⟨1, 1, none⟩] := by decide +kernel
  exact ⟨h, (overlay_last_writer_wins h).2.2.1⟩

end Data

end Afs.Node
