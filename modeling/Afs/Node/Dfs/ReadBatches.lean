import Afs.Node.Dfs.ReadEngine

/-!
# `Node.Dfs.ReadBatches` — read batches are all or nothing

A local read that reports its full count and a transfer that reports success have filled their ranges (`Faithful`);
any other attempt may leave what it likes in its own ranges. Every step of the engine then writes only to the ranges
of its operations (`Writes`), and each operation is either filled or left for a later step. The ranges of the staging
buffer lie one behind the other, so what is filled stays filled.
-/

namespace Afs.Node

open Overlay Regions Grouping List

variable {start outputLen : Nat} {ops : List ChunkReadOp} {original : ChunkReadOp} {staged : Bytes} {batch : ReadBatch}

/-! ## What a range holds -/

/-- The bytes of the chunk that an operation asks for. -/
def ChunkReadOp.content (chunk : ChunkBytes) (op : ChunkReadOp) (k : Nat) : UInt8 :=
  chunk op.chunkId (op.chunkOffset.toNat + k)

def Filled (chunk : ChunkBytes) (op : ChunkReadOp) (out : Bytes) : Prop := Holds op.region (op.content chunk) out

/-- The ranges of the operations do not overlap. -/
def NonOverlapping (ops : List ChunkReadOp) : Prop := ops.Pairwise fun op other => op.region.Apart other.region

theorem nonOverlapping_map {α : Type} {op} {items : List α} :
    NonOverlapping (items.map op) ↔ items.Pairwise fun item other => (op item).region.Apart (op other).region :=
  pairwise_map

/-- The range of the operation lies in a buffer of this length. -/
def ChunkReadOp.Fits (length : Nat) (op : ChunkReadOp) : Prop := op.region.start + op.region.length ≤ length

/-- A local read changes its own ranges at most, and fills those that it reports with their full count if they do not
    overlap. -/
structure ReadEnv.FaithfulLocally {ω : Type} (env : ReadEnv ω) (chunk : ChunkBytes) : Prop where
  ranges_frame : ∀ chunkId ranges out world,
    Regions.Writes (ranges.map VerifiedRangeCopy.region) out (env.readRanges chunkId ranges out world).1.2
  ranges_counts : ∀ chunkId ranges out world counts, (env.readRanges chunkId ranges out world).1.1 = .ok counts →
    counts.length = ranges.length
  ranges_full : ∀ chunkId ranges out world counts, (env.readRanges chunkId ranges out world).1.1 = .ok counts →
    (ranges.Pairwise fun range other => range.region.Apart other.region) → ∀ pair ∈ ranges.zip counts,
      pair.2 = pair.1.length.toNat →
        Holds pair.1.region (fun k => chunk chunkId (pair.1.chunkOffset.toNat + k))
          (env.readRanges chunkId ranges out world).1.2

/-- **What is assumed of the outside.** A transfer that succeeds has filled the ranges of its buffer, as a local read
    has. -/
structure ReadEnv.Faithful {ω : Type} (env : ReadEnv ω)
    (chunk : ChunkBytes) : Prop extends env.FaithfulLocally chunk where
  transfer_length : ∀ attempt length world, (env.transfer attempt length world).1.2.length = length
  transfer_ok : ∀ attempt length world, (env.transfer attempt length world).1.1 = .ok () →
    ∀ item ∈ attempt.operations, Filled chunk item.op (env.transfer attempt length world).1.2

variable {ω : Type} {env : ReadEnv ω} {chunk : ChunkBytes} {out out' : Bytes}

/-! ## Packing and copying -/

theorem totalLength_cons (op : ChunkReadOp) (ops : List ChunkReadOp) :
    totalLength (op :: ops) = op.length.toNat + totalLength ops := by
  simp [totalLength]

theorem length_packOps (start : Nat) (ops : List ChunkReadOp) : (packOps start ops).length = ops.length := by
  induction ops generalizing start with
  | nil => rfl
  | cons op rest ih => simp [packOps, ih]

/-- The packed operation reads the same bytes. -/
structure PackedAs (op packed : ChunkReadOp) : Prop where
  chunkId : packed.chunkId = op.chunkId
  chunkOffset : packed.chunkOffset = op.chunkOffset
  length : packed.length = op.length

theorem packOps_packed : ∀ pair ∈ ops.zip (packOps start ops), PackedAs pair.1 pair.2 := by
  induction ops generalizing start with
  | nil => exact nofun
  | cons op rest ih => exact forall_mem_cons.mpr ⟨⟨rfl, rfl, rfl⟩, ih⟩

/-- The packed ranges lie one behind the other. -/
theorem packOps_regions (hsize : start + totalLength ops < 2 ^ 64) :
    NonOverlapping (packOps start ops) ∧ ∀ packed ∈ packOps start ops,
      start ≤ packed.region.start ∧ packed.region.start + packed.region.length ≤ start + totalLength ops := by
  induction ops generalizing start with
  | nil => exact ⟨.nil, nofun⟩
  | cons op rest ih =>
    rw [totalLength_cons] at hsize ⊢
    have hstart : (UInt64.ofNat start).toNat = start := UInt64.toNat_ofNat_of_lt' (by simp only [UInt64.size]; omega)
    obtain ⟨hrest, hbounds⟩ := ih (show start + op.length.toNat + totalLength rest < 2 ^ 64 by omega)
    have hregion :
      (UInt64.ofNat start).toNat + op.length.toNat ≤ start + (op.length.toNat + totalLength rest) := by omega
    refine ⟨.cons ?_ hrest, forall_mem_cons.mpr ⟨⟨hstart.ge, hregion⟩, ?_⟩⟩
    · intro packed hpacked i hfirst hother
      have hupper : i < (UInt64.ofNat start).toNat + op.length.toNat := hfirst.2
      have := (hbounds packed hpacked).1
      have := hother.1
      omega
    · intro packed hpacked
      have := hbounds packed hpacked
      omega

theorem copyRange_of_length_zero (staged : Bytes) (packed : ChunkReadOp) (h : original.length = 0) :
    copyRange staged out original packed = out := by
  simp [copyRange, slice, h, patch]

theorem copyRange_filled {packed}
    (hheld : Holds ⟨packed.outputOffset.toNat, original.length.toNat⟩ (original.content chunk) staged)
    (hfits : original.length ≠ 0 → original.Fits out.length) :
    Regions.Writes [original.region] out (copyRange staged out original packed) ∧
      Filled chunk original (copyRange staged out original packed) := by
  by_cases hzero : original.length = 0
  · rw [copyRange_of_length_zero staged packed hzero]
    refine ⟨(Regions.Writes.refl out).mono (nil_subset _), ?_⟩
    intro k hk
    simp [ChunkReadOp.region, hzero] at hk
  · have hpos : 0 < original.length.toNat := by
      rw [Nat.pos_iff_ne_zero]
      exact fun h => hzero (UInt64.toNat_inj.mp h)
    have hlength := length_slice (hheld.bound hpos)
    refine ⟨writes_patch (hfits hzero) hlength, holds_patch (hfits hzero) hlength ?_⟩
    intro k hk
    exact (getElem?_slice (show k < (Region.mk packed.outputOffset.toNat original.length.toNat).length from hk)).trans
      (hheld k hk)

/-- Copying filled ranges to places that do not overlap fills these. -/
theorem foldl_copyRange (out : Bytes) {pairs : List (ChunkReadOp × ChunkReadOp)}
    (hapart : NonOverlapping (pairs.map Prod.fst)) (hfits : ∀ pair ∈ pairs, pair.1.length ≠ 0 → pair.1.Fits out.length)
    (hstaged : ∀ pair ∈ pairs, Holds ⟨pair.2.outputOffset.toNat, pair.1.length.toNat⟩ (pair.1.content chunk) staged) :
    Regions.Writes (pairs.map fun pair => pair.1.region) out
        (pairs.foldl (fun out pair => copyRange staged out pair.1 pair.2) out) ∧
      ∀ pair ∈ pairs, Filled chunk pair.1 (pairs.foldl (fun out pair => copyRange staged out pair.1 pair.2) out) := by
  have hcopy : ∀ pair ∈ pairs, ∀ mid : Bytes, mid.length = out.length →
      Regions.Writes [pair.1.region] mid (copyRange staged mid pair.1 pair.2) ∧
        Filled chunk pair.1 (copyRange staged mid pair.1 pair.2) := by
    intro pair hpair mid hmid
    exact copyRange_filled (hstaged pair hpair) (fun hne => hmid ▸ hfits pair hpair hne)
  exact ⟨foldl_writes fun pair hpair mid hmid => (hcopy pair hpair mid hmid).1,
    foldl_holds (nonOverlapping_map.mp hapart) hcopy⟩

/-- Ranges that were read packed are copied to their places. -/
theorem copyPacked (out : Bytes) (hapart : NonOverlapping ops) (hfits : ∀ op ∈ ops, op.length ≠ 0 → op.Fits out.length)
    (hfilled : ∀ packed ∈ packOps 0 ops, Filled chunk packed staged) :
    Regions.Writes (ops.map ChunkReadOp.region) out
        ((ops.zip (packOps 0 ops)).foldl (fun out pair => copyRange staged out pair.1 pair.2) out) ∧
      ∀ op ∈ ops, Filled chunk op
        ((ops.zip (packOps 0 ops)).foldl (fun out pair => copyRange staged out pair.1 pair.2) out) := by
  have hfst : (ops.zip (packOps 0 ops)).map Prod.fst = ops := map_fst_zip (length_packOps 0 ops).ge
  have hstaged : ∀ pair ∈ ops.zip (packOps 0 ops),
      Holds ⟨pair.2.outputOffset.toNat, pair.1.length.toNat⟩ (pair.1.content chunk) staged := by
    intro pair hpair k hk
    have hpacked := packOps_packed pair hpair
    have hbyte := hfilled pair.2 (of_mem_zip hpair).2 k (by rw [ChunkReadOp.region, hpacked.length]; exact hk)
    rwa [ChunkReadOp.content, hpacked.chunkId, hpacked.chunkOffset] at hbyte
  obtain ⟨hwrites, hall⟩ := foldl_copyRange out (by rwa [hfst])
    (fun pair hpair hne => hfits pair.1 (of_mem_zip hpair).1 hne) hstaged
  have hregions : (ops.zip (packOps 0 ops)).map (fun pair => pair.1.region) = ops.map ChunkReadOp.region := by
    rw [← hfst, map_map, hfst]
    rfl
  rw [hregions] at hwrites
  refine ⟨hwrites, ?_⟩
  intro op hop
  rw [← hfst] at hop
  obtain ⟨pair, hpair, rfl⟩ := mem_map.mp hop
  exact hall pair hpair

/-! ## Local reads -/

section Local

variable {s : LocalReads ω}

/-- The operations of a group are filled or left for the peers. -/
theorem readLocalGroup_reads (henv : env.FaithfulLocally chunk) {chunkId : ChunkId} {items}
    (hchunk : ∀ item ∈ items, item.1.chunkId = chunkId) (hapart : NonOverlapping (items.map Prod.fst)) :
    Regions.Writes (items.map fun item => item.1.region) s.out (readLocalGroup env chunkId items s).out ∧
      s.remote ⊆ (readLocalGroup env chunkId items s).remote ∧
      ∀ item ∈ items, item.2 ∈ (readLocalGroup env chunkId items s).remote ∨
        Filled chunk item.1 (readLocalGroup env chunkId items s).out := by
  have hregions : (items.map fun item => item.1.range).map VerifiedRangeCopy.region =
      items.map fun item => item.1.region := by
    rw [map_map]
    rfl
  unfold readLocalGroup
  split
  · exact ⟨(Regions.Writes.refl _).mono (nil_subset _), subset_append_left _ _,
      fun item hitem => .inl (mem_append_right _ (mem_map_of_mem hitem))⟩
  · next world _ =>
    have hframe := henv.ranges_frame chunkId (items.map fun item => item.1.range) s.out world
    have hcounts := henv.ranges_counts chunkId (items.map fun item => item.1.range) s.out world
    have hfull := henv.ranges_full chunkId (items.map fun item => item.1.range) s.out world
    rw [hregions] at hframe
    split
    · next heq =>
      rw [heq] at hframe
      exact ⟨hframe, subset_append_left _ _,
        fun item hitem => .inl (mem_append_right _ (mem_map_of_mem hitem))⟩
    · next counts out world' heq =>
      rw [heq] at hframe hcounts hfull
      refine ⟨hframe, subset_append_left _ _, ?_⟩
      intro item hitem
      have hlength : counts.length = items.length := by
        rw [hcounts counts rfl, length_map]
      obtain ⟨n, hn, rfl⟩ := getElem_of_mem hitem
      have hzip : (items[n], counts[n]) ∈ items.zip counts :=
        mem_iff_getElem.mpr ⟨n, by rw [length_zip]; omega, by simp⟩
      by_cases hcount : counts[n] = items[n].1.length.toNat
      · -- the count is full
        have hpair : (items[n].1.range, counts[n]) ∈ (items.map fun item => item.1.range).zip counts :=
          mem_iff_getElem.mpr ⟨n, by rw [length_zip, length_map]; omega, by simp⟩
        have hranges : (items.map fun item => item.1.range).Pairwise fun range other =>
          range.region.Apart other.region :=
          pairwise_map.mpr (nonOverlapping_map.mp hapart)
        have hheld := hfull counts rfl hranges _ hpair hcount
        rw [← hchunk _ hitem] at hheld
        exact .inr hheld
      · refine .inl (mem_append_right _ (mem_map.mpr ⟨_, mem_filter.mpr ⟨hzip, ?_⟩, rfl⟩))
        exact decide_eq_true hcount

theorem readLocalGroups_reads (henv : env.FaithfulLocally chunk) {groups}
    (hchunk : ∀ items ∈ groups, Headed (fun item other => item.1.chunkId == other.1.chunkId) items)
    (hapart : NonOverlapping (groups.flatten.map Prod.fst)) :
    Regions.Writes (groups.flatten.map fun item => item.1.region) s.out (readLocalGroups env groups s).out ∧
      s.remote ⊆ (readLocalGroups env groups s).remote ∧
      ∀ item ∈ groups.flatten, item.2 ∈ (readLocalGroups env groups s).remote ∨
        Filled chunk item.1 (readLocalGroups env groups s).out := by
  induction groups generalizing s with
  | nil => exact ⟨.refl _, fun _ h => h, nofun⟩
  | cons items rest ih =>
    obtain ⟨hfirst, hrest⟩ := forall_mem_cons.mp hchunk
    obtain ⟨first, others, rfl, hothers⟩ := hfirst
    rw [flatten_cons, map_append] at hapart
    obtain ⟨hapartFirst, hapartRest, hcross⟩ := pairwise_append.mp hapart
    have hsame : ∀ item ∈ first :: others, item.1.chunkId = first.1.chunkId := by
      refine forall_mem_cons.mpr ⟨rfl, ?_⟩
      intro item hitem
      exact (eq_of_beq (hothers item hitem)).symm
    obtain ⟨hwrites, hremote, hreads⟩ := readLocalGroup_reads (s := s) henv hsame hapartFirst
    obtain ⟨hwrites', hremote', hreads'⟩ :=
      ih (s := readLocalGroup env first.1.chunkId (first :: others) s) hrest hapartRest
    rw [readLocalGroups, flatten_cons, map_append]
    refine ⟨hwrites.trans hwrites', fun _ h => hremote' (hremote h), ?_⟩
    intro item hitem
    rcases mem_append.mp hitem with hitem | hitem
    · refine (hreads item hitem).imp (fun h => hremote' h) ?_
      intro hfilled
      apply hfilled.keep hwrites'
      intro region hregion
      obtain ⟨other, hother, rfl⟩ := mem_map.mp hregion
      exact hcross item.1 (mem_map_of_mem hitem) other.1 (mem_map_of_mem hother)
    · exact hreads' item hitem

end Local

/-! ## Reads from peers -/

section Remote

variable {s : RemoteReads ω} {fileVersionId : FileVersionId} {layoutRootId : LayoutRootId}

/-- What a step does with the operations it has tried: it writes to their ranges, and fills each or leaves it. -/
structure Tries (chunk : ChunkBytes) (items : List TriedRead) (s s' : RemoteReads ω) : Prop where
  writes : Regions.Writes (items.map fun item => item.op.region) s.out s'.out
  kept : s.pending ⊆ s'.pending
  done : ∀ item ∈ items, Filled chunk item.op s'.out ∨ item.failed ∈ s'.pending

theorem Tries.nil (s : RemoteReads ω) : Tries chunk [] s s := ⟨.refl _, fun _ h => h, nofun⟩

/-- Steps with operations that do not overlap, one after the other. -/
theorem Tries.append {items more : List TriedRead} {s s' s'' : RemoteReads ω} (h : Tries chunk items s s')
    (h' : Tries chunk more s' s'') (hapart : ∀ item ∈ items, ∀ other ∈ more, item.op.region.Apart other.op.region) :
    Tries chunk (items ++ more) s s'' where
  writes := by
    rw [map_append]
    exact h.writes.trans h'.writes
  kept := fun _ hp => h'.kept (h.kept hp)
  done := by
    intro item hitem
    rcases mem_append.mp hitem with hitem | hitem
    · refine (h.done item hitem).imp ?_ fun hp => h'.kept hp
      intro hfilled
      apply hfilled.keep h'.writes
      intro region hregion
      obtain ⟨other, hother, rfl⟩ := mem_map.mp hregion
      exact hapart item hitem other hother
    · exact h'.done item hitem

theorem retrySingle_tries (henv : env.Faithful chunk) (alone : Bool) {tried} (hfits : tried.op.Fits s.out.length) :
    Tries chunk [tried] s (retrySingle env fileVersionId layoutRootId alone s tried) := by
  unfold retrySingle
  split
  · exact ⟨(Regions.Writes.refl _).mono (nil_subset _), subset_append_left _ _,
      forall_mem_singleton.mpr (.inr (mem_append_right _ (mem_singleton_self _)))⟩
  · have hlength :=
      henv.transfer_length ⟨fileVersionId, layoutRootId, [⟨{ tried.op with outputOffset := 0 }, tried.source⟩]⟩
      tried.op.length.toNat s.world
    have hok := henv.transfer_ok ⟨fileVersionId, layoutRootId, [⟨{ tried.op with outputOffset := 0 }, tried.source⟩]⟩
      tried.op.length.toNat s.world
    split
    · next scratch world heq =>
      rw [heq] at hlength hok
      have hheld := hok rfl _ (mem_singleton_self _)
      refine ⟨writes_patch hfits hlength, fun _ h => h, forall_mem_singleton.mpr (.inl ?_)⟩
      apply holds_patch hfits hlength
      intro k hk
      have hbyte := hheld k hk
      rwa [show (ChunkReadOp.region { tried.op with outputOffset := 0 }).start + k = k from Nat.zero_add k] at hbyte
    · exact ⟨(Regions.Writes.refl _).mono (nil_subset _), subset_append_left _ _,
        forall_mem_singleton.mpr (.inr (mem_append_right _ (mem_singleton_self _)))⟩

theorem foldl_retrySingle_tries (henv : env.Faithful chunk) (alone : Bool) {items : List TriedRead}
    (hapart : NonOverlapping (items.map TriedRead.op)) (hfits : ∀ item ∈ items, item.op.Fits s.out.length) :
    Tries chunk items s (items.foldl (retrySingle env fileVersionId layoutRootId alone) s) := by
  induction items generalizing s with
  | nil => exact .nil s
  | cons tried rest ih =>
    obtain ⟨hfirst, hrest⟩ := pairwise_cons.mp hapart
    have hstep : Tries chunk [tried] s (retrySingle env fileVersionId layoutRootId alone s tried) :=
      retrySingle_tries henv alone (hfits tried mem_cons_self)
    have hlater := ih (s := retrySingle env fileVersionId layoutRootId alone s tried) hrest
      (fun item hitem => by rw [hstep.writes.length]; exact hfits item (mem_cons_of_mem _ hitem))
    apply hstep.append hlater
    intro item hitem other hother
    rw [mem_singleton.mp hitem]
    exact hfirst other.op (mem_map_of_mem hother)

/-- A group that was read together is filled; one that was not is tried one by one. -/
theorem readPeerGroup_tries (henv : env.Faithful chunk) {items}
    (hapart : NonOverlapping (items.map TriedRead.op)) (hfits : ∀ item ∈ items, item.op.Fits s.out.length) :
    Tries chunk items s (readPeerGroup env fileVersionId layoutRootId s items) := by
  unfold readPeerGroup
  simp only
  have hok := henv.transfer_ok ⟨fileVersionId, layoutRootId,
    zipWith ResolvedReadOp.mk (packOps 0 (items.map TriedRead.op)) (items.map TriedRead.source)⟩
    (totalLength (items.map TriedRead.op)) s.world
  split
  · next scratch world heq =>
    rw [heq] at hok
    have hfilled : ∀ packed ∈ packOps 0 (items.map TriedRead.op), Filled chunk packed scratch := by
      intro packed hpacked
      obtain ⟨n, hn, rfl⟩ := getElem_of_mem hpacked
      have hlength := length_packOps 0 (items.map TriedRead.op)
      rw [length_map] at hlength
      have hsource : n < (items.map TriedRead.source).length := by rw [length_map]; omega
      refine hok rfl ⟨(packOps 0 (items.map TriedRead.op))[n], (items.map TriedRead.source)[n]⟩
        (mem_iff_getElem.mpr ⟨n, ?_, ?_⟩)
      · rw [length_zipWith, length_map]
        omega
      · simp
    obtain ⟨hwrites, hall⟩ := copyPacked s.out hapart
      (fun op hop _ => by
        obtain ⟨item, hitem, rfl⟩ := mem_map.mp hop
        exact hfits item hitem) hfilled
    rw [map_map] at hwrites
    exact ⟨hwrites, fun _ h => h, fun item hitem => .inl (hall item.op (mem_map_of_mem hitem))⟩
  · next e _ world heq =>
    have htries : Tries chunk items { s with world := world, lastError := some e }
        (items.foldl (retrySingle env fileVersionId layoutRootId (items.length ≤ 1)) _) :=
      foldl_retrySingle_tries henv (items.length ≤ 1) hapart hfits
    exact ⟨htries.writes, htries.kept, htries.done⟩

theorem foldl_readPeerGroup_tries (henv : env.Faithful chunk) {groups : List (List TriedRead)}
    (hapart : NonOverlapping (groups.flatten.map TriedRead.op))
    (hfits : ∀ item ∈ groups.flatten, item.op.Fits s.out.length) :
    Tries chunk groups.flatten s (groups.foldl (readPeerGroup env fileVersionId layoutRootId) s) := by
  induction groups generalizing s with
  | nil => exact .nil s
  | cons items rest ih =>
    rw [flatten_cons, map_append] at hapart
    obtain ⟨hitems, hrest, hcross⟩ := pairwise_append.mp hapart
    have hstep : Tries chunk items s (readPeerGroup env fileVersionId layoutRootId s items) :=
      readPeerGroup_tries henv hitems (fun item hitem => hfits item (mem_append_left _ hitem))
    have hlater := ih (s := readPeerGroup env fileVersionId layoutRootId s items) hrest
      (fun item hitem => by rw [hstep.writes.length]; exact hfits item (mem_append_right _ hitem))
    apply hstep.append hlater
    intro item hitem other hother
    exact hcross item.op (mem_map_of_mem hitem) other.op (mem_map_of_mem hother)

/-- What makes operations readable into the buffer together. -/
structure Readable (length : Nat) (ops : List ChunkReadOp) : Prop where
  apart : NonOverlapping ops
  fits : ∀ op ∈ ops, op.Fits length

theorem Readable.subperm {length more} (h : Readable length ops) (hmore : more.Subperm ops) :
    Readable length more := by
  obtain ⟨l, hperm, hsub⟩ := hmore
  refine ⟨(hperm.pairwise_iff fun h => h.symm).mp (h.apart.sublist hsub), ?_⟩
  exact fun op hop => h.fits op (hsub.subset (hperm.mem_iff.mpr hop))

/-- The operations of a round, in the order in which they were grouped. -/
theorem readRound_tries (henv : env.Faithful chunk) {tried : List TriedRead}
    (hreadable : Readable out.length (tried.map TriedRead.op)) (fileVersionId : FileVersionId)
    (layoutRootId : LayoutRootId) (world : ω) (lastError : Option Error) :
    Tries chunk tried ⟨out, world, lastError, []⟩
        (readRound env fileVersionId layoutRootId tried out world lastError) ∧
      (readRound env fileVersionId layoutRootId tried out world lastError).pending.Subperm
        (tried.map TriedRead.failed) := by
  have hperm := flatten_group (fun item other : TriedRead => samePeerContext item.source other.source) tried
  have hops := hperm.map TriedRead.op
  have htries : Tries chunk _ ⟨out, world, lastError, []⟩
      (readRound env fileVersionId layoutRootId tried out world lastError) :=
    foldl_readPeerGroup_tries henv
      ((hops.pairwise_iff fun h => h.symm).mpr hreadable.apart)
      (fun item hitem => hreadable.fits item.op (mem_map_of_mem (hperm.mem_iff.mp hitem)))
  refine ⟨⟨?_, htries.kept, ?_⟩, ?_⟩
  · exact htries.writes.mono (hperm.map _).subset
  · exact fun item hitem => htries.done item (hperm.mem_iff.mpr hitem)
  · obtain ⟨more, hmore, hpending⟩ := foldl_readPeerGroup_pending env fileVersionId layoutRootId
      ⟨out, world, lastError, []⟩ (group (fun item other : TriedRead => samePeerContext item.source other.source) tried)
    rw [readRound, hpending, nil_append]
    exact hmore.subperm.trans (hperm.map TriedRead.failed).subperm

/-- **The loop over the sources** fills every operation, or fails. -/
theorem readRounds_filled (henv : env.Faithful chunk) {pending} {world world' : ω}
    {lastError} (hreadable : Readable out.length (pending.map PendingRead.op))
    (h : readRounds env fileVersionId layoutRootId pending out world lastError = ((.ok (), out'), world')) :
    Regions.Writes (pending.map fun p => p.op.region) out out' ∧ ∀ p ∈ pending, Filled chunk p.op out' := by
  induction hleft : sourcesLeft pending using Nat.strong_induction_on generalizing pending out world lastError with
  | _ left ih =>
    rw [readRounds] at h
    split at h
    · next hempty =>
      subst hempty
      cases h
      exact ⟨.refl _, nofun⟩
    · next hne =>
      split at h
      · cases h
      · next tried htried =>
        have hops := (sourcesLeft_eq htried).2
        obtain ⟨htries, hpending⟩ := readRound_tries henv (hops ▸ hreadable) fileVersionId layoutRootId world lastError
        have hlength := htries.writes.length
        have hsub : ((readRound env fileVersionId layoutRootId tried out world lastError).pending.map
            PendingRead.op).Subperm (pending.map PendingRead.op) := by
          rw [← hops]
          obtain ⟨l, hperm, hl⟩ := hpending
          have hmap := hl.map PendingRead.op
          rw [map_map] at hmap
          exact ⟨l.map PendingRead.op, hperm.map _, hmap⟩
        obtain ⟨hwrites, hfilled⟩ :=
          ih _ (hleft ▸ sourcesLeft_readRound env fileVersionId layoutRootId hne htried out world
          lastError) (hlength ▸ hreadable.subperm hsub) h rfl
        refine ⟨?_, ?_⟩
        · apply (htries.writes.trans hwrites).mono
          have hregions := congrArg (map ChunkReadOp.region) hops
          rw [map_map, map_map] at hregions
          intro region hregion
          rcases mem_append.mp hregion with hregion | hregion
          · exact hregions ▸ hregion
          · obtain ⟨q, hq, rfl⟩ := mem_map.mp hregion
            obtain ⟨p, hp, heq⟩ := mem_map.mp (hsub.subset (mem_map_of_mem hq))
            exact mem_map.mpr ⟨p, hp, congrArg ChunkReadOp.region heq⟩
        · intro p hp
          obtain ⟨item, hitem, heq⟩ : ∃ item ∈ tried, item.op = p.op := by
            rw [← mem_map, hops]
            exact mem_map_of_mem hp
          rw [← heq]
          by_cases hfailed : item.failed ∈ (readRound env fileVersionId layoutRootId tried out world lastError).pending
          · exact hfilled _ hfailed
          · -- what was filled in this round lies apart from what is still read
            apply ((htries.done item hitem).resolve_right hfailed).keep hwrites
            intro region hregion
            obtain ⟨q, hq, rfl⟩ := mem_map.mp hregion
            obtain ⟨other, hother, rfl⟩ := mem_map.mp (hpending.subset hq)
            have hdistinct : item ≠ other := fun h => hfailed (h ▸ hq)
            have hapart : NonOverlapping (tried.map TriedRead.op) := hops ▸ hreadable.apart
            have : Std.Symm fun item other : TriedRead => item.op.region.Apart other.op.region := ⟨fun _ _ h => h.symm⟩
            exact (nonOverlapping_map.mp hapart).forall hitem hother hdistinct

theorem readRemoteBatch_filled (henv : env.Faithful chunk) {sources} {world world' : ω}
    (hreadable : Readable out.length batch.ops)
    (h : readRemoteBatch env batch sources out world = ((.ok (), out'), world')) :
    Regions.Writes (batch.ops.map ChunkReadOp.region) out out' ∧ ∀ op ∈ batch.ops, Filled chunk op out' := by
  unfold readRemoteBatch at h
  split at h
  · cases h
  · have hmap :
      (batch.ops.map fun op => PendingRead.mk op (candidatesFor env sources op)).map PendingRead.op = batch.ops := by
      rw [map_map]
      exact map_id _
    obtain ⟨hwrites, hfilled⟩ := readRounds_filled henv (hmap.symm ▸ hreadable) h
    rw [map_map] at hwrites
    exact ⟨hwrites, fun op hop => hfilled _ (mem_map_of_mem hop)⟩

end Remote

/-! ## The batch -/

theorem map_fst_zipIdx (ops : List ChunkReadOp) : ops.zipIdx.map Prod.fst = ops := zipIdx_map_fst 0 ops

theorem filter_zipIdx_sublist (keep : ChunkReadOp × Nat → Bool) (ops : List ChunkReadOp) :
    ((ops.zipIdx.filter keep).map Prod.fst).Sublist ops := by
  have hmap := (filter_sublist (p := keep) (l := ops.zipIdx)).map Prod.fst
  rwa [map_fst_zipIdx] at hmap

theorem filled_of_length_zero {op} (h : op.length = 0) : Filled chunk op out := by
  intro k hk
  simp [ChunkReadOp.region, h] at hk

/-- The operations at different places of the batch do not overlap. -/
theorem NonOverlapping.items (h : NonOverlapping ops) {item other} (hitem : item ∈ ops.zipIdx)
    (hother : other ∈ ops.zipIdx) (hne : item ≠ other) : item.1.region.Apart other.1.region := by
  have hmap : NonOverlapping (ops.zipIdx.map Prod.fst) := by rwa [map_fst_zipIdx]
  have : Std.Symm fun item other : ChunkReadOp × Nat => item.1.region.Apart other.1.region := ⟨fun _ _ h => h.symm⟩
  exact (nonOverlapping_map.mp hmap).forall hitem hother hne

/-- After the local reads every operation is filled or left for the peers. -/
theorem readLocal_filled (henv : env.FaithfulLocally chunk) (hapart : NonOverlapping ops) (out : Bytes) (world : ω) :
    (readLocalGroups env (chunkGroups ops) ⟨out, world, []⟩).out.length = out.length ∧ ∀ item ∈ ops.zipIdx,
      item.2 ∈ (readLocalGroups env (chunkGroups ops) ⟨out, world, []⟩).remote ∨
        Filled chunk item.1 (readLocalGroups env (chunkGroups ops) ⟨out, world, []⟩).out := by
  have hperm := flatten_group (fun item other : ChunkReadOp × Nat => item.1.chunkId == other.1.chunkId) (readItems ops)
  have hgroups : NonOverlapping ((chunkGroups ops).flatten.map Prod.fst) :=
    ((hperm.map Prod.fst).pairwise_iff fun h => h.symm).mpr (hapart.sublist (filter_zipIdx_sublist _ ops))
  obtain ⟨hwrites, -, hreads⟩ :=
    readLocalGroups_reads (s := ⟨out, world, []⟩) henv (headed_group _ (readItems ops)) hgroups
  refine ⟨hwrites.length, ?_⟩
  intro item hitem
  by_cases hzero : item.1.length = 0
  · exact .inr (filled_of_length_zero hzero)
  · exact hreads item (hperm.mem_iff.mpr (mem_filter.mpr ⟨hitem, decide_eq_true hzero⟩))

/-- The staging buffer holds all the operations when the batch succeeds. -/
theorem readBatchInto_filled (henv : env.Faithful chunk) {world world' : ω} (hreadable : Readable out.length batch.ops)
    (h : readBatchInto env batch out world = ((.ok (), out'), world')) : ∀ op ∈ batch.ops, Filled chunk op out' := by
  obtain ⟨hlength, hlocal⟩ := readLocal_filled henv.toFaithfulLocally hreadable.apart out world
  unfold readBatchInto at h
  simp only at h
  generalize readLocalGroups env (chunkGroups batch.ops) ⟨out, world, []⟩ = s at h hlocal hlength
  have hremote : ∀ item ∈ batch.ops.zipIdx, item.2 ∈ s.remote →
      item.1 ∈ (batch.ops.zipIdx.filter fun item => item.2 ∈ s.remote).map Prod.fst := by
    intro item hitem hmem
    exact mem_map_of_mem (mem_filter.mpr ⟨hitem, decide_eq_true hmem⟩)
  intro op hop
  rw [← map_fst_zipIdx batch.ops] at hop
  obtain ⟨item, hitem, rfl⟩ := mem_map.mp hop
  split at h
  · next hnone =>
    cases h
    refine (hlocal item hitem).resolve_left fun hmem => ?_
    have hmem := hremote item hitem hmem
    rw [hnone] at hmem
    cases hmem
  · split at h
    · cases h
    · have hremoteReadable :=
        hreadable.subperm (filter_zipIdx_sublist (fun item => item.2 ∈ s.remote) batch.ops).subperm
      rw [← hlength] at hremoteReadable
      obtain ⟨hremoteWrites, hremoteFilled⟩ := readRemoteBatch_filled henv hremoteReadable h
      by_cases hmem : item.2 ∈ s.remote
      · exact hremoteFilled item.1 (hremote item hitem hmem)
      · apply ((hlocal item hitem).resolve_left hmem).keep hremoteWrites
        intro region hregion
        obtain ⟨op, hop', rfl⟩ := mem_map.mp hregion
        obtain ⟨other, hother, rfl⟩ := mem_map.mp hop'
        obtain ⟨hother, hflag⟩ := mem_filter.mp hother
        exact hreadable.apart.items hitem hother fun heq => hmem (heq ▸ of_decide_eq_true hflag)

/-- What a batch that passes its validation is known to have. -/
theorem totalFor_ok {total total'} (h : ReadBatch.totalFor outputLen ops total = .ok total') :
    total'.toNat = total.toNat + totalLength ops ∧ ∀ op ∈ ops, op.length ≠ 0 → op.Fits outputLen := by
  induction ops generalizing total with
  | nil =>
    cases h
    exact ⟨rfl, nofun⟩
  | cons op rest ih =>
    rw [totalLength_cons]
    unfold ReadBatch.totalFor at h
    split at h
    · next hzero =>
      obtain ⟨htotal, hfits⟩ := ih h
      refine ⟨by rw [htotal, hzero]; simp, forall_mem_cons.mpr ⟨fun hne => absurd hzero hne, hfits⟩⟩
    · split at h
      · cases h
      · next sum hsum =>
        split at h
        · cases h
        · next stop hstop =>
          split at h
          · cases h
          · next hroom =>
            rw [UInt64.checkedAdd_eq_some] at hsum hstop
            obtain ⟨htotal, hfits⟩ := ih h
            refine ⟨by omega, forall_mem_cons.mpr ⟨fun _ => ?_, hfits⟩⟩
            show op.outputOffset.toNat + op.length.toNat ≤ outputLen
            omega

theorem validateForOutput_ok {config} (h : batch.validateForOutput outputLen config = .ok ()) :
    totalLength batch.ops < 2 ^ 64 ∧ ∀ op ∈ batch.ops, op.length ≠ 0 → op.Fits outputLen := by
  obtain ⟨-, -, h⟩ := bind_eq_ok.mp h
  split at h
  · cases h
  · split at h
    · cases h
    · obtain ⟨total, htotal, -⟩ := bind_eq_ok.mp h
      obtain ⟨heq, hfits⟩ := totalFor_ok htotal
      have := total.toNat_lt
      exact ⟨by rw [UInt64.toNat_zero] at heq; omega, hfits⟩

theorem publish_eq (staged : Bytes) (pairs : List (ChunkReadOp × ChunkReadOp)) (out : Bytes) :
    publish staged pairs out = pairs.foldl (fun out pair => copyRange staged out pair.1 pair.2) out := by
  refine congrArg (fun f => pairs.foldl f out) (funext₂ fun out pair => ?_)
  split
  · next hzero => exact (copyRange_of_length_zero staged pair.2 hzero).symm
  · rfl

/-- The staging buffer of a valid batch. -/
theorem readable_packOps (hsize : totalLength ops < 2 ^ 64) : Readable (totalLength ops) (packOps 0 ops) := by
  obtain ⟨hapart, hbounds⟩ := packOps_regions (show 0 + totalLength ops < 2 ^ 64 by omega)
  refine ⟨hapart, ?_⟩
  intro packed hpacked
  have hupper := (hbounds packed hpacked).2
  rwa [Nat.zero_add] at hupper

/-- **Read batches are all or nothing.** When `read_batch` succeeds, every range of the caller's buffer has the bytes of
    its chunk, and the rest of the buffer is as it was. When it fails, all of the buffer is as it was. -/
theorem read_batch_all_or_nothing (henv : env.Faithful chunk) (config : DfsReadConfig) {batch : ReadBatch}
    (hapart : NonOverlapping batch.ops) (out : Bytes) (world : ω) :
    ((readBatch env config batch out world).1.1 = .ok () →
      (∀ op ∈ batch.ops, ∀ k < op.length.toNat, (readBatch env config batch out world).1.2[op.outputOffset.toNat + k]? =
        some (chunk op.chunkId (op.chunkOffset.toNat + k))) ∧
      (readBatch env config batch out world).1.2.length = out.length ∧
      ∀ i, (∀ op ∈ batch.ops, ¬op.region.Contains i) → (readBatch env config batch out world).1.2[i]? = out[i]?) ∧
    ∀ e, (readBatch env config batch out world).1.1 = .error e → (readBatch env config batch out world).1.2 = out := by
  unfold readBatch
  split
  · exact ⟨nofun, fun _ _ => rfl⟩
  · next hvalid =>
    obtain ⟨hsize, hfits⟩ := validateForOutput_ok hvalid
    simp only
    split
    · exact ⟨nofun, fun _ _ => rfl⟩
    · next staged world' hread =>
      refine ⟨fun _ => ?_, nofun⟩
      have hreadable : Readable (replicate (totalLength batch.ops) (0 : UInt8)).length (packOps 0 batch.ops) := by
        rw [length_replicate]
        exact readable_packOps hsize
      have hstaged := readBatchInto_filled henv hreadable hread
      obtain ⟨hwrites, hfilled⟩ := copyPacked out hapart hfits hstaged
      rw [publish_eq]
      refine ⟨hfilled, hwrites.length, ?_⟩
      intro i hi
      apply hwrites.frame i
      intro region hregion
      obtain ⟨op, hop, rfl⟩ := mem_map.mp hregion
      exact hi op hop

/-! The local store has nothing; a peer has two chunks and sends one range at a time, so that a group is tried again. -/

section Sample

def sampleBytes : ChunkBytes := fun id k => UInt8.ofNat ((if id = ⟨"d"⟩ then 40 else 10) + k)

def peerSource : SourceCandidate :=
  ⟨.durableReplica, .ready, .node "peer" 1 "device" 1 1, some "http://peer", sampleGrant⟩

/-- One range at a time, from its peer. -/
def peerOnly : ReadEnv Unit where
  localNodeId := "here"
  localReader := fun _ world => (.error ⟨.ioNotFound, "no chunk"⟩, world)
  readRanges := fun _ _ out world => ((.error ⟨.ioNotFound, "no chunk"⟩, out), world)
  localReadFailed := fun _ _ world => world
  sourcesFor := fun batch world => (.ok (batch.ops.map fun op => ⟨op.chunkId, [peerSource]⟩), world)
  transfer := fun attempt length world =>
    match attempt.operations with
    | [item] =>
      if item.op.outputOffset = 0 ∧ item.op.length.toNat = length then
        ((.ok (), (List.range length).map fun k => sampleBytes item.op.chunkId (item.op.chunkOffset.toNat + k)), world)
      else ((.error ⟨.nodeTransferInvalid, "one range"⟩, List.replicate length 0), world)
    | _ => ((.error ⟨.nodeTransferInvalid, "one range"⟩, List.replicate length 0), world)

theorem peerOnly_faithful : peerOnly.Faithful sampleBytes where
  ranges_frame := fun _ _ out _ => (Regions.Writes.refl out).mono (nil_subset _)
  ranges_counts := fun _ _ _ _ _ h => nomatch h
  ranges_full := fun _ _ _ _ _ h => nomatch h
  transfer_length := by
    intro attempt length world
    unfold peerOnly
    simp only
    split
    · split
      · simp
      · simp
    · simp
  transfer_ok := by
    intro attempt length world
    unfold peerOnly
    simp only
    split
    · next item hitem =>
      split
      · next hwhole =>
        rw [hitem]
        refine fun _ => forall_mem_singleton.mpr ?_
        intro k hk
        have hk : k < item.op.length.toNat := hk
        have hstart : item.op.region.start = 0 := by simp [ChunkReadOp.region, hwhole.1]
        rw [hstart, Nat.zero_add, getElem?_map, getElem?_range (by omega)]
        rfl
      · exact nofun
    · exact nofun

def sampleBatch : ReadBatch := ⟨some ⟨"v"⟩, ⟨"l"⟩, [⟨⟨"c"⟩, 5, 2, 1⟩, ⟨⟨"d"⟩, 3, 1, 0⟩]⟩

theorem read_batch_all_or_nothing_of_peer :
    (readBatch peerOnly .default sampleBatch [7, 7, 7, 7] ()).1.1 = .ok () ∧
      (readBatch peerOnly .default sampleBatch [7, 7, 7, 7] ()).1.2[0]? = some 43 ∧
      (readBatch peerOnly .default sampleBatch [7, 7, 7, 7] ()).1.2[2]? = some 16 ∧
      (readBatch peerOnly .default sampleBatch [7, 7, 7, 7] ()).1.2[3]? = some 7 := by
  have hok : (readBatch peerOnly .default sampleBatch [7, 7, 7, 7] ()).1.1 = .ok () := by decide +kernel
  have hapart : NonOverlapping sampleBatch.ops := by
    refine pairwise_pair.mpr fun i => ?_
    simp only [ChunkReadOp.region, Region.Contains, UInt64.reduceToNat]
    omega
  obtain ⟨hread, -⟩ := read_batch_all_or_nothing peerOnly_faithful .default hapart [7, 7, 7, 7] ()
  obtain ⟨hfilled, -, hframe⟩ := hread hok
  refine ⟨hok, ?_, ?_, hframe 3 ?_⟩
  · exact hfilled ⟨⟨"d"⟩, 3, 1, 0⟩ (.tail _ (.head _)) 0 (by decide)
  · exact hfilled ⟨⟨"c"⟩, 5, 2, 1⟩ (.head _) 1 (by decide)
  · simp [sampleBatch, ChunkReadOp.region, Region.Contains]

end Sample

end Afs.Node
