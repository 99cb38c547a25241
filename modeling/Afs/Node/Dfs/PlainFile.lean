import Afs.Node.Dfs.Fragmented

/-!
# `Node.Dfs.PlainFile` — an open file is a plain file

The bytes of an open file move from the active log to that of a commit and on to the committed layout. Its readers see
a plain file that only writes and resizes change: `FileRun` takes both together through every run, `Shows` relates them,
and `reads_as_plain_file` reads the open file through the engine over the local store.
-/

namespace Afs.Node

open Overlay List UInt64

/-- A file as its users know it, with nothing past its end. -/
structure PlainFile where
  length : Nat
  byte : Nat → UInt8
  ended : ∀ n, length ≤ n → byte n = 0

namespace PlainFile

def write (file : PlainFile) (offset : Nat) (data : Bytes) : PlainFile where
  length := max file.length (offset + data.length)
  byte := fun n => if offset ≤ n ∧ n < offset + data.length then data.getD (n - offset) 0 else file.byte n
  ended := fun n hn => by rw [if_neg (by omega), file.ended n (by omega)]

def resize (file : PlainFile) (length : Nat) : PlainFile where
  length := length
  byte := fun n => if n < length then file.byte n else 0
  ended := fun _ hn => if_neg (by omega)

def read (file : PlainFile) (offset outLen : Nat) : Bytes :=
  (range (min (file.length - offset) outLen)).map fun i => file.byte (offset + i)

end PlainFile

/-- The write state of an inode as far as its bytes depend on it; `cut` is the length the commit in flight took. -/
structure InodeWriteState where
  log : WriteLog
  baseLayout : LayoutRoot
  cut : UInt64

def InodeWriteState.visible (s : InodeWriteState) (committed : Option FileVersionId) : VisibleState :=
  ⟨committed, s.log.logicalLength, s.baseLayout, s.log.frozen, s.log.active⟩

variable (blake3 : Bytes → Digest) (chunk : ChunkBytes)

/-- The runs of an open file, beside the plain file that takes the same writes and resizes. A round of the write loop
    takes some bytes and ends in range. A commit that succeeds was planned from what was frozen, its chunks are stored,
    and the metadata service accepted its layout. -/
inductive FileRun : InodeWriteState → PlainFile → Prop
  | opened (hlayout : Acceptable layout) (hlength : layout.fileLength.toNat = plain.length)
      (hbyte : ∀ n, layoutByte chunk layout n = plain.byte n) : FileRun ⟨.new layout.fileLength, layout, 0⟩ plain
  | write {offset : UInt64} {data : Payload} (run : FileRun ⟨log, layout, cut⟩ plain) (hdata : ¬ data.bytes.isEmpty)
      (hrange : offset.toNat + data.bytes.length < 2 ^ 64) :
      FileRun ⟨log.write offset data, layout, cut⟩ (plain.write offset.toNat data.bytes)
  | resize (run : FileRun ⟨log, layout, cut⟩ plain) (length : UInt64) :
      FileRun ⟨log.resizeDirtyInode length, layout, cut⟩ (plain.resize length.toNat)
  | freeze (run : FileRun ⟨log, layout, cut⟩ plain) (hlog : log.step .freeze = some log') :
      FileRun ⟨log', layout, log.logicalLength⟩ plain
  | committed (hplan : plan blake3 frozen operationId layoutId = .ok planned)
      (run : FileRun ⟨log, frozen.baseLayout, frozen.logicalLength⟩ plain) (hlog : log.step .committed = some log')
      (hfrozen : log.frozen = some frozen.dirtyExtents)
      (hstored : Stored chunk planned.stagedChunks) (haccepted : Acceptable planned.layoutRoot) :
      FileRun ⟨log', planned.layoutRoot, frozen.logicalLength⟩ plain
  | aborted (run : FileRun ⟨log, layout, cut⟩ plain) (hlog : log.step .aborted = some log') :
      FileRun ⟨log', layout, cut⟩ plain

/-- The open file shows the plain one, no extent of its logs overflows, and what was frozen does not reach past the
    length that it had then. -/
structure Shows (s : InodeWriteState) (plain : PlainFile) : Prop where
  base : Acceptable s.baseLayout
  ordered : s.log.Ordered
  ranged : ∀ extent ∈ s.log.frozen.getD [] ++ s.log.active, extent.InRange
  length : s.log.logicalLength.toNat = plain.length
  byte : ∀ n, dirtyLayers.top (s.log.frozen.getD [] ++ s.log.active) (layoutByte chunk s.baseLayout n) n = plain.byte n
  ended : ∀ older, s.log.frozen = some older → ∀ n, s.cut.toNat ≤ n →
    dirtyLayers.top older (layoutByte chunk s.baseLayout n) n = 0

variable {blake3 chunk}

/-- A new entry of the log lies over the file. -/
theorem Shows.snoc (h : Shows chunk ⟨log, layout, cut⟩ plain) (extent : DirtyExtent) (n : Nat) :
    dirtyLayers.top (log.frozen.getD [] ++ (log.active ++ [extent])) (layoutByte chunk layout n) n =
      if dirtyLayers.Covers extent n then dirtyLayers.val extent n else plain.byte n := by
  rw [← append_assoc, Layers.top_append, h.byte n]
  rfl

theorem Shows.ranged_snoc (h : Shows chunk ⟨log, layout, cut⟩ plain) {extent} (hrange : extent.InRange) :
    ∀ other ∈ log.frozen.getD [] ++ (log.active ++ [extent]), other.InRange := by
  rw [← append_assoc]
  exact forall_mem_append.mpr ⟨h.ranged, by rwa [forall_mem_singleton]⟩

theorem Shows.write {offset data} (h : Shows chunk ⟨log, layout, cut⟩ plain)
    (hdata : ¬ data.bytes.isEmpty) (hrange : offset.toNat + data.bytes.length < 2 ^ 64) :
    Shows chunk ⟨log.write offset data, layout, cut⟩ (plain.write offset.toNat data.bytes) := by
  have hordered := h.ordered.step (rfl : log.step (.write offset data) = some _)
  have hlength : (ofNat data.bytes.length).toNat = data.bytes.length := toNat_ofNat_of_lt' (by simp [size]; omega)
  rw [← hlength] at hrange
  rw [WriteLog.write, if_neg hdata, checkedAdd_of_lt hrange] at hordered ⊢
  dsimp only at hordered ⊢
  rw [DirtyExtentMap.writeAt, if_neg hdata] at hordered ⊢
  refine ⟨h.base, hordered, h.ranged_snoc hrange, ?_, fun n => (h.snoc _ n).trans ?_, h.ended⟩
  · rw [toNat_max, UInt64.toNat_add, Nat.mod_eq_of_lt hrange, hlength, h.length]
    rfl
  · simp only [dirtyLayers, Layers.Covers, hlength, PlainFile.write]

/-- A resize records the hole between the two lengths. -/
theorem resize_hole (map : DirtyExtentMap) {old new} (h : old ≠ new) (seq : UInt64) :
    ∃ extent : DirtyExtent, map.resize old new seq = map ++ [extent] ∧ extent.data = none ∧
      extent.fileOffset.toNat = min old.toNat new.toNat ∧
      extent.fileOffset.toNat + extent.length.toNat = max old.toNat new.toNat := by
  rw [DirtyExtentMap.resize]
  by_cases hlt : new < old
  · simp only [hlt, if_true]
    have hsub := UInt64.toNat_sub_of_le _ _ (UInt64.le_of_lt hlt)
    rw [UInt64.lt_iff_toNat_lt] at hlt
    exact ⟨_, rfl, rfl, by dsimp only; omega, by dsimp only; omega⟩
  · have hgt := UInt64.lt_of_le_of_ne (UInt64.not_lt.mp hlt) h
    simp only [hlt, hgt, if_true, if_false]
    have hsub := UInt64.toNat_sub_of_le _ _ (UInt64.le_of_lt hgt)
    rw [UInt64.lt_iff_toNat_lt] at hgt
    exact ⟨_, rfl, rfl, by dsimp only; omega, by dsimp only; omega⟩

theorem Shows.resize (h : Shows chunk ⟨log, layout, cut⟩ plain) (length : UInt64) :
    Shows chunk ⟨log.resizeDirtyInode length, layout, cut⟩ (plain.resize length.toNat) := by
  have hordered := h.ordered.step (rfl : log.step (.resize length) = some _)
  have hlength : log.logicalLength.toNat = plain.length := h.length
  have hended := plain.ended
  rw [WriteLog.resizeDirtyInode] at hordered ⊢
  by_cases heq : log.logicalLength = length
  · rw [if_pos heq] at hordered ⊢
    refine ⟨h.base, hordered, h.ranged, congrArg toNat heq, fun n => (h.byte n).trans ?_, h.ended⟩
    simp only [PlainFile.resize]
    grind
  · obtain ⟨hole, hactive, hdata, hlo, hhi⟩ := resize_hole log.active heq (log.nextWriteSeq.saturatingAdd 1)
    rw [if_neg heq, hactive] at hordered ⊢
    have := log.logicalLength.toNat_lt
    have := length.toNat_lt
    have hrange : hole.InRange := by
      rw [DirtyExtent.InRange]
      omega
    refine ⟨h.base, hordered, h.ranged_snoc hrange, rfl, fun n => (h.snoc hole n).trans ?_, h.ended⟩
    simp only [dirtyLayers, Layers.Covers, hdata, hlo, PlainFile.resize]
    grind

theorem FileRun.shows (run : FileRun blake3 chunk s plain) : Shows chunk s plain := by
  induction run with
  | opened hlayout hlength hbyte =>
    exact ⟨hlayout, ⟨.nil, forall_mem_nil _⟩, forall_mem_nil _, hlength, hbyte, by rintro _ ⟨⟩⟩
  | write _ hdata hrange ih => exact ih.write hdata hrange
  | resize _ length ih => exact ih.resize length
  | freeze _ hlog ih =>
    have hordered := ih.ordered.step hlog
    rw [WriteLog.step, Option.ite_none_left_eq_some, Option.not_isSome_iff_eq_none] at hlog
    obtain ⟨hnone, ⟨⟩⟩ := hlog
    obtain ⟨hbase, -, hranged, hlength, hbyte, -⟩ := ih
    rw [hnone, Option.getD_none, nil_append] at hbyte hranged
    refine ⟨hbase, hordered, ?_, hlength, ?_, ?_⟩
    · rwa [Option.getD_some, append_nil]
    · rwa [Option.getD_some, append_nil]
    rintro _ ⟨⟩ n hn
    rw [hbyte, PlainFile.ended _ n (hlength ▸ hn)]
  | committed hplan _ hlog hfrozen hstored haccepted ih =>
    have hordered := ih.ordered.step hlog
    obtain ⟨_, -, rfl⟩ := Option.map_eq_some_iff.mp hlog
    obtain ⟨hbase, -, hranged, hlength, hbyte, hended⟩ := ih
    have hfollows : List.Pairwise (extentLayers chunk).Follows _ := hbase.ordered.ordered
    refine ⟨haccepted, hordered, (forall_mem_append.mp hranged).2, hlength, fun n => ?_, by rintro _ ⟨⟩⟩
    rw [← hbyte, hfrozen, Option.getD_some, Option.getD_none, nil_append, Layers.top_append]
    congr 1
    -- Below the length that was frozen the plan refers to the bytes; past it there are none.
    rcases Nat.lt_or_ge n _ with hn | hn
    · exact layoutByte_plan hfollows hplan hstored hn
    · rw [hended _ hfrozen n hn]
      apply Layers.top_of_bare
      intro extent hextent hcovers
      have hwithin := (shows_plan hfollows hplan).1 extent hextent
      exact hn.not_gt (Nat.lt_of_lt_of_le hcovers.2 hwithin)
  | aborted _ hlog ih =>
    have hordered := ih.ordered.step hlog
    obtain ⟨older, hfrozen, rfl⟩ := Option.map_eq_some_iff.mp hlog
    have hrestored := ih.ordered.restoreBefore_eq hfrozen
    obtain ⟨hbase, -, hranged, hlength, hbyte, -⟩ := ih
    rw [hfrozen, Option.getD_some, ← hrestored] at hbyte hranged
    exact ⟨hbase, hordered, hranged, hlength, hbyte, by rintro _ ⟨⟩⟩

/-- **An open file is read as a plain file.** In every state of every run a read of at most 8 MiB through the engine
    over the local store succeeds and returns the bytes of the plain file, when the chunks of the committed layout are
    intact in the store and the read meets at most 128 of its extents. -/
theorem reads_as_plain_file {catalog : LocalCatalog} {files : AList fun _ : ChunkId => Bytes} {ω : Type}
    (run : FileRun blake3 (storeBytes blake3 catalog files) s plain) (rest : ReadEnv ω) (world : ω)
    (version : Option FileVersionId) (hintact : IntactLayout blake3 catalog files s.baseLayout) {offset outLen : UInt64}
    (hlen : outLen ≤ maxDfsReadBytes) (hfew : fragments (s.visible version) offset outLen ≤ maxDfsReadOps) :
    readVisible (storeEngine (storeEnv blake3 catalog files rest) world) (s.visible version) offset outLen =
      .ok (plain.read offset.toNat outLen.toNat) := by
  have h := run.shows
  have hbase : Acceptable (s.visible version).layout := h.base
  obtain ⟨bytes, hread, hlength, hbytes⟩ := readVisible_of_few rest world hbase hintact hlen hfew h.ranged
  rw [hread, Except.ok.injEq, PlainFile.read]
  apply List.ext_getElem
  · rw [hlength, length_map, length_range, ← h.length]
    rfl
  · intro i hi _
    rw [getElem_map, getElem_range, ← Option.some_inj, ← getElem?_eq_getElem, hbytes i hi, ← h.byte, Layers.top_append]
    rfl

/-- What a commit takes of a new file with a byte written past its end. -/
def sparseCommit : FrozenCommit :=
  { truncatedAndAppended with
    logicalLength := 2
    baseLayout := ⟨⟨"empty"⟩, 0, []⟩
    dirtyExtents := DirtyExtentMap.writeAt [] 1 ⟨[7], by decide⟩ 1 }

/-- A byte is written past the end of a new file, a commit takes it, and one is written before it. -/
theorem reads_as_plain_file_sparse : ∃ s : InodeWriteState, s.baseLayout.inlineExtents = [⟨1, 1, byteChunk.id, 0⟩] ∧
    readVisible (storeEngine (storeEnv zeroDigest byteCatalog byteFiles peerOnly) ()) (s.visible none) 0 9 =
      .ok [5, 7] := by
  have hempty : Acceptable ⟨⟨"empty"⟩, 0, []⟩ := ⟨rfl, [], none, rfl⟩
  have opened : FileRun zeroDigest (storeBytes zeroDigest byteCatalog byteFiles) _ ⟨0, fun _ => 0, fun _ _ => rfl⟩ :=
    .opened hempty rfl fun _ => rfl
  have written := @FileRun.write _ _ _ _ _ _ 1 ⟨[7], by decide⟩ opened (by decide) (by decide)
  have hplan : plan zeroDigest sparseCommit ⟨"op"⟩ ⟨"next"⟩ =
      .ok ⟨⟨⟨"next"⟩, 2, [⟨1, 1, byteChunk.id, 0⟩]⟩, [StagedChunk.new zeroDigest ⟨"op"⟩ [7]]⟩ := by decide +kernel
  have hstored : Stored (storeBytes zeroDigest byteCatalog byteFiles) [StagedChunk.new zeroDigest ⟨"op"⟩ [7]] := by
    intro staged hstaged i b hb
    rw [mem_singleton.mp hstaged] at hb ⊢
    change storeBytes _ _ _ byteChunk.id i = b
    rw [storeBytes, intactCopy_byte.openVerified]
    exact (getD_eq_getElem?_getD ..).trans (congrArg (Option.getD · 0) hb)
  have haccepted : Acceptable ⟨⟨"next"⟩, 2, [⟨1, 1, byteChunk.id, 0⟩]⟩ := ⟨rfl, [byteReceipt], none, by decide⟩
  have committed := FileRun.committed hplan (written.freeze rfl) rfl rfl hstored haccepted
  have rewritten := @FileRun.write _ _ _ _ _ _ 0 ⟨[5], by decide⟩ committed (by decide) (by decide)
  refine ⟨_, rfl, reads_as_plain_file rewritten peerOnly () none ?_ (by decide) (by decide)⟩
  rw [IntactLayout, forall_mem_singleton]
  exact ⟨byteChunk, [7], intactCopy_byte, Nat.le_refl 1⟩

end Afs.Node
