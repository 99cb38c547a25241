import Afs.Meta.Store.LocalFile

/-!
# `Meta.Store.Wal` — what the files of the backend represent

The log is a list of encoded frames and possibly a part of one more that was not written to its end. `Represents`
relates the contents of the two files to the snapshot they stand for: frames that the snapshot file already contains
may still be in the log, the others follow each other from the version of the snapshot file on. Files with complete
frames are read as their snapshot, with a torn frame behind them or without one (`Complete.read`), and any beginning of
such a log is again one of the same form (`prefix_encodeAll`).
-/

namespace Afs.LocalFile

open Bytes List

variable {pre rest : List UInt8} {version : UInt64} {frame : Frame} {base : Option Stored}

/-! ## Decoding -/

theorem drop_append_append {α : Type} {a b c : List α} {n : Nat} (h : b.length = n) :
    (a ++ (b ++ c)).drop (a.length + n) = c := by
  subst h
  rw [← append_assoc, ← length_append, drop_left]

theorem decodeFrame_short (h : rest.length < 28) (tailPolicy : TailPolicy) :
    decodeFrame (pre ++ rest) pre.length tailPolicy = .error (cutOff "incomplete frame header" tailPolicy) := by
  have hshort : (pre ++ rest).length - pre.length < frameHeaderLen := by
    rw [length_append, frameHeaderLen]
    omega
  rw [decodeFrame, if_pos hshort]

/-- The fields of a frame with a complete header. -/
theorem decodeFrame_fields {magic version len sum : List UInt8} (hmagic : magic.length = 4)
    (hversion : version.length = 8) (hlen : len.length = 8) (hsum : sum.length = 8) (tailPolicy : TailPolicy) :
    decodeFrame (pre ++ (magic ++ version ++ len ++ sum ++ rest)) pre.length tailPolicy =
      if magic ≠ frameMagic then .error (.corrupt "frame magic mismatch")
      else if 2 ^ 64 ≤ pre.length + 28 + (fromLeBytes len).toNat then
        .error (.corrupt "frame payload length overflows offset")
      else if rest.length < (fromLeBytes len).toNat then .error (cutOff "incomplete frame payload" tailPolicy)
      else if checksum (fromLeBytes version) (fromLeBytes len)
          (rest.take (fromLeBytes len).toNat) ≠ fromLeBytes sum then
        .error (.corrupt s!"frame checksum mismatch at offset {pre.length}")
      else .ok (⟨fromLeBytes version, rest.take (fromLeBytes len).toNat⟩,
        pre.length + 28 + (fromLeBytes len).toNat) := by
  have hheader : (magic ++ version ++ len ++ sum).length = 28 := by simp [hmagic, hversion, hlen, hsum]
  have hlong : ¬(pre ++ (magic ++ version ++ len ++ sum ++ rest)).length - pre.length < frameHeaderLen := by
    rw [length_append, length_append, hheader, frameHeaderLen]
    omega
  have htake : ((pre ++ (magic ++ version ++ len ++ sum ++ rest)).drop pre.length).take frameHeaderLen =
      magic ++ version ++ len ++ sum := by
    rw [drop_left, frameHeaderLen, ← hheader, take_left]
  have hdrop : (pre ++ (magic ++ version ++ len ++ sum ++ rest)).drop (pre.length + frameHeaderLen) = rest :=
    drop_append_append hheader
  have hm : (magic ++ version ++ len ++ sum).take 4 = magic := by
    rw [append_assoc, append_assoc, ← hmagic, take_left]
  have hv : ((magic ++ version ++ len ++ sum).drop 4).take 8 = version := by
    rw [append_assoc, append_assoc, ← hmagic, drop_left, ← hversion, take_left]
  have hl : ((magic ++ version ++ len ++ sum).drop 12).take 8 = len := by
    rw [append_assoc, show 12 = (magic ++ version).length by simp [hmagic, hversion], drop_left, ← hlen,
      take_left]
  have hs : ((magic ++ version ++ len ++ sum).drop 20).take 8 = sum := by
    rw [show 20 = (magic ++ version ++ len).length by simp [hmagic, hversion, hlen], drop_left, ← hsum,
      take_length]
  have hend : ∀ n, (pre ++ (magic ++ version ++ len ++ sum ++ rest)).length < pre.length + 28 + n ↔
    rest.length < n := by
    intro n
    rw [length_append, length_append, hheader]
    omega
  rw [decodeFrame, if_neg hlong]
  simp only [htake, hdrop, hm, hv, hl, hs]
  simp only [frameHeaderLen, hend]

/-! ## Encoded frames -/

@[simp] theorem length_encodeFrame (frame : Frame) : (encodeFrame frame).length = 28 + frame.payload.length := by
  simp [encodeFrame, frameMagic]
  omega

theorem toNat_payloadLen (frame : Frame) (h : (encodeFrame frame).length < 2 ^ 64) :
    (UInt64.ofNat frame.payload.length).toNat = frame.payload.length := by
  rw [length_encodeFrame] at h
  rw [UInt64.toNat_ofNat', Nat.mod_eq_of_lt (by omega)]

/-- An encoded frame is decoded. -/
theorem decodeFrame_encodeFrame (pre more : List UInt8) (frame : Frame)
    (hsize : pre.length + (encodeFrame frame).length < 2 ^ 64) (tailPolicy : TailPolicy) :
    decodeFrame (pre ++ (encodeFrame frame ++ more)) pre.length tailPolicy =
      .ok (frame, pre.length + (encodeFrame frame).length) := by
  have hlen := toNat_payloadLen frame (by omega)
  rw [length_encodeFrame] at hsize ⊢
  rw [encodeFrame, append_assoc _ frame.payload more,
    decodeFrame_fields rfl (length_toLeBytes _) (length_toLeBytes _) (length_toLeBytes _)]
  simp only [fromLeBytes_toLeBytes, hlen, take_left, ne_eq, not_true_eq_false, if_false]
  rw [if_neg (by omega), if_neg (by simp), Nat.add_assoc]

/-- A part of an encoded frame is taken for a commit that was interrupted. -/
theorem decodeFrame_torn {tail} (htail : tail <+: encodeFrame frame) (hne : tail ≠ encodeFrame frame)
    (hsize : pre.length + (encodeFrame frame).length < 2 ^ 64) :
    decodeFrame (pre ++ tail) pre.length .truncate = .error .incomplete := by
  by_cases hshort : tail.length < 28
  · exact decodeFrame_short hshort .truncate
  · -- the header is complete and tells how much of the payload is missing
    have hlen := toNat_payloadLen frame (by omega)
    obtain ⟨header, hheader, hsum⟩ : ∃ header : List UInt8, encodeFrame frame = header ++ frame.payload ∧
        header = frameMagic ++ toLeBytes frame.version ++ toLeBytes (UInt64.ofNat frame.payload.length) ++
          toLeBytes (checksum frame.version (UInt64.ofNat frame.payload.length) frame.payload) := ⟨_, rfl, rfl⟩
    have hheaderLen : header.length = 28 := by simp [hsum, frameMagic]
    obtain ⟨part, rfl⟩ : header <+: tail :=
      prefix_of_prefix_length_le ⟨frame.payload, hheader.symm⟩ htail (by omega)
    obtain ⟨missing, hmissing⟩ := htail
    rw [hheader, append_assoc, append_cancel_left_eq] at hmissing
    have hpart : part.length < frame.payload.length := by
      have hnonempty : missing.length ≠ 0 := by
        intro h0
        rw [length_eq_zero_iff.mp h0, append_nil] at hmissing
        rw [hheader, hmissing] at hne
        exact hne rfl
      rw [← hmissing, length_append]
      omega
    rw [length_encodeFrame] at hsize
    rw [hsum, decodeFrame_fields rfl (length_toLeBytes _) (length_toLeBytes _) (length_toLeBytes _)]
    simp only [fromLeBytes_toLeBytes, hlen, ne_eq, not_true_eq_false, if_false]
    rw [if_neg (by omega), if_pos hpart]
    rfl

/-! ## Replaying encoded frames -/

def encodeAll (frames : List Frame) : List UInt8 := frames.flatMap encodeFrame

@[simp] theorem encodeAll_nil : encodeAll [] = [] := rfl

@[simp] theorem encodeAll_cons (frame : Frame) (rest : List Frame) :
    encodeAll (frame :: rest) = encodeFrame frame ++ encodeAll rest := rfl

@[simp] theorem encodeAll_append (frames more : List Frame) :
    encodeAll (frames ++ more) = encodeAll frames ++ encodeAll more := flatMap_append

/-- The replay of complete frames. -/
def replayFrames : UInt64 → ReplayResult → List Frame → Result (UInt64 × ReplayResult)
  | currentVersion, replay, [] => .ok (currentVersion, replay)
  | currentVersion, replay, frame :: rest =>
    match replayFrame frame (encodeFrame frame).length currentVersion replay with
    | .error e => .error e
    | .ok (currentVersion, replay) => replayFrames currentVersion replay rest

/-- The end of a log that was not written to its end, after `offset` bytes. -/
def Torn (offset : Nat) (tail : List UInt8) : Prop :=
  tail = [] ∨ ∃ frame, tail <+: encodeFrame frame ∧ tail ≠ encodeFrame frame ∧
    offset + (encodeFrame frame).length < 2 ^ 64

/-- What the replay makes of the end of the log. -/
def atTail (offset : Nat) (tail : List UInt8) (replay : ReplayResult) : ReplayResult :=
  if tail = [] then replay else { replay with truncateAt := some offset }

/-- The loop replays the frames in front of whatever follows them. -/
theorem replayLoop_append (pre : List UInt8) (frames : List Frame) (more : List UInt8) (fuel : Nat)
    (currentVersion : UInt64) (replay : ReplayResult) (hsize : pre.length + (encodeAll frames).length < 2 ^ 64) :
    replayLoop (pre ++ (encodeAll frames ++ more)) (frames.length + fuel) pre.length currentVersion replay =
      match replayFrames currentVersion replay frames with
      | .error e => .error e
      | .ok (currentVersion, replay) =>
        replayLoop (pre ++ (encodeAll frames ++ more)) fuel (pre.length + (encodeAll frames).length) currentVersion
          replay := by
  induction frames generalizing pre currentVersion replay with
  | nil => simp [replayFrames]
  | cons frame rest ih =>
    rw [encodeAll_cons, append_assoc, length_append] at *
    have hframe := length_encodeFrame frame
    have hnext : pre.length + (encodeFrame frame).length = (pre ++ encodeFrame frame).length := by
      rw [length_append]
    rw [length_cons, Nat.add_right_comm, replayLoop, if_pos (by simp only [length_append]; omega),
      decodeFrame_encodeFrame _ _ _ (by omega), replayFrames]
    simp only [Nat.add_sub_cancel_left]
    cases hreplay : replayFrame frame (encodeFrame frame).length currentVersion replay with
    | error e => rfl
    | ok next =>
      obtain ⟨nextVersion, nextReplay⟩ := next
      simp only
      rw [hnext, ← append_assoc pre, ih _ _ _ (by rw [← hnext]; omega), ← hnext, Nat.add_assoc]

theorem length_le_encodeAll (frames : List Frame) : frames.length ≤ (encodeAll frames).length := by
  induction frames with
  | nil => exact Nat.le_refl _
  | cons frame rest ih =>
    rw [encodeAll_cons, length_append, length_cons, length_encodeFrame]
    omega

/-- The loop replays the frames and cuts off the torn end. -/
theorem replayWal_encodeAll (frames : List Frame) {tail} (base : Option Stored)
    (hsize : (encodeAll frames).length < 2 ^ 64) (htail : Torn (encodeAll frames).length tail) :
    replayWal (encodeAll frames ++ tail) (versionOf base) base =
      match replayFrames (versionOf base) ⟨base, 0, 0, 0, 0, none⟩ frames with
      | .error e => .error e
      | .ok (_, replay) => .ok (atTail (encodeAll frames).length tail replay) := by
  have hlength := length_le_encodeAll frames
  obtain ⟨fuel, hfuel⟩ := Nat.exists_eq_add_of_le (show frames.length ≤ (encodeAll frames ++ tail).length by
    rw [length_append]
    omega)
  have happend := replayLoop_append [] frames tail fuel (versionOf base) ⟨base, 0, 0, 0, 0, none⟩ (by simpa using hsize)
  simp only [nil_append, length_nil, Nat.zero_add] at happend
  rw [replayWal, hfuel, happend]
  cases replayFrames (versionOf base) ⟨base, 0, 0, 0, 0, none⟩ frames with
  | error e => rfl
  | ok next =>
    obtain ⟨version, replay⟩ := next
    simp only [atTail]
    split
    · next hempty => cases fuel <;> simp [replayLoop, hempty]
    · next hempty =>
      obtain ⟨frame, hpart, hne, htorn⟩ := htail.resolve_left hempty
      have hpos := length_pos_iff.mpr hempty
      rw [length_append] at hfuel
      obtain ⟨fuel, rfl⟩ := Nat.exists_eq_add_of_lt (show 0 < fuel by omega)
      rw [Nat.zero_add, replayLoop, if_pos (by rw [length_append]; omega), decodeFrame_torn hpart hne htorn]

/-! ## What the files represent -/

/-- The frames have the versions that follow the given one. -/
def Follows (version : UInt64) : List Frame → Prop
  | [] => True
  | frame :: rest => version.toNat + 1 = frame.version.toNat ∧ Follows frame.version rest

/-- The snapshot after the frames. -/
def latest (base : Option Stored) : List Frame → Option Stored
  | [] => base
  | frame :: rest => latest (some (frame.version, frame.payload)) rest

theorem latest_append (base : Option Stored) (frames : List Frame) (frame : Frame) :
    latest base (frames ++ [frame]) = some (frame.version, frame.payload) := by
  induction frames generalizing base with
  | nil => rfl
  | cons first rest ih => exact ih _

theorem Follows.append {frames} (h : Follows (versionOf base) frames)
    (hnext : (versionOf (latest base frames)).toNat + 1 = frame.version.toNat) :
    Follows (versionOf base) (frames ++ [frame]) := by
  induction frames generalizing base with
  | nil => exact ⟨hnext, trivial⟩
  | cons first rest ih =>
    have hrest : Follows (versionOf (some (first.version, first.payload))) rest := h.2
    exact ⟨h.1, ih hrest hnext⟩

/-- Frames that follow a version have greater versions, up to that of the last. -/
theorem Follows.le {frames} (h : Follows (versionOf base) frames) :
    versionOf base ≤ versionOf (latest base frames) ∧
      ∀ frame ∈ frames, frame.version ≤ versionOf (latest base frames) := by
  induction frames generalizing base with
  | nil => exact ⟨UInt64.le_refl _, by simp⟩
  | cons first rest ih =>
    have hrest : Follows (versionOf (some (first.version, first.payload))) rest := h.2
    obtain ⟨hle, hall⟩ := ih hrest
    have hstep : versionOf base ≤ first.version := by
      rw [UInt64.le_iff_toNat_le]
      have := h.1
      omega
    refine ⟨UInt64.le_trans hstep hle, fun frame hmem => ?_⟩
    rcases mem_cons.mp hmem with rfl | hmem
    · exact hle
    · exact hall frame hmem

/-- The replay passes over frames that the state already has. -/
theorem replayFrames_old {old} (h : ∀ frame ∈ old, frame.version ≤ version) (rest : List Frame)
    (replay : ReplayResult) :
    ∃ counted, counted.state = replay.state ∧ counted.truncateAt = replay.truncateAt ∧
      replayFrames version replay (old ++ rest) = replayFrames version counted rest := by
  induction old generalizing replay with
  | nil => exact ⟨replay, rfl, rfl, rfl⟩
  | cons frame more ih =>
    have hold : ¬version < frame.version := UInt64.not_lt.mpr (h frame (mem_cons_self ..))
    obtain ⟨counted, hstate, htruncate, hreplay⟩ := ih (fun f hf => h f (mem_cons_of_mem _ hf))
      { replay with
        completeWalFrames := replay.completeWalFrames + 1
        completeWalBytes := replay.completeWalBytes + (encodeFrame frame).length }
    refine ⟨counted, hstate, htruncate, ?_⟩
    rw [cons_append, replayFrames, replayFrame]
    simp only [if_neg hold]
    exact hreplay

/-- The replay takes over the frames that follow. -/
theorem replayFrames_new {new} (h : Follows (versionOf base) new) {replay} (hstate : replay.state = base) :
    ∃ replayed, replayFrames (versionOf base) replay new = .ok (versionOf (latest base new), replayed) ∧
      replayed.state = latest base new ∧ replayed.truncateAt = replay.truncateAt := by
  induction new generalizing base replay with
  | nil => exact ⟨replay, rfl, hstate, rfl⟩
  | cons frame rest ih =>
    obtain ⟨hnext, hrest⟩ := h
    have hlt : versionOf base < frame.version := by
      rw [UInt64.lt_iff_toNat_lt]
      omega
    have hexpected : (versionOf base).checkedAdd 1 = some frame.version :=
      UInt64.checkedAdd_eq_some.mpr hnext
    rw [replayFrames, replayFrame]
    simp only [if_pos hlt, hexpected, ne_eq, not_true_eq_false, if_false]
    have hrest' : Follows (versionOf (some (frame.version, frame.payload))) rest := hrest
    exact ih hrest' rfl

def encodeStored (stored : Stored) : List UInt8 := encodeFrame ⟨stored.1, stored.2⟩

/-- **The files hold a snapshot**, with a log of complete frames: the snapshot file has the base, and the log has frames
    up to the base and then those that follow it. -/
inductive Complete : Option (List UInt8) → List UInt8 → Option Stored → Prop
  | intro (base : Option Stored) (old new : List Frame)
      (hbase : ∀ stored, base = some stored → (encodeStored stored).length < 2 ^ 64)
      (hold : ∀ frame ∈ old, frame.version ≤ versionOf base) (hnew : Follows (versionOf base) new)
      (hsize : (encodeAll (old ++ new)).length < 2 ^ 64) :
      Complete (base.map encodeStored) (encodeAll (old ++ new)) (latest base new)

/-- **The files represent a snapshot**: they hold it, up to a torn end of the log. -/
def Represents (snapshot : Option (List UInt8)) (wal : List UInt8) (state : Option Stored) : Prop :=
  ∃ whole tail, wal = whole ++ tail ∧ Complete snapshot whole state ∧ Torn whole.length tail

variable {snapshot : Option (List UInt8)} {whole tail wal bytes : List UInt8} {state : Option Stored} {stored : Stored}

theorem Complete.represents (h : Complete snapshot wal state) : Represents snapshot wal state :=
  ⟨wal, [], (append_nil wal).symm, h, .inl rfl⟩

theorem complete_empty : Complete none [] none := .intro none [] [] nofun (by simp) trivial (by simp)

theorem readSnapshot_encodeStored (h : (encodeStored stored).length < 2 ^ 64) :
    readSnapshot (some (encodeStored stored)) = .ok (some stored) := by
  have hempty : (encodeStored stored).isEmpty = false := rfl
  have hdecode := decodeFrame_encodeFrame [] [] ⟨stored.1, stored.2⟩ (by simpa [encodeStored] using h) .reject
  rw [nil_append, append_nil, length_nil, Nat.zero_add] at hdecode
  rw [readSnapshot, hempty, encodeStored]
  simp [hdecode]

/-- Files that represent a snapshot are read as it, and the torn end is to be cut off. -/
theorem Complete.read (h : Complete snapshot whole state) (htail : Torn whole.length tail) :
    ∃ replay, readFiles snapshot (whole ++ tail) = .ok replay ∧ replay.state = state ∧
      replay.truncateAt = if tail = [] then none else some whole.length := by
  obtain ⟨base, old, new, hbase, hold, hnew, hsize⟩ := h
  have hsnapshot : readSnapshot (base.map encodeStored) = .ok base := by
    cases base with
    | none => rfl
    | some stored => exact readSnapshot_encodeStored (hbase stored rfl)
  obtain ⟨counted, hstate, htruncate, hreplay⟩ := replayFrames_old hold new ⟨base, 0, 0, 0, 0, none⟩
  obtain ⟨replayed, hreplayed, hlatest, hnone⟩ := replayFrames_new hnew hstate
  have hloop := replayWal_encodeAll (old ++ new) base hsize htail
  rw [hreplay, hreplayed] at hloop
  refine ⟨atTail (encodeAll (old ++ new)).length tail replayed, ?_, ?_, ?_⟩
  · rw [readFiles, hsnapshot]
    exact hloop
  · rw [atTail]
    split <;> exact hlatest
  · rw [atTail]
    split
    · rw [hnone, htruncate]
    · rfl

theorem length_le_of_mem {frames} (h : frame ∈ frames) : (encodeFrame frame).length ≤ (encodeAll frames).length := by
  induction frames with
  | nil => cases h
  | cons first rest ih =>
    rw [encodeAll_cons, length_append]
    rcases mem_cons.mp h with rfl | h
    · omega
    · have := ih h
      omega

/-- The latest snapshot is the base or comes from one of the frames. -/
theorem latest_cases (base : Option Stored) (frames : List Frame) :
    latest base frames = base ∨ ∃ frame ∈ frames, latest base frames = some (frame.version, frame.payload) := by
  induction frames generalizing base with
  | nil => exact .inl rfl
  | cons first rest ih =>
    rcases ih (some (first.version, first.payload)) with heq | ⟨frame, hmem, heq⟩
    · exact .inr ⟨first, mem_cons_self .., heq⟩
    · exact .inr ⟨frame, mem_cons_of_mem _ hmem, heq⟩

theorem Complete.size (h : Complete snapshot whole (some stored)) : (encodeStored stored).length < 2 ^ 64 := by
  generalize hstate : some stored = state at h
  obtain ⟨base, old, new, hbase, hold, hnew, hsize⟩ := h
  rcases latest_cases base new with heq | ⟨frame, hmem, heq⟩
  · exact hbase stored (by rw [hstate, heq])
  · rw [heq, Option.some.injEq] at hstate
    subst hstate
    exact Nat.lt_of_le_of_lt (length_le_of_mem (mem_append_right old hmem)) hsize

/-- A commit that is appended. -/
theorem Complete.append (h : Complete snapshot whole state) (hnext : (versionOf state).toNat + 1 = version.toNat)
    (hsize : whole.length + (encodeStored (version, bytes)).length < 2 ^ 64) :
    Complete snapshot (whole ++ encodeStored (version, bytes)) (some (version, bytes)) := by
  obtain ⟨base, old, new, hbase, hold, hnew, _⟩ := h
  have hencode : encodeAll (old ++ (new ++ [⟨version, bytes⟩])) =
      encodeAll (old ++ new) ++ encodeStored (version, bytes) := by simp [encodeStored]
  have hcomplete := Complete.intro base old (new ++ [⟨version, bytes⟩]) hbase hold (hnew.append hnext)
    (by rw [hencode, length_append]; exact hsize)
  rw [latest_append, hencode] at hcomplete
  exact hcomplete

/-- A beginning of a log. -/
theorem prefix_encodeAll {frames} (offset : Nat) (hpart : bytes <+: encodeAll frames)
    (hsize : offset + (encodeAll frames).length < 2 ^ 64) :
    ∃ kept tail, kept <+: frames ∧ bytes = encodeAll kept ++ tail ∧ Torn (offset + (encodeAll kept).length) tail := by
  induction frames generalizing bytes offset with
  | nil => exact ⟨[], bytes, prefix_refl _, rfl, .inl (prefix_nil.mp hpart)⟩
  | cons frame rest ih =>
    rw [encodeAll_cons] at hpart hsize
    rw [length_append] at hsize
    by_cases hwhole : encodeFrame frame <+: bytes
    · obtain ⟨more, rfl⟩ := hwhole
      obtain ⟨kept, tail, hkept, rfl, htail⟩ := ih (offset + (encodeFrame frame).length)
        ((prefix_append_right_inj _).mp hpart) (by omega)
      refine ⟨frame :: kept, tail, (prefix_cons_inj _).mpr hkept, by simp, ?_⟩
      rw [encodeAll_cons, length_append, ← Nat.add_assoc]
      exact htail
    · -- the log ends within this frame
      have hordered := prefix_or_prefix_of_prefix hpart (prefix_append _ _)
      have hpart : bytes <+: encodeFrame frame := hordered.resolve_right hwhole
      refine ⟨[], bytes, nil_prefix, rfl, .inr ⟨frame, hpart, ?_, ?_⟩⟩
      · rintro rfl
        exact hwhole (prefix_refl _)
      · simp only [encodeAll_nil, length_nil]
        omega

/-- The log has no frame that is newer than the snapshot it holds. -/
theorem Complete.frames (h : Complete snapshot whole (some stored)) :
    ∃ frames, whole = encodeAll frames ∧ (∀ frame ∈ frames, frame.version ≤ stored.1) ∧ whole.length < 2 ^ 64 := by
  generalize hstate : some stored = state at h
  obtain ⟨base, old, new, _, hold, hnew, hsize⟩ := h
  obtain ⟨hle, hall⟩ := hnew.le
  rw [← hstate] at hle hall
  refine ⟨old ++ new, rfl, fun frame hmem => ?_, hsize⟩
  rcases mem_append.mp hmem with hmem | hmem
  · exact UInt64.le_trans (hold frame hmem) hle
  · exact hall frame hmem

theorem complete_of_old {frames} (hstored : (encodeStored stored).length < 2 ^ 64)
    (hold : ∀ frame ∈ frames, frame.version ≤ stored.1) (hsize : (encodeAll frames).length < 2 ^ 64) :
    Complete (some (encodeStored stored)) (encodeAll frames) (some stored) := by
  have hcomplete := Complete.intro (some stored) frames [] (fun _ heq => by cases heq; exact hstored) hold trivial
    (by simpa using hsize)
  rw [append_nil] at hcomplete
  exact hcomplete

/-- A new snapshot file holds what the old one held with the log. -/
theorem Complete.compacted (h : Complete snapshot whole (some stored)) :
    Complete (some (encodeStored stored)) whole (some stored) := by
  obtain ⟨frames, rfl, hold, hsize⟩ := h.frames
  exact complete_of_old h.size hold hsize

/-- So does the new snapshot file with any beginning of the log. -/
theorem Complete.compacted_part (h : Complete snapshot whole (some stored)) (hpart : wal <+: whole) :
    Represents (some (encodeStored stored)) wal (some stored) := by
  obtain ⟨frames, rfl, hold, hsize⟩ := h.frames
  obtain ⟨kept, tail, hkept, rfl, htail⟩ := prefix_encodeAll 0 hpart (by omega)
  rw [Nat.zero_add] at htail
  refine ⟨encodeAll kept, tail, rfl,
    complete_of_old h.size (fun frame hmem => hold frame (hkept.subset hmem)) ?_, htail⟩
  have hle := hpart.length_le
  rw [length_append] at hle
  omega

/-- A beginning of the torn end. -/
theorem Torn.part {offset part} (h : Torn offset tail) (hpart : part <+: tail) : Torn offset part := by
  rcases h with rfl | ⟨frame, htail, hne, hsize⟩
  · exact .inl (prefix_nil.mp hpart)
  · refine .inr ⟨frame, hpart.trans htail, ?_, hsize⟩
    rintro rfl
    exact hne (htail.eq_of_length_le hpart.length_le)

end Afs.LocalFile
