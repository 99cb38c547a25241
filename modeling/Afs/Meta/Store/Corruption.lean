import Afs.Meta.Store.CrashConsistency

/-!
# `Meta.Store.Corruption` — a changed byte in the log

A log of complete, acknowledged frames in which one byte is replaced. Magic, version, checksum and payload are covered
by the checks of the frame: a change in them is always found, since every step of the hash can be undone. The length
is used before the checksum can be compared. A length that reaches past the end of the log makes the frame look like a
commit that was interrupted, and the load cuts it off with all frames behind it (`length_change_loses_commits`).
-/

namespace Afs.LocalFile

open Bytes Interaction List UInt64

variable {offset i place : Nat} {frame : Frame} {byte : UInt8}

/-! ## Logs and their bytes -/

/-- A snapshot file with a log of complete frames. -/
structure Log where
  base : Option Stored
  (old new : List Frame)
  base_size : ∀ stored, base = some stored → (encodeStored stored).length < 2 ^ 64
  old_le : ∀ frame ∈ old, frame.version ≤ versionOf base
  new_follows : Follows (versionOf base) new
  size : (encodeAll (old ++ new)).length < 2 ^ 64

namespace Log

def snapshot (log : Log) : Option (List UInt8) := log.base.map encodeStored

def frames (log : Log) : List Frame := log.old ++ log.new

def bytes (log : Log) : List UInt8 := encodeAll log.frames

def state (log : Log) : Option Stored := latest log.base log.new

theorem complete (log : Log) : Complete log.snapshot log.bytes log.state :=
  .intro log.base log.old log.new log.base_size log.old_le log.new_follows log.size

end Log

/-- A disk with the two files. -/
def diskOf (snapshot : Option (List UInt8)) (wal : List UInt8) : Disk :=
  ⟨snapshot.map File.synced, snapshot.map File.synced, .synced [], .synced wal⟩

/-- **The log is not harmed** by a change: the load fails, or returns the snapshot of the log and cuts nothing off. -/
def Unharmed (log : Log) (wal : List UInt8) : Prop :=
  (∃ e, (load.exec fsAnswer (diskOf log.snapshot wal)).1 = .error e) ∨
  ((load.exec fsAnswer (diskOf log.snapshot wal)).1 = .ok log.state ∧
    ∃ replay, readFiles log.snapshot wal = .ok replay ∧ replay.truncateAt = none)

/-- The frame that a byte of the log belongs to, with the offset of the frame and the place of the byte in it. -/
def locate : Nat → List Frame → Nat → Option (Nat × Frame × Nat)
  | _, [], _ => none
  | offset, frame :: rest, i =>
    if i < (encodeFrame frame).length then some (offset, frame, i)
    else locate (offset + (encodeFrame frame).length) rest (i - (encodeFrame frame).length)

/-- The place is in the length field. -/
def inLength (i : Nat) : Bool := 12 ≤ i && i < 20

/-- The length that is read when the byte of the length field is replaced. -/
def changedLen (frame : Frame) (i : Nat) (byte : UInt8) : UInt64 :=
  fromLeBytes ((toLeBytes (UInt64.ofNat frame.payload.length)).set (i - 12) byte)

/-- The byte is in the length field of a frame, and makes the frame reach past the end of the log. -/
def reachesPastEnd (log : Log) (i : Nat) (byte : UInt8) : Bool :=
  match locate 0 log.frames i with
  | none => false
  | some (offset, frame, i) =>
    inLength i && (log.bytes.length < offset + 28 + (changedLen frame i byte).toNat &&
      offset + 28 + (changedLen frame i byte).toNat < 2 ^ 64)

/-- The byte is in the length field of a frame, and the frame of another length that it makes has the same checksum. -/
def collides (log : Log) (i : Nat) (byte : UInt8) : Bool :=
  match locate 0 log.frames i with
  | none => false
  | some (offset, frame, i) =>
    inLength i && (changedLen frame i byte ≠ UInt64.ofNat frame.payload.length &&
      (offset + 28 + (changedLen frame i byte).toNat ≤ log.bytes.length &&
        checksum frame.version (changedLen frame i byte)
            ((log.bytes.drop (offset + 28)).take (changedLen frame i byte).toNat) =
          checksum frame.version (UInt64.ofNat frame.payload.length) frame.payload))

theorem locate_eq_some {frames start} (h : locate offset frames i = some (start, frame, place)) :
    ∃ before after, frames = before ++ frame :: after ∧ start = offset + (encodeAll before).length ∧
      i = (encodeAll before).length + place ∧ place < (encodeFrame frame).length := by
  induction frames generalizing offset i with
  | nil => cases h
  | cons first rest ih =>
    rw [locate] at h
    split at h
    · next hi =>
      cases h
      exact ⟨[], rest, rfl, rfl, (Nat.zero_add _).symm, hi⟩
    · next hi =>
      obtain ⟨before, after, rfl, rfl, hplace, hlt⟩ := ih h
      refine ⟨first :: before, after, rfl, ?_, ?_, hlt⟩
      · rw [encodeAll_cons, length_append]
        omega
      · rw [encodeAll_cons, length_append]
        omega

theorem locate_ne_none {frames} (offset : Nat) (h : i < (encodeAll frames).length) :
    locate offset frames i ≠ none := by
  induction frames generalizing offset i with
  | nil => cases h
  | cons first rest ih =>
    rw [encodeAll_cons, length_append] at h
    rw [locate]
    split
    · simp
    · exact ih _ (by omega)

/-! ## One frame -/

/-- Which field of a frame a byte belongs to. -/
theorem set_fields {magic version len sum} (payload : List UInt8) (hmagic : magic.length = 4)
    (hversion : version.length = 8) (hlen : len.length = 8) (hsum : sum.length = 8) (i : Nat) (byte : UInt8) :
    let changed := (magic ++ version ++ len ++ sum ++ payload).set i byte
    (i < 4 ∧ changed = magic.set i byte ++ version ++ len ++ sum ++ payload) ∨
    (4 ≤ i ∧ i < 12 ∧ changed = magic ++ version.set (i - 4) byte ++ len ++ sum ++ payload) ∨
    (inLength i = true ∧ changed = magic ++ version ++ len.set (i - 12) byte ++ sum ++ payload) ∨
    (20 ≤ i ∧ i < 28 ∧ changed = magic ++ version ++ len ++ sum.set (i - 20) byte ++ payload) ∨
    (28 ≤ i ∧ changed = magic ++ version ++ len ++ sum ++ payload.set (i - 28) byte) := by
  intro changed
  have hv : (magic ++ version).length = 12 := by simp [hmagic, hversion]
  have hl : (magic ++ version ++ len).length = 20 := by rw [length_append, hv, hlen]
  have hs : (magic ++ version ++ len ++ sum).length = 28 := by rw [length_append, hl, hsum]
  by_cases h28 : i < 28
  · rw [show changed = (magic ++ version ++ len ++ sum).set i byte ++ payload from set_append_left _ _ (by omega)]
    by_cases h20 : i < 20
    · rw [set_append_left _ _ (by omega)]
      by_cases h12 : i < 12
      · rw [set_append_left _ _ (by omega)]
        by_cases h4 : i < 4
        · rw [set_append_left _ _ (by omega)]
          exact .inl ⟨h4, rfl⟩
        · rw [set_append_right _ _ (by omega), hmagic]
          exact .inr (.inl ⟨by omega, h12, rfl⟩)
      · rw [set_append_right _ _ (by omega), hv]
        exact .inr (.inr (.inl ⟨by simp [inLength]; omega, rfl⟩))
    · rw [set_append_right _ _ (by omega), hl]
      exact .inr (.inr (.inr (.inl ⟨by omega, h28, rfl⟩)))
  · rw [show changed = magic ++ version ++ len ++ sum ++ payload.set (i - 28) byte from
      hs ▸ set_append_right _ _ (by omega)]
    exact .inr (.inr (.inr (.inr ⟨by omega, rfl⟩)))

/-- A change outside the length field is found. -/
theorem decodeFrame_changed {pre more} (hsize : pre.length + (encodeFrame frame).length < 2 ^ 64)
    (hi : inLength i = false) (hne : (encodeFrame frame).set i byte ≠ encodeFrame frame) :
    ∃ message, decodeFrame (pre ++ ((encodeFrame frame).set i byte ++ more)) pre.length .truncate =
      .error (.corrupt message) := by
  have hlen := toNat_payloadLen frame (by omega)
  rw [length_encodeFrame] at hsize
  have hoverflow : ¬2 ^ 64 ≤ pre.length + 28 + frame.payload.length := by omega
  rw [encodeFrame] at hne ⊢
  rcases set_fields frame.payload (show frameMagic.length = 4 from rfl) (length_toLeBytes frame.version)
    (length_toLeBytes (ofNat frame.payload.length))
    (length_toLeBytes (checksum frame.version (ofNat frame.payload.length) frame.payload)) i byte with
    ⟨-, hset⟩ | ⟨-, -, hset⟩ | ⟨hlength, -⟩ | ⟨-, -, hset⟩ | ⟨-, hset⟩
  · -- the magic
    rw [hset] at hne ⊢
    have hmagic : frameMagic.set i byte ≠ frameMagic := fun heq => hne (by rw [heq])
    rw [append_assoc _ frame.payload more, decodeFrame_fields (by simp [frameMagic]) (length_toLeBytes _)
      (length_toLeBytes _) (length_toLeBytes _), if_pos hmagic]
    exact ⟨_, rfl⟩
  · -- the version, which is hashed
    rw [hset] at hne ⊢
    have hversion : (toLeBytes frame.version).set (i - 4) byte ≠ toLeBytes frame.version := fun heq =>
      hne (by rw [heq])
    rw [append_assoc _ frame.payload more, decodeFrame_fields rfl (by simp) (length_toLeBytes _)
      (length_toLeBytes _)]
    simp only [fromLeBytes_toLeBytes, hlen, ne_eq, not_true_eq_false, if_false, take_left]
    rw [if_neg hoverflow, if_neg (by simp), if_pos]
    · exact ⟨_, rfl⟩
    · have hhash := fnv_set_ne frameMagic (toLeBytes (ofNat frame.payload.length) ++ frame.payload) hversion
      rw [checksum, toLeBytes_fromLeBytes (by simp), checksum]
      simpa only [append_assoc] using hhash
  · rw [hi] at hlength
    cases hlength
  · -- the checksum itself
    rw [hset] at hne ⊢
    have hsum : (toLeBytes (checksum frame.version (ofNat frame.payload.length) frame.payload)).set (i - 20) byte ≠
        toLeBytes (checksum frame.version (ofNat frame.payload.length) frame.payload) :=
      fun heq => hne (by rw [heq])
    rw [append_assoc _ frame.payload more, decodeFrame_fields rfl (length_toLeBytes _) (length_toLeBytes _)
      (by simp)]
    simp only [fromLeBytes_toLeBytes, hlen, ne_eq, not_true_eq_false, if_false, take_left]
    rw [if_neg hoverflow, if_neg (by simp), if_pos]
    · exact ⟨_, rfl⟩
    · intro heq
      refine hsum (fromLeBytes_inj (by simp) (length_toLeBytes _) ?_)
      rw [← heq, fromLeBytes_toLeBytes]
  · -- the payload, which is hashed
    rw [hset] at hne ⊢
    have hpayload : frame.payload.set (i - 28) byte ≠ frame.payload := fun heq => hne (by rw [heq])
    rw [append_assoc _ (frame.payload.set _ _) more, decodeFrame_fields rfl (length_toLeBytes _)
      (length_toLeBytes _) (length_toLeBytes _)]
    have htake : (frame.payload.set (i - 28) byte ++ more).take frame.payload.length =
        frame.payload.set (i - 28) byte := by
      have hsame : (frame.payload.set (i - 28) byte).length = frame.payload.length := length_set
      rw [← hsame, take_left]
    simp only [fromLeBytes_toLeBytes, hlen, ne_eq, not_true_eq_false, if_false, htake]
    rw [if_neg hoverflow, if_neg (by simp), if_pos]
    · exact ⟨_, rfl⟩
    · have hhash := fnv_set_ne (frameMagic ++ toLeBytes frame.version ++
        toLeBytes (ofNat frame.payload.length)) [] hpayload
      simpa [checksum] using hhash

theorem set_length (frame : Frame) (byte : UInt8) (hi : inLength i = true) :
    (encodeFrame frame).set i byte = frameMagic ++ toLeBytes frame.version ++
      (toLeBytes (ofNat frame.payload.length)).set (i - 12) byte ++
      toLeBytes (checksum frame.version (ofNat frame.payload.length) frame.payload) ++ frame.payload := by
  have hplace : 12 ≤ i ∧ i < 20 := by simpa [inLength] using hi
  rcases set_fields frame.payload (show frameMagic.length = 4 from rfl) (length_toLeBytes frame.version)
    (length_toLeBytes (ofNat frame.payload.length))
    (length_toLeBytes (checksum frame.version (ofNat frame.payload.length) frame.payload)) i byte with
    ⟨h, -⟩ | ⟨-, h, -⟩ | ⟨-, hset⟩ | ⟨h, -, -⟩ | ⟨h, -⟩
  · omega
  · omega
  · exact hset
  · omega
  · omega

/-- A change of the length field. -/
theorem decodeFrame_changedLen (pre more : List UInt8) (frame : Frame) (byte : UInt8) (hi : inLength i = true) :
    decodeFrame (pre ++ ((encodeFrame frame).set i byte ++ more)) pre.length .truncate =
      if 2 ^ 64 ≤ pre.length + 28 + (changedLen frame i byte).toNat then
        .error (.corrupt "frame payload length overflows offset")
      else if (frame.payload ++ more).length < (changedLen frame i byte).toNat then .error .incomplete
      else if checksum frame.version (changedLen frame i byte)
          ((frame.payload ++ more).take (changedLen frame i byte).toNat) ≠
          checksum frame.version (ofNat frame.payload.length) frame.payload then
        .error (.corrupt s!"frame checksum mismatch at offset {pre.length}")
      else .ok (⟨frame.version, (frame.payload ++ more).take (changedLen frame i byte).toNat⟩,
        pre.length + 28 + (changedLen frame i byte).toNat) := by
  rw [set_length frame byte hi, append_assoc _ frame.payload more,
    decodeFrame_fields rfl (length_toLeBytes _) (by simp) (length_toLeBytes _)]
  simp only [fromLeBytes_toLeBytes, ne_eq, not_true_eq_false, if_false]
  rfl

/-- The length that is read is the old one exactly if the byte is the old one. -/
theorem changedLen_eq_iff (hi : inLength i = true) :
    changedLen frame i byte = ofNat frame.payload.length ↔
      (encodeFrame frame).set i byte = encodeFrame frame := by
  rw [set_length frame byte hi, encodeFrame]
  constructor
  · intro heq
    have hbytes : (toLeBytes (ofNat frame.payload.length)).set (i - 12) byte =
        toLeBytes (ofNat frame.payload.length) := by
      apply fromLeBytes_inj (by simp) (by simp)
      rw [fromLeBytes_toLeBytes]
      exact heq
    rw [hbytes]
  · intro heq
    rw [append_cancel_right_eq, append_cancel_right_eq, append_cancel_left_eq] at heq
    rw [changedLen, heq, fromLeBytes_toLeBytes]

/-! ## The whole log -/

theorem replayFrames_append (version : UInt64) (replay : ReplayResult) (frames more : List Frame) :
    replayFrames version replay (frames ++ more) =
      match replayFrames version replay frames with
      | .error e => .error e
      | .ok (version, replay) => replayFrames version replay more := by
  induction frames generalizing version replay with
  | nil => rfl
  | cons frame rest ih =>
    rw [cons_append, replayFrames, replayFrames]
    cases replayFrame frame (encodeFrame frame).length version replay with
    | error e => rfl
    | ok next => exact ih _ _

/-- The replay of the frames in front of a place of the log. -/
theorem Log.replay_before (log : Log) {before after} (h : log.frames = before ++ after) :
    ∃ version replay,
      replayFrames (versionOf log.base) ⟨log.base, 0, 0, 0, 0, none⟩ before = .ok (version, replay) := by
  obtain ⟨counted, hstate, -, hreplay⟩ := replayFrames_old log.old_le log.new ⟨log.base, 0, 0, 0, 0, none⟩
  obtain ⟨replayed, hreplayed, -, -⟩ := replayFrames_new log.new_follows hstate
  rw [hreplayed, show log.old ++ log.new = before ++ after from h, replayFrames_append] at hreplay
  cases hbefore : replayFrames (versionOf log.base) ⟨log.base, 0, 0, 0, 0, none⟩ before with
  | error e =>
    rw [hbefore] at hreplay
    cases hreplay
  | ok next => exact ⟨next.1, next.2, rfl⟩

theorem Log.readSnapshot (log : Log) : readSnapshot log.snapshot = .ok log.base := by
  rw [Log.snapshot]
  cases hbase : log.base with
  | none => rfl
  | some stored => exact readSnapshot_encodeStored (log.base_size stored hbase)

/-- The load goes on from the frames before a place with what it decodes there. -/
theorem Log.readFiles_from (log : Log) {before after rest} (h : log.frames = before ++ after) (hrest : rest ≠ []) :
    ∃ version replay fuel, LocalFile.readFiles log.snapshot (encodeAll before ++ rest) =
      replayLoop (encodeAll before ++ rest) (fuel + 1) (encodeAll before).length version replay := by
  obtain ⟨version, replay, hbefore⟩ := log.replay_before h
  have hsize : (encodeAll before).length < 2 ^ 64 := by
    have := log.size
    rw [show log.old ++ log.new = before ++ after from h, encodeAll_append, length_append] at this
    omega
  have hlength := length_le_encodeAll before
  have hpos := length_pos_iff.mpr hrest
  obtain ⟨fuel, hfuel⟩ := Nat.exists_eq_add_of_le (show before.length + 1 ≤ (encodeAll before ++ rest).length by
    rw [length_append]
    omega)
  have happend := replayLoop_append [] before rest (fuel + 1) (versionOf log.base) ⟨log.base, 0, 0, 0, 0, none⟩
    (by simpa using hsize)
  simp only [nil_append, length_nil, Nat.zero_add, hbefore] at happend
  refine ⟨version, replay, fuel, ?_⟩
  rw [LocalFile.readFiles, log.readSnapshot]
  show replayWal _ _ _ = _
  rw [replayWal, hfuel, show before.length + 1 + fuel = before.length + (fuel + 1) by omega, happend]

/-- The answer of `truncate_wal` and `compact`, from any disk. -/
theorem answers_truncateWal (truncateAt : Option Nat) (d : Disk) :
    Guarded fsAnswer (fun _ => True) (fun result _ => result = .ok ()) (truncateWal truncateAt) d := by
  cases truncateAt with
  | none => exact ⟨trivial, rfl⟩
  | some len => exact And.intro trivial (And.intro trivial (And.intro trivial rfl))

theorem answers_compactLoaded (replay : ReplayResult) (d : Disk) :
    Guarded fsAnswer (fun _ => True) (fun result _ => result.map (·.state) = .ok replay.state)
      (compactLoaded replay) d := by
  unfold compactLoaded
  split
  · exact ⟨trivial, rfl⟩
  · split
    · exact And.intro trivial (And.intro trivial (And.intro trivial (And.intro trivial (And.intro trivial
        (And.intro trivial (And.intro trivial (And.intro trivial (And.intro trivial rfl))))))))
    · exact ⟨trivial, rfl⟩

/-- The answer of a load is what it reads; cutting off and compacting do not change it. -/
theorem exec_load (d : Disk) :
    (load.exec fsAnswer d).1 = (readFiles (d.snapshot.map File.current) d.wal.current).map (·.state) := by
  have hinner : Guarded fsAnswer (fun _ => True)
      (fun result _ => result.map (·.state) =
        (readFiles (d.snapshot.map File.current) d.wal.current).map (·.state)) loadInner d := by
    refine And.intro trivial (And.intro trivial ?_)
    show Guarded fsAnswer _ _ (Prog.lift (readFiles (d.snapshot.map File.current) d.wal.current) >>= fun replay =>
      truncateWal replay.truncateAt >>= fun _ => compactLoaded replay) d
    cases readFiles (d.snapshot.map File.current) d.wal.current with
    | error e => exact ⟨trivial, rfl⟩
    | ok replay =>
      show Guarded fsAnswer _ _ (truncateWal replay.truncateAt >>= fun _ => compactLoaded replay) d
      rw [guarded_bind]
      refine (answers_truncateWal _ d).mono (fun _ h => h) fun result d' hresult => ?_
      subst hresult
      exact answers_compactLoaded replay d'
  have hload : Guarded fsAnswer (fun _ => True)
      (fun result _ => result = (readFiles (d.snapshot.map File.current) d.wal.current).map (·.state)) load d := by
    unfold load
    rw [guarded_bind]
    refine hinner.mono (fun _ h => h) fun result d' hresult => ?_
    cases result with
    | error e => exact hresult
    | ok replay => exact ⟨trivial, hresult⟩
  exact hload.exec

theorem unharmed_iff {log wal} :
    Unharmed log wal ↔ (∃ e, readFiles log.snapshot wal = .error e) ∨
      ∃ replay, readFiles log.snapshot wal = .ok replay ∧ replay.state = log.state ∧ replay.truncateAt = none := by
  have hload : (load.exec fsAnswer (diskOf log.snapshot wal)).1 = (readFiles log.snapshot wal).map (·.state) := by
    rw [exec_load, diskOf, Option.map_map]
    simp [Function.comp_def, File.synced]
  rw [Unharmed, hload]
  cases readFiles log.snapshot wal with
  | error | ok => simp [Except.map]

/-! ## The theorem -/

variable {log : Log} {before after : List Frame} {rest : List UInt8}

theorem readFiles_of_corrupt {message} (h : log.frames = before ++ after) (hrest : rest ≠ [])
    (hdecode : decodeFrame (encodeAll before ++ rest) (encodeAll before).length .truncate =
      .error (.corrupt message)) :
    readFiles log.snapshot (encodeAll before ++ rest) = .error (dataLoss message) := by
  obtain ⟨version, replay, fuel, hread⟩ := log.readFiles_from h hrest
  have hpos := length_pos_iff.mpr hrest
  rw [hread, replayLoop, if_pos (by rw [length_append]; omega), hdecode]

theorem readFiles_of_incomplete (h : log.frames = before ++ after) (hrest : rest ≠ [])
    (hdecode : decodeFrame (encodeAll before ++ rest) (encodeAll before).length .truncate = .error .incomplete) :
    ∃ replay, readFiles log.snapshot (encodeAll before ++ rest) = .ok replay ∧
      replay.truncateAt = some (encodeAll before).length := by
  obtain ⟨version, replay, fuel, hread⟩ := log.readFiles_from h hrest
  have hpos := length_pos_iff.mpr hrest
  rw [hread, replayLoop, if_pos (by rw [length_append]; omega), hdecode]
  exact ⟨_, rfl, rfl⟩

/-- The byte of the log, and the bytes around its frame. -/
theorem Log.set_bytes (log : Log) (byte : UInt8) (h : locate 0 log.frames i = some (offset, frame, place)) :
    ∃ before after, log.frames = before ++ frame :: after ∧ offset = (encodeAll before).length ∧
      place < (encodeFrame frame).length ∧ log.bytes = encodeAll before ++ (encodeFrame frame ++ encodeAll after) ∧
      log.bytes.set i byte = encodeAll before ++ ((encodeFrame frame).set place byte ++ encodeAll after) := by
  obtain ⟨before, after, hframes, hoffset, hplace, hlt⟩ := locate_eq_some h
  have hbytes : log.bytes = encodeAll before ++ (encodeFrame frame ++ encodeAll after) := by
    rw [Log.bytes, hframes, encodeAll_append, encodeAll_cons]
  refine ⟨before, after, hframes, by omega, hlt, hbytes, ?_⟩
  rw [hbytes, hplace, set_append_right _ _ (by omega), Nat.add_sub_cancel_left, set_append_left _ _ hlt]

/-- **A changed byte is found, unless it makes a frame reach past the end of the log.** For a log of complete frames
    and any replacement of one byte: the load fails or returns the same snapshot and cuts nothing off, exactly if the
    byte is not in a length field or leaves the frame within the log. Replacements for which a frame of another length
    has the checksum that is stored are left aside. -/
theorem corruption_found (log : Log) (i : Nat) (byte : UInt8) (hi : i < log.bytes.length)
    (hcollides : collides log i byte = false) :
    Unharmed log (log.bytes.set i byte) ↔ reachesPastEnd log i byte = false := by
  rw [unharmed_iff]
  obtain ⟨⟨offset, frame, place⟩, hlocate⟩ := Option.ne_none_iff_exists'.mp (locate_ne_none 0 hi)
  obtain ⟨before, after, hframes, rfl, hplace, hbytes, hset⟩ := log.set_bytes byte hlocate
  have hsize : (encodeAll before).length + (encodeFrame frame).length < 2 ^ 64 := by
    have := log.size
    rw [show encodeAll (log.old ++ log.new) = log.bytes from rfl, hbytes, length_append, length_append] at this
    omega
  have hrest : (encodeFrame frame).set place byte ++ encodeAll after ≠ [] := by
    intro hnil
    have hlength := congrArg length hnil
    rw [length_append, length_set, length_nil] at hlength
    omega
  have hlength : log.bytes.length = (encodeAll before).length + 28 + (frame.payload ++ encodeAll after).length := by
    rw [hbytes, length_append, length_append, length_encodeFrame, length_append]
    omega
  rw [hset]
  simp only [reachesPastEnd, collides, hlocate] at hcollides ⊢
  by_cases hsame : (encodeFrame frame).set place byte = encodeFrame frame
  · -- the byte is the old one
    obtain ⟨replay, hread, hstate, htruncate⟩ := log.complete.read (.inl rfl)
    rw [append_nil] at hread
    rw [hsame, ← hbytes]
    refine iff_of_true (.inr ⟨replay, hread, hstate, htruncate⟩) ?_
    cases hfield : inLength place with
    | false => rfl
    | true =>
      rw [(changedLen_eq_iff hfield).mpr hsame, toNat_payloadLen frame (by omega)]
      rw [length_append] at hlength
      simp only [Bool.true_and, Bool.and_eq_false_iff, decide_eq_false_iff_not]
      left
      omega
  · cases hfield : inLength place with
    | false =>
      obtain ⟨message, hdecode⟩ := decodeFrame_changed hsize hfield hsame
      exact iff_of_true (.inl ⟨_, readFiles_of_corrupt hframes hrest hdecode⟩) rfl
    | true =>
      have hdecode := decodeFrame_changedLen (encodeAll before) (encodeAll after) frame byte hfield
      have hchanged : changedLen frame place byte ≠ ofNat frame.payload.length := fun heq =>
        hsame ((changedLen_eq_iff hfield).mp heq)
      simp only [Bool.true_and]
      split at hdecode
      · next hoverflow =>
        refine iff_of_true (.inl ⟨_, readFiles_of_corrupt hframes hrest hdecode⟩) ?_
        simp only [Bool.and_eq_false_iff, decide_eq_false_iff_not]
        omega
      · next hoverflow =>
        split at hdecode
        · -- the frame seems to be cut off by the end of the log
          next hpast =>
          obtain ⟨replay, hread, htruncate⟩ := readFiles_of_incomplete hframes hrest hdecode
          refine iff_of_false ?_ ?_
          · rw [hread]
            rintro (⟨e, he⟩ | ⟨replay', hreplay, -, hnone⟩)
            · cases he
            · cases hreplay
              rw [htruncate] at hnone
              cases hnone
          · simp only [Bool.and_eq_false_iff, decide_eq_false_iff_not]
            omega
        · next hwithin =>
          split at hdecode
          · refine iff_of_true (.inl ⟨_, readFiles_of_corrupt hframes hrest hdecode⟩) ?_
            simp only [Bool.and_eq_false_iff, decide_eq_false_iff_not]
            omega
          · next hchecksum =>
            -- the frame of the changed length would be accepted
            have hdrop : log.bytes.drop ((encodeAll before).length + 28) = frame.payload ++ encodeAll after := by
              rw [hbytes, encodeFrame, append_assoc _ frame.payload]
              exact drop_append_append (by simp [frameMagic])
            have hcollision := not_not.mp hchecksum
            rw [hfield, hdrop] at hcollides
            simp only [Bool.true_and, hcollision, Bool.and_eq_false_iff, decide_eq_false_iff_not,
              not_true_eq_false] at hcollides
            rcases hcollides with hcollides | hcollides | hcollides
            · exact absurd hchanged hcollides
            · omega
            · exact hcollides.elim

/-! Two acknowledged commits. -/

def twoCommits : Log where
  base := none
  old := []
  new := [⟨1, [65]⟩, ⟨2, [66]⟩]
  base_size := nofun
  old_le := by simp
  new_follows := ⟨rfl, rfl, trivial⟩
  size := by decide

/-- A change of the payload of the first commit is found. -/
theorem corruption_found_in_payload : Unharmed twoCommits (twoCommits.bytes.set 28 0) :=
  (corruption_found twoCommits 28 0 (by decide +kernel) (by decide +kernel)).mpr (by decide +kernel)

/-- A change of the length of the first commit makes both commits disappear. -/
theorem length_change_loses_commits :
    twoCommits.state = some (2, [66]) ∧
    (load.exec fsAnswer (diskOf twoCommits.snapshot (twoCommits.bytes.set 19 1))).1 = .ok none ∧
    (load.exec fsAnswer (diskOf twoCommits.snapshot (twoCommits.bytes.set 19 1))).2.wal.current = [] ∧
    ¬Unharmed twoCommits (twoCommits.bytes.set 19 1) := by
  have hload : (load.exec fsAnswer (diskOf twoCommits.snapshot (twoCommits.bytes.set 19 1))).1 = .ok none := by
    decide +kernel
  refine ⟨rfl, hload, by decide +kernel, ?_⟩
  rintro (⟨e, he⟩ | ⟨hstate, -⟩)
  · rw [hload] at he
    cases he
  · rw [hload] at hstate
    cases hstate

end Afs.LocalFile
