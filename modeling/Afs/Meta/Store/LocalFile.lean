import Afs.Error
import Afs.Lib.Bytes
import Afs.Lib.Crash
import Afs.Lib.Machine

/-!
# `Meta.Store.LocalFile` — the local file backend

The backend keeps versioned snapshots in two files: `snapshot` holds one frame, and `wal` the frames of the commits
since then. A load reads the snapshot and replays the log; a commit appends a frame and, when the log has grown,
writes a new snapshot and empties the log. A frame that the end of the log cuts off is taken for a commit that was
interrupted, and is cut off.

A file has the content that readers see and the content that is known to be on the disk; they differ between a write
and the next `sync_all`. The calls are programs over single file operations, so that they can be interrupted between
any two. That a file is smaller than 2⁶⁴ bytes is what keeps the counters of the source from overflowing; they are
`Nat` here.
-/

namespace Afs

open Interaction Bytes

namespace LocalFile

/-- `b"AFSL"`. -/
def frameMagic : List UInt8 := [0x41, 0x46, 0x53, 0x4c]

def frameHeaderLen : Nat := 28

def compactAfterFrames : Nat := 64

def compactAfterWalBytes : Nat := 8 * 1024 * 1024

def dataLoss (message : String) : Error := ⟨.ioInvalid, message⟩

def failedPrecondition (message : String) : Error := ⟨.ioInvalid, message⟩

/-! ## Frames -/

structure Frame where
  version : UInt64
  payload : List UInt8

inductive TailPolicy
  | truncate | reject

inductive FrameError
  | incomplete
  | corrupt (message : String)

def frameErrorToError : FrameError → Error
  | .incomplete => dataLoss "incomplete frame"
  | .corrupt message => dataLoss message

def checksum (version len : UInt64) (payload : List UInt8) : UInt64 :=
  fnv (frameMagic ++ toLeBytes version ++ toLeBytes len ++ payload)

/-- The bytes that `write_frame` writes. -/
def encodeFrame (frame : Frame) : List UInt8 :=
  let len := UInt64.ofNat frame.payload.length
  frameMagic ++ toLeBytes frame.version ++ toLeBytes len ++ toLeBytes (checksum frame.version len frame.payload) ++
    frame.payload

/-- A frame that the end of the file cuts off. -/
def cutOff (message : String) : TailPolicy → FrameError
  | .truncate => .incomplete
  | .reject => .corrupt message

/-- `decode_frame`: the frame at the offset, and the offset of the next. -/
def decodeFrame (bytes : List UInt8) (offset : Nat) (tailPolicy : TailPolicy) : Except FrameError (Frame × Nat) :=
  if bytes.length - offset < frameHeaderLen then .error (cutOff "incomplete frame header" tailPolicy)
  else
    let header := (bytes.drop offset).take frameHeaderLen
    if header.take 4 ≠ frameMagic then .error (.corrupt "frame magic mismatch")
    else
      let version := fromLeBytes ((header.drop 4).take 8)
      let len := fromLeBytes ((header.drop 12).take 8)
      let expectedChecksum := fromLeBytes ((header.drop 20).take 8)
      let payloadStart := offset + frameHeaderLen
      let payloadEnd := payloadStart + len.toNat
      if 2 ^ 64 ≤ payloadEnd then .error (.corrupt "frame payload length overflows offset")
      else if bytes.length < payloadEnd then .error (cutOff "incomplete frame payload" tailPolicy)
      else
        let payload := (bytes.drop payloadStart).take len.toNat
        if checksum version len payload ≠ expectedChecksum then
          .error (.corrupt s!"frame checksum mismatch at offset {offset}")
        else .ok (⟨version, payload⟩, payloadEnd)

/-! ## Reading the files -/

/-- A version with its snapshot. -/
abbrev Stored := UInt64 × List UInt8

/-- The version that a commit has to expect. -/
def versionOf : Option Stored → UInt64
  | some (version, _) => version
  | none => 0

def readSnapshot : Option (List UInt8) → Result (Option Stored)
  | none => .ok none
  | some bytes =>
    if bytes.isEmpty then .error (dataLoss "snapshot file is empty")
    else
      match decodeFrame bytes 0 .reject with
      | .error e => .error (frameErrorToError e)
      | .ok (frame, next) =>
        if next ≠ bytes.length then .error (dataLoss "snapshot has trailing bytes")
        else .ok (some (frame.version, frame.payload))

structure ReplayResult where
  state : Option Stored
  (framesAfterSnapshot walBytesAfterSnapshot completeWalFrames completeWalBytes : Nat)
  truncateAt : Option Nat

/-- One complete frame of the log. A frame of a version that the state already has is passed over. -/
def replayFrame (frame : Frame) (frameBytes : Nat) (currentVersion : UInt64) (replay : ReplayResult) :
    Result (UInt64 × ReplayResult) :=
  let counted := { replay with
    completeWalFrames := replay.completeWalFrames + 1
    completeWalBytes := replay.completeWalBytes + frameBytes }
  if currentVersion < frame.version then
    match currentVersion.checkedAdd 1 with
    | none => .error (failedPrecondition "local file backend version overflow")
    | some expected =>
      if frame.version ≠ expected then
        .error (dataLoss s!"wal version gap: expected {expected}, found {frame.version}")
      else
        .ok (frame.version,
          { counted with
            state := some (frame.version, frame.payload)
            framesAfterSnapshot := replay.framesAfterSnapshot + 1
            walBytesAfterSnapshot := replay.walBytesAfterSnapshot + frameBytes })
  else .ok (currentVersion, counted)

/-- The loop of `replay_wal`. Every turn moves on by at least a header, so the length of the log is fuel enough. -/
def replayLoop (bytes : List UInt8) : Nat → Nat → UInt64 → ReplayResult → Result ReplayResult
  | 0, _, _, replay => .ok replay
  | fuel + 1, offset, currentVersion, replay =>
    if offset < bytes.length then
      match decodeFrame bytes offset .truncate with
      | .error .incomplete => .ok { replay with truncateAt := some offset }
      | .error (.corrupt message) => .error (dataLoss message)
      | .ok (frame, next) =>
        match replayFrame frame (next - offset) currentVersion replay with
        | .error e => .error e
        | .ok (currentVersion, replay) => replayLoop bytes fuel next currentVersion replay
    else .ok replay

def replayWal (bytes : List UInt8) (snapshotVersion : UInt64) (snapshot : Option Stored) : Result ReplayResult :=
  replayLoop bytes bytes.length 0 snapshotVersion ⟨snapshot, 0, 0, 0, 0, none⟩

/-- What the two files say: the first half of `load_inner`. -/
def readFiles (snapshot : Option (List UInt8)) (wal : List UInt8) : Result ReplayResult :=
  match readSnapshot snapshot with
  | .error e => .error e
  | .ok stored => replayWal wal (versionOf stored) stored

/-! ## The disk -/

/-- A file, as it is read and as it is known to be on the disk. -/
structure File where
  (current durable : List UInt8)

def File.synced (bytes : List UInt8) : File := ⟨bytes, bytes⟩

/-- The directory of the backend. The entry of the snapshot, too, is on the disk only after the directory is synced.
    A log that does not exist is read like an empty one. -/
structure Disk where
  (snapshot snapshotDurable : Option File)
  (snapshotTmp wal : File)

def Disk.empty : Disk := ⟨none, none, .synced [], .synced []⟩

inductive FsOp
  | readSnapshot | readWal
  | appendWal (bytes : List UInt8)
  | setWalLen (len : Nat)
  | syncWal | createTmp
  | appendTmp (bytes : List UInt8)
  | syncTmp | renameTmp | syncDir

def FsOp.Reply : FsOp → Type
  | .readSnapshot => Option (List UInt8)
  | .readWal => List UInt8
  | _ => Unit

def fsAnswer (d : Disk) : (op : FsOp) → op.Reply × Disk
  | .readSnapshot => (d.snapshot.map File.current, d)
  | .readWal => (d.wal.current, d)
  | .appendWal bytes => ((), { d with wal := { d.wal with current := d.wal.current ++ bytes } })
  | .setWalLen len => ((), { d with wal := { d.wal with current := d.wal.current.take len } })
  | .syncWal => ((), { d with wal := .synced d.wal.current })
  | .createTmp => ((), { d with snapshotTmp := { d.snapshotTmp with current := [] } })
  | .appendTmp bytes =>
    ((), { d with snapshotTmp := { d.snapshotTmp with current := d.snapshotTmp.current ++ bytes } })
  | .syncTmp => ((), { d with snapshotTmp := .synced d.snapshotTmp.current })
  | .renameTmp => ((), { d with snapshot := some d.snapshotTmp, snapshotTmp := .synced [] })
  | .syncDir => ((), { d with snapshotDurable := d.snapshot })

/-- What a crash may leave of a file: a part of one of its two contents, with at least what they have in common. -/
structure File.Survives (file file' : File) : Prop where
  synced : file'.durable = file'.current
  some : file'.current <+: file.current ∨ file'.current <+: file.durable
  common : ∀ bytes, bytes <+: file.current → bytes <+: file.durable → bytes <+: file'.current

/-- What a crash may leave of the directory. Nothing is said of the temporary file, which is not read. -/
structure Disk.Crash (d d' : Disk) : Prop where
  synced : d'.snapshotDurable = d'.snapshot
  snapshot : Option.Rel File.Survives d.snapshot d'.snapshot ∨ Option.Rel File.Survives d.snapshotDurable d'.snapshot
  wal : d.wal.Survives d'.wal

/-! ## The calls -/

abbrev FsProg := Prog FsOp FsOp.Reply Error

abbrev fs (op : FsOp) : FsProg op.Reply := Prog.op op

def shouldCompact (frames walBytes : Nat) : Bool := compactAfterFrames ≤ frames || compactAfterWalBytes < walBytes

/-- The new snapshot is in place before the log is emptied. -/
def compact (stored : Stored) : FsProg Unit := do
  fs .createTmp
  fs (.appendTmp (encodeFrame ⟨stored.1, stored.2⟩))
  fs .syncTmp
  fs .renameTmp
  fs .syncDir
  fs (.setWalLen 0)
  fs .syncWal
  fs .syncDir

/-- `truncate_wal`, if the replay asks for it. -/
def truncateWal : Option Nat → FsProg Unit
  | none => pure ()
  | some len => do
    fs (.setWalLen len)
    fs .syncWal

/-- The second half of `load_inner`, which compacts a log that has grown. -/
def compactLoaded (replay : ReplayResult) : FsProg ReplayResult :=
  match replay.state with
  | none => pure replay
  | some stored =>
    if shouldCompact replay.framesAfterSnapshot replay.walBytesAfterSnapshot ||
        shouldCompact replay.completeWalFrames replay.completeWalBytes then do
      compact stored
      pure ⟨replay.state, 0, 0, 0, 0, none⟩
    else pure replay

def loadInner : FsProg ReplayResult := do
  let snapshot : Option (List UInt8) ← fs .readSnapshot
  let wal : List UInt8 ← fs .readWal
  let replay ← Prog.lift (readFiles snapshot wal)
  truncateWal replay.truncateAt
  compactLoaded replay

/-- What is stored, after the torn end of the log has been cut off. -/
def load : FsProg (Option Stored) := do
  let replay ← loadInner
  pure replay.state

def frameLen (bytes : List UInt8) : Nat := frameHeaderLen + bytes.length

/-- The second half of `commit`, once the version is the expected one. -/
def appendVersion (loaded : ReplayResult) (newVersion : UInt64) (bytes : List UInt8) : FsProg UInt64 := do
  fs (.appendWal (encodeFrame ⟨newVersion, bytes⟩))
  fs .syncWal
  if shouldCompact (loaded.completeWalFrames + 1) (loaded.completeWalBytes + frameLen bytes) then
    compact (newVersion, bytes)
    pure newVersion
  else pure newVersion

/-- Appends a frame if the version is still the expected one. -/
def commit (expectedVersion : UInt64) (bytes : List UInt8) : FsProg UInt64 := do
  let loaded ← loadInner
  if versionOf loaded.state ≠ expectedVersion then
    throw (failedPrecondition
      s!"local file backend expected version {expectedVersion}, found {versionOf loaded.state}")
  else
    match expectedVersion.checkedAdd 1 with
    | none => throw (failedPrecondition "local file backend version overflow")
    | some newVersion => appendVersion loaded newVersion bytes

end LocalFile

end Afs
