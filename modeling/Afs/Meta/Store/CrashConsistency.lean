import Afs.Meta.Store.Wal

/-!
# `Meta.Store.CrashConsistency` — the local file backend across crashes

The calls of the backend are checked operation by operation against a crash condition: whenever one of them is
interrupted, what is left of the files represents one of the snapshots that are allowed (`CrashesTo`). From this the
runs of the backend, with crashes at any point, refine the specification `SnapshotStep`, in which a commit takes
effect as a whole or not at all.
-/

namespace Afs.LocalFile

open Interaction List

variable {d d' : Disk} {snapshot snapshot' : Option (List UInt8)} {wal whole tail bytes : List UInt8}
  {state : Option Stored} {stored : Stored} {allowed : Option Stored → Prop}

/-! ## After a crash -/

/-- All files are on the disk as they are read. -/
structure Steady (d : Disk) (snapshot : Option (List UInt8)) (wal : List UInt8) : Prop where
  entry : d.snapshot = snapshot.map File.synced
  entryDurable : d.snapshotDurable = snapshot.map File.synced
  log : d.wal = File.synced wal

/-- All files are on the disk and represent the snapshot. -/
def Rests (d : Disk) (state : Option Stored) : Prop :=
  ∃ snapshot wal, Steady d snapshot wal ∧ Represents snapshot wal state

/-- **The crash condition**: whatever a crash leaves of the files, they represent one of the allowed snapshots. -/
def CrashesTo (allowed : Option Stored → Prop) (d : Disk) : Prop :=
  ∀ d', d.Crash d' → ∃ state, allowed state ∧ Rests d' state

theorem survives_synced {file} (h : (File.synced bytes).Survives file) : file = File.synced bytes := by
  obtain ⟨hsynced, hsome, hcommon⟩ := h
  have hle : file.current <+: bytes := hsome.elim id id
  have hcurrent : file.current = bytes :=
    hle.eq_of_length_le (hcommon bytes (prefix_refl _) (prefix_refl _)).length_le
  cases file
  simp_all [File.synced]

theorem optionRel_synced {entry} (h : Option.Rel File.Survives (snapshot.map File.synced) entry) :
    entry = snapshot.map File.synced := by
  cases snapshot with
  | none => cases h; rfl
  | some bytes =>
    cases h with
    | some hfile => exact congrArg some (survives_synced hfile)

/-- What a crash leaves when the entry of the snapshot, or the log, is not on the disk yet as it is read. -/
theorem crash_cases (hsnapshot : d.snapshot = snapshot.map File.synced)
    (hdurable : d.snapshotDurable = snapshot'.map File.synced) (h : d.Crash d') :
    ∃ kept wal, (kept = snapshot ∨ kept = snapshot') ∧ Steady d' kept wal ∧ d.wal.Survives (File.synced wal) := by
  have hwal : d'.wal = File.synced d'.wal.current := by
    have := h.wal.synced
    cases hfile : d'.wal
    simp_all [File.synced]
  have hsurvives : d.wal.Survives (File.synced d'.wal.current) := hwal ▸ h.wal
  rcases h.snapshot with hkept | hkept
  · rw [hsnapshot] at hkept
    have hentry := optionRel_synced hkept
    exact ⟨snapshot, _, .inl rfl, ⟨hentry, h.synced.trans hentry, hwal⟩, hsurvives⟩
  · rw [hdurable] at hkept
    have hentry := optionRel_synced hkept
    exact ⟨snapshot', _, .inr rfl, ⟨hentry, h.synced.trans hentry, hwal⟩, hsurvives⟩

/-- Files that are on the disk survive. -/
theorem Steady.crashesTo (h : Steady d snapshot wal) (hrepresents : Represents snapshot wal state)
    (hallowed : allowed state) : CrashesTo allowed d := by
  intro d' hcrash
  obtain ⟨kept, wal', hkept, hsteady, hsurvives⟩ := crash_cases h.entry h.entryDurable hcrash
  obtain rfl : kept = snapshot := hkept.elim id id
  rw [h.log] at hsurvives
  have hsame := survives_synced hsurvives
  cases hsame
  exact ⟨state, hallowed, kept, wal, hsteady, hrepresents⟩

/-- The log is being cut or extended; every content between the two represents an allowed snapshot. -/
theorem crashesTo_of_wal {current durable} (hsnapshot : d.snapshot = snapshot.map File.synced)
    (hdurable : d.snapshotDurable = snapshot.map File.synced) (hwal : d.wal = ⟨current, durable⟩)
    (hbetween : ∀ wal, (wal <+: current ∨ wal <+: durable) →
      (∀ bytes, bytes <+: current → bytes <+: durable → bytes <+: wal) →
      ∃ state, allowed state ∧ Represents snapshot wal state) : CrashesTo allowed d := by
  intro d' hcrash
  obtain ⟨kept, wal, hkept, hsteady, hsurvives⟩ := crash_cases hsnapshot hdurable hcrash
  obtain rfl : kept = snapshot := hkept.elim id id
  rw [hwal] at hsurvives
  obtain ⟨state, hallowed, hrepresents⟩ := hbetween wal hsurvives.some hsurvives.common
  exact ⟨state, hallowed, kept, wal, hsteady, hrepresents⟩

/-! ## The calls -/

/-- The new snapshot is complete before it gets its name, and the log is emptied after that. -/
theorem guarded_compact (h : Steady d snapshot whole) (hcomplete : Complete snapshot whole (some stored))
    (hallowed : allowed (some stored)) :
    Guarded fsAnswer (CrashesTo allowed)
      (fun result d' => result = .ok () ∧ Steady d' (some (encodeStored stored)) []) (compact stored) d := by
  have hbefore : ∀ tmp, CrashesTo allowed { d with snapshotTmp := tmp } := fun tmp =>
    Steady.crashesTo ⟨h.entry, h.entryDurable, h.log⟩ hcomplete.represents hallowed
  have hrenamed : ∀ d₁ : Disk, d₁.snapshot = some (File.synced (encodeStored stored)) →
      d₁.snapshotDurable = snapshot.map File.synced → d₁.wal = File.synced whole → CrashesTo allowed d₁ := by
    intro d₁ hentry hdurable hlog d' hcrash
    have hentry' : d₁.snapshot = (some (encodeStored stored)).map File.synced := hentry
    obtain ⟨kept, wal, hkept, hsteady, hsurvives⟩ := crash_cases hentry' hdurable hcrash
    rw [hlog] at hsurvives
    cases survives_synced hsurvives
    refine ⟨some stored, hallowed, kept, whole, hsteady, ?_⟩
    rcases hkept with rfl | rfl
    · exact hcomplete.compacted.represents
    · exact hcomplete.represents
  have hemptied : ∀ d₁ : Disk, d₁.snapshot = some (File.synced (encodeStored stored)) →
      d₁.snapshotDurable = some (File.synced (encodeStored stored)) → d₁.wal = ⟨whole.take 0, whole⟩ →
      CrashesTo allowed d₁ := by
    intro d₁ hentry hdurable hlog
    have hentry' : d₁.snapshot = (some (encodeStored stored)).map File.synced := hentry
    refine crashesTo_of_wal hentry' hdurable hlog fun wal hpart _ => ⟨some stored, hallowed, ?_⟩
    apply hcomplete.compacted_part
    rcases hpart with hpart | hpart
    · exact hpart.trans (List.take_prefix _ _)
    · exact hpart
  have hafter : ∀ d₁ : Disk, Steady d₁ (some (encodeStored stored)) [] → CrashesTo allowed d₁ := fun d₁ hsteady =>
    hsteady.crashesTo (hcomplete.compacted_part (List.nil_prefix)) hallowed
  -- the temporary file is made and written, renamed, the directory synced, the log emptied
  refine And.intro (hbefore _) (And.intro (hbefore _) (And.intro (hbefore _) (And.intro (hbefore _)
    (And.intro ?_ (And.intro ?_ (And.intro ?_ (And.intro ?_ (And.intro ?_ (And.intro rfl ?_)))))))))
  · exact hrenamed _ rfl h.entryDurable h.log
  · exact Steady.crashesTo ⟨rfl, rfl, h.log⟩ hcomplete.compacted.represents hallowed
  · apply hemptied _ rfl rfl
    show File.mk (d.wal.current.take 0) d.wal.durable = _
    rw [h.log]
    rfl
  · exact hafter _ ⟨rfl, rfl, rfl⟩
  · exact hafter _ ⟨rfl, rfl, rfl⟩
  · exact ⟨rfl, rfl, rfl⟩

/-- Cutting off the torn end. -/
theorem guarded_truncateWal (h : Steady d snapshot (whole ++ tail)) (hcomplete : Complete snapshot whole state)
    (htail : Torn whole.length tail) (hallowed : allowed state) :
    Guarded fsAnswer (CrashesTo allowed) (fun result d' => result = .ok () ∧ Steady d' snapshot whole)
      (truncateWal (if tail = [] then none else some whole.length)) d := by
  have hbefore : CrashesTo allowed d := h.crashesTo ⟨whole, tail, rfl, hcomplete, htail⟩ hallowed
  by_cases hempty : tail = []
  · rw [if_pos hempty]
    rw [hempty, append_nil] at h
    exact ⟨hbefore, rfl, h⟩
  · rw [if_neg hempty]
    have hcut : (d.wal.current.take whole.length) = whole := by
      rw [h.log]
      exact take_left
    have hafter : Steady { d with wal := File.synced (d.wal.current.take whole.length) } snapshot whole :=
      ⟨h.entry, h.entryDurable, by rw [hcut]⟩
    refine And.intro hbefore (And.intro ?_ (And.intro ?_ (And.intro rfl hafter)))
    · have hwal : File.mk (d.wal.current.take whole.length) d.wal.durable = ⟨whole, whole ++ tail⟩ := by
        rw [hcut, h.log]
        rfl
      refine crashesTo_of_wal h.entry h.entryDurable hwal fun wal hpart hcommon => ?_
      obtain ⟨part, rfl⟩ := hcommon whole (prefix_refl _) (prefix_append _ _)
      refine ⟨state, hallowed, whole, part, rfl, hcomplete, ?_⟩
      rcases hpart with hpart | hpart
      · exact .inl (prefix_nil.mp ((prefix_append_right_inj whole).mp (by simpa using hpart)))
      · exact htail.part ((prefix_append_right_inj whole).mp hpart)
    · exact hafter.crashesTo hcomplete.represents hallowed

/-- What a load leaves: complete frames only, in a log that is no longer than it was. -/
def Loaded (limit : Nat) (state : Option Stored) (result : Result ReplayResult) (d : Disk) : Prop :=
  ∃ replay snapshot whole, result = .ok replay ∧ replay.state = state ∧ Steady d snapshot whole ∧
    Complete snapshot whole state ∧ whole.length ≤ limit

theorem guarded_compactLoaded {replay} (h : Steady d snapshot whole)
    (hcomplete : Complete snapshot whole replay.state) (hallowed : allowed replay.state) :
    Guarded fsAnswer (CrashesTo allowed) (Loaded whole.length replay.state) (compactLoaded replay) d := by
  have hcrash := h.crashesTo hcomplete.represents hallowed
  have hkept : Loaded whole.length replay.state (.ok replay) d :=
    ⟨replay, snapshot, whole, rfl, rfl, h, hcomplete, Nat.le_refl _⟩
  unfold compactLoaded
  split
  · exact ⟨hcrash, hkept⟩
  · next stored hstate =>
    split
    · rw [guarded_bind]
      rw [hstate] at hcomplete hallowed ⊢
      refine (guarded_compact h hcomplete hallowed).mono (fun _ h => h) fun result d' hresult => ?_
      obtain ⟨rfl, hsteady⟩ := hresult
      have hempty : Complete (some (encodeStored stored)) (encodeAll []) (some stored) :=
        complete_of_old hcomplete.size (by simp) (by simp)
      exact ⟨hsteady.crashesTo hempty.represents hallowed, _, _, [], rfl, rfl, hsteady, hempty, Nat.zero_le _⟩
    · exact ⟨hcrash, hkept⟩

theorem guarded_loadInner (h : Rests d state) (hallowed : allowed state) :
    Guarded fsAnswer (CrashesTo allowed) (Loaded d.wal.current.length state) loadInner d := by
  obtain ⟨snapshot, wal, hsteady, whole, tail, rfl, hcomplete, htail⟩ := h
  have hcrash := hsteady.crashesTo ⟨whole, tail, rfl, hcomplete, htail⟩ hallowed
  obtain ⟨replay, hread, hstate, htruncate⟩ := hcomplete.read htail
  have hread' : readFiles (d.snapshot.map File.current) d.wal.current = .ok replay := by
    rw [hsteady.entry, hsteady.log, Option.map_map]
    simpa [Function.comp_def, File.synced] using hread
  refine And.intro hcrash (And.intro hcrash ?_)
  show Guarded fsAnswer _ _ (Prog.lift (readFiles (d.snapshot.map File.current) d.wal.current) >>= fun replay =>
    truncateWal replay.truncateAt >>= fun _ => compactLoaded replay) d
  rw [hread']
  show Guarded fsAnswer _ _ (truncateWal replay.truncateAt >>= fun _ => compactLoaded replay) d
  rw [htruncate, guarded_bind]
  refine (guarded_truncateWal hsteady hcomplete htail hallowed).mono (fun _ h => h) fun result d' hresult => ?_
  obtain ⟨rfl, hsteady'⟩ := hresult
  rw [← hstate] at hcomplete hallowed ⊢
  refine (guarded_compactLoaded hsteady' hcomplete hallowed).mono (fun _ h => h) fun result d'' hloaded => ?_
  obtain ⟨replay', snapshot', whole', hresult, hstate', hsteady'', hcomplete', hle⟩ := hloaded
  refine ⟨replay', snapshot', whole', hresult, hstate', hsteady'', hcomplete', ?_⟩
  have hlength : d.wal.current.length = whole.length + tail.length := by
    rw [hsteady.log, ← length_append]
    rfl
  omega

/-- A new version is appended as a whole or not at all. -/
theorem guarded_appendVersion {loaded version} (h : Steady d snapshot whole)
    (hcomplete : Complete snapshot whole state) (hnext : (versionOf state).toNat + 1 = version.toNat)
    (hsize : whole.length + (encodeStored (version, bytes)).length < 2 ^ 64) (hallowed : allowed state)
    (hallowed' : allowed (some (version, bytes))) :
    Guarded fsAnswer (CrashesTo allowed) (fun result d' => result = .ok version ∧ Rests d' (some (version, bytes)))
      (appendVersion loaded version bytes) d := by
  have happended := hcomplete.append hnext hsize
  have hsynced : Steady { d with wal := File.synced (d.wal.current ++ encodeStored (version, bytes)) } snapshot
      (whole ++ encodeStored (version, bytes)) := by
    refine ⟨h.entry, h.entryDurable, ?_⟩
    rw [h.log]
    rfl
  have hsteady := hsynced.crashesTo happended.represents hallowed'
  refine And.intro (h.crashesTo hcomplete.represents hallowed) (And.intro ?_ ?_)
  · have hwal : File.mk (d.wal.current ++ encodeStored (version, bytes)) d.wal.durable =
        ⟨whole ++ encodeStored (version, bytes), whole⟩ := by
      rw [h.log]
      rfl
    refine crashesTo_of_wal h.entry h.entryDurable hwal fun wal hpart hcommon => ?_
    obtain ⟨part, rfl⟩ := hcommon whole (prefix_append _ _) (prefix_refl _)
    by_cases hall : part = encodeStored (version, bytes)
    · rw [hall]
      exact ⟨_, hallowed', happended.represents⟩
    · refine ⟨state, hallowed, whole, part, rfl, hcomplete, ?_⟩
      rcases hpart with hpart | hpart
      · exact .inr ⟨⟨version, bytes⟩, (prefix_append_right_inj whole).mp hpart, hall, hsize⟩
      · exact .inl (prefix_nil.mp ((prefix_append_right_inj whole).mp (by simpa using hpart)))
  · show Guarded fsAnswer _ _ (if shouldCompact (loaded.completeWalFrames + 1)
      (loaded.completeWalBytes + frameLen bytes) then (do compact (version, bytes); pure version) else pure version) _
    split
    · rw [guarded_bind]
      refine (guarded_compact hsynced happended hallowed').mono (fun _ h => h) fun result d' hresult => ?_
      obtain ⟨rfl, hsteady'⟩ := hresult
      have hempty := happended.compacted_part (List.nil_prefix)
      exact ⟨hsteady'.crashesTo hempty hallowed', rfl, _, _, hsteady', hempty⟩
    · exact ⟨hsteady, rfl, _, _, hsynced, happended.represents⟩

/-- What a commit answers and leaves. -/
inductive CommitAnswer (state : Option Stored) (expected : UInt64) (bytes : List UInt8) :
    Result UInt64 → Option Stored → Prop
  | acknowledged (version : UInt64) (hexpected : expected = versionOf state)
      (hnext : expected.toNat + 1 = version.toNat) :
      CommitAnswer state expected bytes (.ok version) (some (version, bytes))
  | refused (e : Error) (h : expected = versionOf state → expected = .maxValue) :
      CommitAnswer state expected bytes (.error e) state

theorem checkedAdd_one_eq_none {a : UInt64} (h : a.checkedAdd 1 = none) : a = .maxValue := by
  rw [UInt64.checkedAdd] at h
  split at h
  · cases h
  · next hlarge =>
    rw [← UInt64.toNat_inj, UInt64.toNat_maxValue]
    have := a.toNat_lt
    have hone : (1 : UInt64).toNat = 1 := rfl
    simp only [UInt64.size] at hlarge
    omega

theorem guarded_commit {expected : UInt64} (h : Rests d state)
    (hsize : d.wal.current.length + frameLen bytes < 2 ^ 64) (hallowed : allowed state)
    (hallowed' : ∀ version, expected = versionOf state → expected.toNat + 1 = version.toNat →
      allowed (some (version, bytes))) :
    Guarded fsAnswer (CrashesTo allowed)
      (fun result d' => ∃ state', CommitAnswer state expected bytes result state' ∧ Rests d' state')
      (commit expected bytes) d := by
  unfold commit
  rw [guarded_bind]
  refine (guarded_loadInner h hallowed).mono (fun _ h => h) fun result d' hloaded => ?_
  obtain ⟨replay, snapshot, whole, rfl, rfl, hsteady, hcomplete, hle⟩ := hloaded
  have hcrash := hsteady.crashesTo hcomplete.represents hallowed
  have hrests : Rests d' replay.state := ⟨snapshot, whole, hsteady, hcomplete.represents⟩
  simp only
  split
  · next hversion => exact ⟨hcrash, _, .refused _ fun heq => absurd heq.symm hversion, hrests⟩
  · next hversion =>
    have hexpected : expected = versionOf replay.state := (not_not.mp hversion).symm
    split
    · next hoverflow => exact ⟨hcrash, _, .refused _ fun _ => checkedAdd_one_eq_none hoverflow, hrests⟩
    · next version hchecked =>
      have hnext : expected.toNat + 1 = version.toNat := UInt64.checkedAdd_eq_some.mp hchecked
      have hfits : whole.length + (encodeStored (version, bytes)).length < 2 ^ 64 := by
        rw [encodeStored, length_encodeFrame]
        rw [frameLen, frameHeaderLen] at hsize
        show whole.length + (28 + bytes.length) < 2 ^ 64
        omega
      refine (guarded_appendVersion hsteady hcomplete (hexpected ▸ hnext) hfits hallowed
        (hallowed' version hexpected hnext)).mono (fun _ h => h) fun result d'' hresult => ?_
      obtain ⟨rfl, hrests'⟩ := hresult
      exact ⟨_, .acknowledged version hexpected hnext, hrests'⟩

/-! ## Runs -/

inductive Call
  | load
  | commit (expectedVersion : UInt64) (bytes : List UInt8)

inductive Answer
  | loaded (state : Option Stored)
  | acknowledged (version : UInt64)

def Call.prog : Call → FsProg Answer
  | .load => do
    let state ← LocalFile.load
    pure (.loaded state)
  | .commit expectedVersion bytes => do
    let version ← LocalFile.commit expectedVersion bytes
    pure (.acknowledged version)

/-- The log stays smaller than 2⁶⁴ bytes. -/
def Call.Fits (d : Disk) : Call → Prop
  | .load => True
  | .commit _ bytes => d.wal.current.length + frameLen bytes < 2 ^ 64

/-- A call that has finished with a result, or was interrupted by a crash. -/
inductive Event
  | finished (call : Call) (result : Result Answer)
  | crashed (call : Call)

inductive BackendStep : Disk → Event → Disk → Prop
  | finished (d : Disk) (call : Call) (hfits : call.Fits d) :
      BackendStep d (.finished call (call.prog.exec fsAnswer d).1) (call.prog.exec fsAnswer d).2
  | crashed (d : Disk) (call : Call) (mid d' : Disk) (hfits : call.Fits d) (hstops : call.prog.Stops fsAnswer d mid)
      (hcrash : mid.Crash d') : BackendStep d (.crashed call) d'

inductive BackendRun : Disk → List Event → Disk → Prop
  | refl (d : Disk) : BackendRun d [] d
  | step {d d' d'' : Disk} {events : List Event} {event : Event} (run : BackendRun d events d')
      (step : BackendStep d' event d'') : BackendRun d (events ++ [event]) d''

/-- **The specification**: one snapshot. A load returns it. A commit that expects its version replaces it by the next
    one and is acknowledged; a commit that is interrupted may have replaced it. -/
inductive SnapshotStep : Option Stored → Event → Option Stored → Prop
  | loaded (state : Option Stored) : SnapshotStep state (.finished .load (.ok (.loaded state))) state
  | committed (state : Option Stored) (version : UInt64) (bytes : List UInt8)
      (hnext : (versionOf state).toNat + 1 = version.toNat) :
      SnapshotStep state (.finished (.commit (versionOf state) bytes) (.ok (.acknowledged version)))
        (some (version, bytes))
  | refused (state : Option Stored) (expected : UInt64) (bytes : List UInt8) (e : Error)
      (h : expected = versionOf state → expected = .maxValue) :
      SnapshotStep state (.finished (.commit expected bytes) (.error e)) state
  | interrupted (state : Option Stored) (call : Call) : SnapshotStep state (.crashed call) state
  | inFlight (state : Option Stored) (version : UInt64) (bytes : List UInt8)
      (hnext : (versionOf state).toNat + 1 = version.toNat) :
      SnapshotStep state (.crashed (.commit (versionOf state) bytes)) (some (version, bytes))

inductive SnapshotRun : Option Stored → List Event → Option Stored → Prop
  | refl (state : Option Stored) : SnapshotRun state [] state
  | step {state state' state'' : Option Stored} {events : List Event} {event : Event}
      (run : SnapshotRun state events state') (step : SnapshotStep state' event state'') :
      SnapshotRun state (events ++ [event]) state''

theorem guarded_load (h : Rests d state) (hallowed : allowed state) :
    Guarded fsAnswer (CrashesTo allowed) (fun result d' => result = .ok state ∧ Rests d' state) load d := by
  unfold load
  rw [guarded_bind]
  refine (guarded_loadInner h hallowed).mono (fun _ h => h) fun result d' hloaded => ?_
  obtain ⟨replay, snapshot, whole, rfl, rfl, hsteady, hcomplete, -⟩ := hloaded
  exact ⟨hsteady.crashesTo hcomplete.represents hallowed, rfl, snapshot, whole, hsteady, hcomplete.represents⟩

/-- A call does what the specification allows, whether it finishes or is interrupted. -/
theorem guarded_call {call} (h : Rests d state) (hfits : call.Fits d) :
    Guarded fsAnswer (CrashesTo (SnapshotStep state (.crashed call)))
      (fun result d' => ∃ state', SnapshotStep state (.finished call result) state' ∧ Rests d' state') call.prog d := by
  cases call with
  | load =>
    unfold Call.prog
    rw [guarded_bind]
    refine (guarded_load h (.interrupted state .load)).mono (fun _ h => h) fun result d' hresult => ?_
    obtain ⟨rfl, snapshot, wal, hsteady, hrepresents⟩ := hresult
    exact ⟨hsteady.crashesTo hrepresents (.interrupted state .load), state, .loaded state, snapshot, wal, hsteady,
      hrepresents⟩
  | commit expected bytes =>
    have hallowed : ∀ version, expected = versionOf state → expected.toNat + 1 = version.toNat →
        SnapshotStep state (.crashed (.commit expected bytes)) (some (version, bytes)) := by
      rintro version rfl hnext
      exact .inFlight state version bytes hnext
    unfold Call.prog
    rw [guarded_bind]
    refine (guarded_commit h hfits (.interrupted state _) hallowed).mono (fun _ h => h) fun result d' hanswer => ?_
    obtain ⟨state', hanswer, snapshot, wal, hsteady, hrepresents⟩ := hanswer
    cases hanswer with
    | acknowledged version hexpected hnext =>
      refine ⟨hsteady.crashesTo hrepresents (hallowed version hexpected hnext), _, ?_, snapshot, wal, hsteady,
        hrepresents⟩
      subst hexpected
      exact .committed state version bytes hnext
    | refused e hrefused => exact ⟨_, .refused state expected bytes e hrefused, snapshot, wal, hsteady, hrepresents⟩

theorem BackendStep.simulates {event} (h : BackendStep d event d') (hrests : Rests d state) :
    ∃ state', SnapshotStep state event state' ∧ Rests d' state' := by
  cases h with
  | finished call hfits => exact (guarded_call hrests hfits).exec
  | crashed call mid _ hfits hstops hcrash => exact (guarded_call hrests hfits).stops hstops d' hcrash

theorem BackendRun.simulates {events} (h : BackendRun d events d') (hrests : Rests d state) :
    ∃ state', SnapshotRun state events state' ∧ Rests d' state' := by
  induction h with
  | refl => exact ⟨state, .refl state, hrests⟩
  | step run step ih =>
    obtain ⟨state', hrun, hrests'⟩ := ih
    obtain ⟨state'', hstep, hrests''⟩ := step.simulates hrests'
    exact ⟨state'', .step hrun hstep, hrests''⟩

theorem rests_empty : Rests .empty none :=
  ⟨none, [], ⟨rfl, rfl, rfl⟩, complete_empty.represents⟩

/-- **Crash consistency.** Every run of the backend, with commits, compactions, loads and crashes at any point, is a
    run of the specification: a load then returns the snapshot of the last acknowledged commit or of one that was
    interrupted after it. The next commit continues from the version of that snapshot, and a load after it returns its
    snapshot. -/
theorem crash_consistency {events : List Event} (h : BackendRun .empty events d) :
    ∃ state, SnapshotRun none events state ∧ (load.exec fsAnswer d).1 = .ok state ∧
      ∀ (bytes : List UInt8) (version : UInt64), (versionOf state).toNat + 1 = version.toNat →
        d.wal.current.length + frameLen bytes < 2 ^ 64 →
        ((commit (versionOf state) bytes).exec fsAnswer d).1 = .ok version ∧
        (load.exec fsAnswer ((commit (versionOf state) bytes).exec fsAnswer d).2).1 = .ok (some (version, bytes)) := by
  obtain ⟨state, hrun, hrests⟩ := h.simulates rests_empty
  have hload : ∀ {d state}, Rests d state → (load.exec fsAnswer d).1 = .ok state := by
    intro d state hrests
    have hguarded : Guarded fsAnswer (CrashesTo fun _ => True) _ load d := guarded_load hrests trivial
    exact hguarded.exec.1
  refine ⟨state, hrun, hload hrests, fun bytes version hnext hsize => ?_⟩
  have hcommit : Guarded fsAnswer (CrashesTo fun _ => True) _ (commit (versionOf state) bytes) d :=
    guarded_commit hrests hsize trivial fun _ _ _ => trivial
  obtain ⟨state', hanswer, hrests'⟩ := hcommit.exec
  generalize ((commit (versionOf state) bytes).exec fsAnswer d).1 = result at hanswer ⊢
  cases hanswer with
  | acknowledged version' _ hnext' =>
    have hversion : version' = version := by
      rw [← UInt64.toNat_inj]
      omega
    subst hversion
    exact ⟨rfl, hload hrests'⟩
  | refused e hrefused =>
    have hmax := hrefused rfl
    rw [hmax, UInt64.toNat_maxValue] at hnext
    have := version.toNat_lt
    omega

/-- A commit that is interrupted before it has written anything, and one that is acknowledged. -/
theorem crash_consistency_after_commit :
    ∃ events d, BackendRun .empty events d ∧ SnapshotRun none events (some (1, [65])) ∧
      (load.exec fsAnswer d).1 = .ok (some (1, [65])) := by
  have hcrash : Disk.Crash .empty .empty :=
    ⟨rfl, .inl .none, rfl, .inl (prefix_refl _), fun _ h _ => h⟩
  have hfirst := BackendRun.step (.refl .empty) (.crashed .empty (.commit 0 [66]) .empty .empty
    (show 0 + frameLen [66] < 2 ^ 64 by decide) (.here _ _) hcrash)
  have hrun := BackendRun.step hfirst (.finished .empty (.commit 0 [65]) (show 0 + frameLen [65] < 2 ^ 64 by decide))
  have hload : (load.exec fsAnswer ((Call.commit 0 [65]).prog.exec fsAnswer .empty).2).1 = .ok (some (1, [65])) := by
    decide +kernel
  obtain ⟨state, hspec, hstate, -⟩ := crash_consistency hrun
  cases hstate
  exact ⟨_, _, hrun, hspec, hload⟩

end Afs.LocalFile
