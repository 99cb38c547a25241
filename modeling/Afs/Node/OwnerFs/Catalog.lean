import Afs.Error
import Afs.Lib.Crash
import Mathlib.Data.List.AList
import Mathlib.Data.List.Sort

/-!
# `Node.OwnerFs.Catalog` — the records of the local roots and power loss

A node keeps one file for each of its roots in the directory `.ownerfs-roots`: written to a temporary file, synced and
renamed. The disk has the directory as it is seen and as it is known to be on the disk. `sync_root` syncs the directory
*above* it: after that the directory itself survives, but none of its entries does for that reason. So the durable
entries are those that the system has written back by itself or an earlier crash has left, whatever the calls answered
(`catalog_survives_power_loss_iff`).
-/

namespace Afs

open Interaction

namespace OwnerFs

structure LocalRootRecord where
  id : String
  name : List UInt8
  epoch : UInt64
  (dataDir localPrepareId : String)
  deriving DecidableEq

def invalidGrant (message : String) : Error := ⟨.nodeOwnerInvalidGrant, message⟩

/-! ## The disk -/

/-- A file: what a reader sees, and what survives. It is empty or holds the text of a record. -/
structure RootFile where
  (current durable : Option LocalRootRecord)

abbrev RecordFiles := AList fun _ : String => RootFile

/-- The catalog directory with its record files by root: as it is seen, and what of it survives. -/
structure CatalogDisk where
  (dir dirDurable : Bool)
  (files durable : RecordFiles)
  temp : RootFile

/-- What survives of a file. -/
def RootFile.settled (file : RootFile) : RootFile := ⟨file.durable, file.durable⟩

/-- The system writes back by itself: the directory may become durable, and in a durable directory entries as they are
    seen. -/
structure CatalogDisk.WrittenBack (d d' : CatalogDisk) : Prop where
  dirDurable : d'.dirDurable = d.dir ∨ d'.dirDurable = d.dirDurable
  entries : ∀ id, d'.durable.lookup id = d.files.lookup id ∧ d'.dirDurable = true ∨
    d'.durable.lookup id = d.durable.lookup id
  seen : d'.files = d.files ∧ d'.dir = d.dir ∧ d'.temp = d.temp

/-- **Power loss.** A directory that is not durable may be lost with its entries. In one that is not lost, an entry that
    differs from the durable one may have reached the disk or not, each for itself. -/
structure CatalogDisk.Crash (d d' : CatalogDisk) : Prop where
  dir : d'.dir = d.dir ∨ d.dirDurable = false ∧ d'.dir = false
  lost : d'.dir = false → ∀ id, d'.files.lookup id = none
  entries : d'.dir = true → ∀ id, d'.files.lookup id = (d.files.lookup id).map RootFile.settled ∨
    d'.files.lookup id = (d.durable.lookup id).map RootFile.settled
  settled : d'.durable = d'.files ∧ d'.dirDurable = d'.dir

inductive CatalogOp
  | mkdir | syncRoot
  | read (id : String)
  | createTemp
  | writeTemp (record : LocalRootRecord)
  | syncTemp
  | renameTemp (id : String)
  | removeFile (id : String)
  | readDir

/-- Whether the directory is new, the content of a file, whether there was a file, the contents of the `.json` files. -/
def CatalogOp.Reply : CatalogOp → Type
  | .mkdir | .removeFile _ => Bool
  | .read _ => Option (Option LocalRootRecord)
  | .readDir => List (Option LocalRootRecord)
  | .syncRoot | .createTemp | .writeTemp _ | .syncTemp | .renameTemp _ => Unit

def catalogAnswer (d : CatalogDisk) : (o : CatalogOp) → o.Reply × CatalogDisk
  | .mkdir => (!d.dir, { d with dir := true })
  -- The entries of the root directory are on the disk now. Those of the catalog directory are not among them.
  | .syncRoot => ((), { d with dirDurable := d.dir })
  | .read id => ((d.files.lookup id).map RootFile.current, d)
  | .createTemp => ((), { d with temp := ⟨none, none⟩ })
  | .writeTemp record => ((), { d with temp := { d.temp with current := some record } })
  | .syncTemp => ((), { d with temp := ⟨d.temp.current, d.temp.current⟩ })
  | .renameTemp id => ((), { d with files := d.files.insert id d.temp })
  | .removeFile id => ((d.files.lookup id).isSome, { d with files := d.files.erase id })
  | .readDir => (d.files.entries.map (·.2.current), d)

/-! ## The calls -/

abbrev CatalogProg := Prog CatalogOp CatalogOp.Reply Error

def ensureDir : CatalogProg Unit := do
  let created : Bool ← Prog.op CatalogOp.mkdir
  if created then Prog.op CatalogOp.syncRoot else pure ()

/-- `read_record` of the file, if there is one. -/
def readRecord : Option (Option LocalRootRecord) → Result LocalRootRecord
  | some (some record) => .ok record
  | some none => .error ⟨.ioInvalid, "invalid local root record: EOF while parsing a value at line 1 column 0"⟩
  | none => .error ⟨.ioNotFound, "No such file or directory"⟩

def writeRecord (record : LocalRootRecord) : CatalogProg Unit := do
  Prog.op CatalogOp.createTemp
  Prog.op (CatalogOp.writeTemp record)
  Prog.op CatalogOp.syncTemp
  Prog.op (CatalogOp.renameTemp record.id)
  Prog.op CatalogOp.syncRoot

/-- `metadata` is what the storage answers for the data directory: whether it is a directory. -/
def persistPreparedRoot (metadata : Result Bool) (record : LocalRootRecord) : CatalogProg Unit := do
  ensureDir
  let content : Option (Option LocalRootRecord) ← Prog.op (CatalogOp.read record.id)
  match readRecord content with
  | .ok existing =>
    if existing = record then pure () else throw (invalidGrant "conflicting local root record already exists")
  | .error e =>
    if e.code = .ioNotFound then do
      let isDir ← Prog.lift metadata
      Prog.check isDir (invalidGrant "local root record points to a non-directory")
      writeRecord record
    else throw e

def removePreparedRoot (record : LocalRootRecord) : CatalogProg Unit := do
  let content : Option (Option LocalRootRecord) ← Prog.op (CatalogOp.read record.id)
  match readRecord content with
  | .ok existing =>
    if existing = record then do
      let removed : Bool ← Prog.op (CatalogOp.removeFile record.id)
      if removed then Prog.op CatalogOp.syncRoot else pure ()
    else throw (invalidGrant "local root record changed before prepared cleanup")
  | .error e => if e.code = .ioNotFound then pure () else throw e

def scanRoots : CatalogProg (List LocalRootRecord) := do
  ensureDir
  let files : List (Option LocalRootRecord) ← Prog.op CatalogOp.readDir
  let records ← Prog.lift (files.mapM fun content => readRecord (some content))
  pure (records.insertionSort fun left right => left.id ≤ right.id)

inductive CatalogCall
  | persist (metadata : Result Bool) (record : LocalRootRecord)
  | remove (record : LocalRootRecord)

def CatalogCall.prog : CatalogCall → CatalogProg Unit
  | .persist metadata record => persistPreparedRoot metadata record
  | .remove record => removePreparedRoot record

/-- A call finishes, or ends early with an I/O error; entries are written back; or the power fails. -/
inductive CatalogStep (allowed : CatalogCall → Prop) : CatalogDisk → CatalogDisk → Prop
  | finished (d : CatalogDisk) (call : CatalogCall) (h : allowed call) :
      CatalogStep allowed d (call.prog.exec catalogAnswer d).2
  | gaveUp {d d' : CatalogDisk} (call : CatalogCall) (h : allowed call)
    (hstops : call.prog.Stops catalogAnswer d d') :
      CatalogStep allowed d d'
  | writtenBack {d d' : CatalogDisk} (h : d.WrittenBack d') : CatalogStep allowed d d'
  | crashed {d d' : CatalogDisk} (h : d.Crash d') : CatalogStep allowed d d'

def CatalogRun (allowed : CatalogCall → Prop) : CatalogDisk → CatalogDisk → Prop :=
  Relation.ReflTransGen (CatalogStep allowed)

/-- The file as `write_record` leaves it: synced before it gets its name. -/
def recordFile (record : LocalRootRecord) : RootFile := ⟨some record, some record⟩

/-- The catalog holds only records, each under the name of its root, in a directory that is there, and what is durable
    in a durable directory. -/
structure Catalogued (d : CatalogDisk) : Prop where
  records : ∀ id file, d.files.lookup id = some file ∨ d.durable.lookup id = some file →
    d.dir = true ∧ ∃ record, record.id = id ∧ file = recordFile record
  durable : ∀ id file, d.durable.lookup id = some file → d.dirDurable = true

section

variable (d : CatalogDisk) (record : LocalRootRecord)

def Shows : Prop :=
  d.files.lookup record.id = some (recordFile record)

/-- The record and its entry are known to be on the disk. -/
def Durable : Prop :=
  d.durable.lookup record.id = some (recordFile record)

/-- `scan_roots` succeeds and finds the record. -/
def Finds : Prop :=
  ∃ records, (scanRoots.exec catalogAnswer d).1 = .ok records ∧ record ∈ records

end

/-- The directory stays, with its durable entries. -/
structure Kept (d d' : CatalogDisk) : Prop where
  dir : d.dir = true → d'.dir = true
  dirDurable : d.dir = true → d.dirDurable = true → d'.dirDurable = true
  durable : d'.durable = d.durable

/-- What a call may do: the durable entries stay, and of the records that are seen only its own may come or go. -/
structure Turn (call : CatalogCall) (d d' : CatalogDisk) : Prop where
  durable : d'.durable = d.durable
  catalogued : Catalogued d'
  comes : ∀ record, Shows d' record → Shows d record ∨ ∃ metadata, call = .persist metadata record
  goes : ∀ record, Shows d record → Shows d' record ∨ call = .remove record

/-! ## What the calls do -/

variable {call : CatalogCall} {record other : LocalRootRecord} {d d' d₁ : CatalogDisk}
  {metadata : Result Bool}

theorem recordFile_injective (h : recordFile record = recordFile other) : record = other :=
  Option.some.inj (congrArg RootFile.current h)

theorem Kept.refl (d : CatalogDisk) : Kept d d := ⟨id, fun _ => id, rfl⟩

theorem Kept.op (h : Kept d d') (o : CatalogOp) : Kept d (catalogAnswer d' o).2 := by
  cases o with
  | mkdir => exact ⟨fun _ => rfl, h.dirDurable, h.durable⟩
  | syncRoot => exact ⟨h.dir, fun hdir _ => h.dir hdir, h.durable⟩
  | _ => exact ⟨h.dir, h.dirDurable, h.durable⟩

/-- What is durable stays in a durable directory. -/
theorem Kept.catalogued (hd : Catalogued d) (h : Kept d d')
    (hfiles : ∀ id file, d'.files.lookup id = some file →
      d'.dir = true ∧ ∃ record, record.id = id ∧ file = recordFile record) : Catalogued d' where
  records := by
    rintro id file (hfile | hfile)
    · exact hfiles id file hfile
    · rw [h.durable] at hfile
      exact (hd.records id file (.inr hfile)).imp_left h.dir
  durable := by
    intro id file hfile
    rw [h.durable] at hfile
    exact h.dirDurable (hd.records id file (.inr hfile)).1 (hd.durable id file hfile)

theorem Turn.same (hd : Catalogued d) (hkept : Kept d d') (hfiles : d'.files = d.files) : Turn call d d' := by
  refine ⟨hkept.durable, hkept.catalogued hd fun id file hfile => ?_, ?_, ?_⟩
  · rw [hfiles] at hfile
    exact (hd.records id file (.inl hfile)).imp_left hkept.dir
  · exact fun record hshows => .inl (by rwa [Shows, ← hfiles])
  · exact fun record hshows => .inl (by rwa [Shows, hfiles])

theorem Turn.write (hd : Catalogued d) (hkept : Kept d d') (hdir : d'.dir = true)
    (hnone : d.files.lookup record.id = none) (hfiles : d'.files = d.files.insert record.id (recordFile record)) :
    Turn (.persist metadata record) d d' := by
  have hlookup : ∀ id, d'.files.lookup id = if id = record.id then some (recordFile record) else d.files.lookup id := by
    intro id
    by_cases hid : id = record.id
    · subst hid
      simp [hfiles]
    · simp [hfiles, AList.lookup_insert_ne hid, hid]
  refine ⟨hkept.durable, hkept.catalogued hd fun id file hfile => ⟨hdir, ?_⟩, fun other hshows => ?_,
    fun other hshows => .inl ?_⟩
  · rw [hlookup] at hfile
    split at hfile
    · next heq => exact ⟨record, heq.symm, (Option.some.inj hfile).symm⟩
    · exact (hd.records id file (.inl hfile)).2
  · rw [Shows, hlookup] at hshows
    split at hshows
    · exact .inr ⟨metadata, by rw [recordFile_injective (Option.some.inj hshows)]⟩
    · exact .inl hshows
  · rw [Shows, hlookup, if_neg]
    · exact hshows
    · intro heq
      rw [← heq, show d.files.lookup other.id = some _ from hshows] at hnone
      cases hnone

theorem Turn.erase (hd : Catalogued d) (hkept : Kept d d') (hfiles : d'.files = d.files.erase record.id)
    (hshows : Shows d record) : Turn (.remove record) d d' ∧ ¬Shows d' record := by
  have hlookup : ∀ id file, d'.files.lookup id = some file ↔ id ≠ record.id ∧ d.files.lookup id = some file := by
    intro id file
    by_cases hid : id = record.id
    · subst hid
      simp [hfiles]
    · simp [hfiles, AList.lookup_erase_ne hid, hid]
  refine ⟨⟨hkept.durable, hkept.catalogued hd fun id file hfile => ?_, fun other hother => ?_, fun other hother => ?_⟩,
    fun hother => ?_⟩
  · exact (hd.records id file (.inl ((hlookup _ _).mp hfile).2)).imp_left hkept.dir
  · exact .inl ((hlookup _ _).mp hother).2
  · by_cases hid : other.id = record.id
    · rw [Shows, hid, show d.files.lookup record.id = some _ from hshows] at hother
      exact .inr (by rw [recordFile_injective (Option.some.inj hother)])
    · exact .inl ((hlookup _ _).mpr ⟨hid, hother⟩)
  · exact ((hlookup _ _).mp hother).1 rfl

theorem guarded_ensureDir (d : CatalogDisk) :
    Guarded catalogAnswer (fun d' => d'.files = d.files ∧ Kept d d')
      (fun result d' => result = .ok () ∧ d'.files = d.files ∧ Kept d d' ∧ d'.dir = true) ensureDir d := by
  have hmade := (Kept.refl d).op .mkdir
  refine ⟨⟨rfl, .refl d⟩, ?_⟩
  show Guarded catalogAnswer _ _ (if !d.dir then Prog.op CatalogOp.syncRoot else pure ()) _
  split
  · exact ⟨⟨rfl, hmade⟩, ⟨rfl, hmade.op _⟩, rfl, rfl, hmade.op _, rfl⟩
  · exact ⟨⟨rfl, hmade⟩, rfl, rfl, hmade, rfl⟩

/-- What a call finds under the name of a root: nothing, or a record of that root. -/
theorem Catalogued.read (hd : Catalogued d) (id : String) :
    d.files.lookup id = none ∨ ∃ record, record.id = id ∧ Shows d record ∧
      readRecord ((d.files.lookup id).map RootFile.current) = .ok record := by
  cases hfile : d.files.lookup id with
  | none => exact .inl rfl
  | some file =>
    obtain ⟨-, record, rfl, rfl⟩ := hd.records id file (.inl hfile)
    exact .inr ⟨record, rfl, hfile, rfl⟩

theorem guarded_persistPreparedRoot (hd : Catalogued d) (metadata : Result Bool) (record : LocalRootRecord) :
    Guarded catalogAnswer (Turn (.persist metadata record) d)
      (fun result d' => Turn (.persist metadata record) d d' ∧ (result = .ok () → Shows d' record))
      (persistPreparedRoot metadata record) d := by
  unfold persistPreparedRoot
  rw [guarded_bind]
  refine (guarded_ensureDir d).mono (fun _ h => .same hd h.2 h.1) ?_
  rintro _ d₁ ⟨rfl, hfiles, hkept, hdir⟩
  have hturn : Turn (.persist metadata record) d d₁ := .same hd hkept hfiles
  refine ⟨hturn, ?_⟩
  show Guarded catalogAnswer _ _ (match readRecord ((d₁.files.lookup record.id).map RootFile.current) with
    | .ok existing => _
    | .error e => _) d₁
  rw [hfiles]
  rcases hd.read record.id with hnone | ⟨found, hid, hshows, hfound⟩
  · rw [hnone]
    cases metadata with
    | error e => exact ⟨hturn, hturn, nofun⟩
    | ok isDir =>
      cases isDir with
      | false => exact ⟨hturn, hturn, nofun⟩
      | true =>
        -- the file gets its name before the last `sync_root`, which changes no entry
        have hwritten : d₁.files.insert record.id (recordFile record) =
            d.files.insert record.id (recordFile record) := by rw [hfiles]
        have hcreated := hkept.op .createTemp
        have hsynced := (hcreated.op (.writeTemp record)).op .syncTemp
        have hnamed := hsynced.op (.renameTemp record.id)
        exact ⟨hturn, .same hd hcreated hfiles, .same hd (hcreated.op _) hfiles, .same hd hsynced hfiles,
          .write hd hnamed hdir hnone hwritten, .write hd (hnamed.op _) hdir hnone hwritten,
          .write hd (hnamed.op _) hdir hnone hwritten, fun _ => AList.lookup_insert _⟩
  · rw [hfound]
    show Guarded catalogAnswer _ _ (if found = record then pure () else throw _) d₁
    split
    · next heq => exact ⟨hturn, hturn, fun _ => by rw [Shows, hfiles, ← heq, hshows]⟩
    · exact ⟨hturn, hturn, nofun⟩

theorem guarded_removePreparedRoot (hd : Catalogued d) (record : LocalRootRecord) :
    Guarded catalogAnswer (Turn (.remove record) d)
      (fun result d' => Turn (.remove record) d d' ∧ (result = .ok () → ¬Shows d' record))
      (removePreparedRoot record) d := by
  have hturn : Turn (.remove record) d d := .same hd (.refl d) rfl
  refine ⟨hturn, ?_⟩
  show Guarded catalogAnswer _ _ (match readRecord ((d.files.lookup record.id).map RootFile.current) with
    | .ok existing => _
    | .error e => _) d
  rcases hd.read record.id with hnone | ⟨found, hid, hshows, hfound⟩
  · rw [hnone]
    refine ⟨hturn, hturn, fun _ hshows => ?_⟩
    cases hnone.symm.trans hshows
  rw [hfound]
  show Guarded catalogAnswer _ _ (if found = record then _ else throw _) d
  split
  · next heq =>
    subst heq
    refine ⟨hturn, ?_⟩
    show Guarded catalogAnswer _ _ (if (d.files.lookup found.id).isSome then Prog.op CatalogOp.syncRoot else pure ()) _
    rw [show d.files.lookup found.id = some _ from hshows]
    have hremoved := (Kept.refl d).op (.removeFile found.id)
    obtain ⟨hsynced, hgone⟩ := Turn.erase hd (hremoved.op .syncRoot) rfl hshows
    exact ⟨(Turn.erase hd hremoved rfl hshows).1, hsynced, hsynced, fun _ => hgone⟩
  · exact ⟨hturn, hturn, nofun⟩

theorem read_files {files : List (Sigma fun _ : String => RootFile)}
    (h : ∀ file ∈ files, ∃ record, file.2 = recordFile record) :
    ∃ records, (files.map (·.2.current)).mapM (fun content => readRecord (some content)) = .ok records ∧
      ∀ record, record ∈ records ↔ ∃ file ∈ files, file.2 = recordFile record := by
  induction files with
  | nil => exact ⟨[], rfl, by simp⟩
  | cons file files ih =>
    obtain ⟨found, hfound⟩ := h file List.mem_cons_self
    obtain ⟨records, hrecords, hmem⟩ := ih fun file hfile => h file (List.mem_cons_of_mem _ hfile)
    refine ⟨found :: records, ?_, fun record => ?_⟩
    · rw [List.map_cons, List.mapM_cons, hrecords, hfound]
      rfl
    · rw [List.mem_cons, hmem, List.exists_mem_cons_iff, hfound]
      exact or_congr_left ⟨fun heq => heq ▸ rfl, fun heq => (recordFile_injective heq).symm⟩

/-- A scan succeeds and finds exactly the records that are seen. -/
theorem finds_iff (hd : Catalogued d) : Finds d record ↔ Shows d record := by
  have hread : ∀ file ∈ d.files.entries, ∃ record, record.id = file.1 ∧ file.2 = recordFile record :=
    fun file hfile => (hd.records _ _ (.inl (AList.mem_lookup_iff.mpr hfile))).2
  obtain ⟨records, hrecords, hmem⟩ := read_files fun file hfile => (hread file hfile).imp fun _ h => h.2
  have hscan : Guarded catalogAnswer (fun _ => True)
      (fun result _ => result = .ok (records.insertionSort fun left right => left.id ≤ right.id)) scanRoots d := by
    unfold scanRoots
    rw [guarded_bind]
    refine (guarded_ensureDir d).mono (fun _ _ => trivial) ?_
    rintro _ d₁ ⟨rfl, hfiles, -⟩
    refine ⟨trivial, ?_⟩
    show Guarded catalogAnswer _ _
      (Prog.lift ((d₁.files.entries.map (·.2.current)).mapM fun content => readRecord (some content)) >>= _) d₁
    rw [hfiles, hrecords]
    exact ⟨trivial, rfl⟩
  rw [Finds, hscan.exec]
  constructor
  · rintro ⟨_, ⟨⟩, hrecord⟩
    obtain ⟨file, hfile, heq⟩ := (hmem record).mp ((List.mem_insertionSort _).mp hrecord)
    obtain ⟨other, hid, hother⟩ := hread file hfile
    cases recordFile_injective (heq.symm.trans hother)
    rw [Shows, hid, ← heq]
    exact AList.mem_lookup_iff.mpr hfile
  · intro hshows
    exact ⟨_, rfl, (List.mem_insertionSort _).mpr ((hmem record).mpr ⟨_, AList.mem_lookup_iff.mp hshows, rfl⟩)⟩

theorem guarded_call (hd : Catalogued d) (call : CatalogCall) :
    Guarded catalogAnswer (Turn call d) (fun _ d' => Turn call d d') call.prog d := by
  cases call with
  | persist metadata record =>
      exact (guarded_persistPreparedRoot hd metadata record).mono (fun _ h => h) fun _ _ h => h.1
  | remove record => exact (guarded_removePreparedRoot hd record).mono (fun _ h => h) fun _ _ h => h.1

/-! ## Over any run -/

theorem Catalogued.writtenBack (hd : Catalogued d) (h : d.WrittenBack d') : Catalogued d' where
  records := by
    intro id file hfile
    rw [h.seen.1] at hfile
    rw [h.seen.2.1]
    rcases hfile with hfile | hfile
    · exact hd.records id file (.inl hfile)
    · exact hd.records id file ((h.entries id).imp (·.1.symm.trans hfile) (·.symm.trans hfile))
  durable := by
    intro id file hfile
    rcases h.entries id with hentry | hentry
    · exact hentry.2
    · rw [hentry] at hfile
      rcases h.dirDurable with hdir | hdir
      · rw [hdir, (hd.records id file (.inr hfile)).1]
      · rw [hdir, hd.durable id file hfile]

theorem settled_lookup {file} (h : ∀ f, file = some f → ∃ record, f = recordFile record) :
    file.map RootFile.settled = file := by
  cases file with
  | none => rfl
  | some file =>
    obtain ⟨record, rfl⟩ := h file rfl
    rfl

/-- After power loss every entry is as it was seen or as it was durable. -/
theorem Catalogued.lookup_crash (hd : Catalogued d) (hcrash : d.Crash d') (id : String) :
    d'.files.lookup id = d.files.lookup id ∨ d'.files.lookup id = d.durable.lookup id := by
  cases hdir : d'.dir with
  | true =>
    have hentries := hcrash.entries hdir id
    rwa [settled_lookup fun f hf => (hd.records id f (.inl hf)).2.imp fun _ h => h.2,
      settled_lookup fun f hf => (hd.records id f (.inr hf)).2.imp fun _ h => h.2] at hentries
  | false =>
    -- a directory with a durable entry is not lost
    rw [hcrash.lost hdir]
    cases hfile : d.durable.lookup id with
    | none => exact .inr rfl
    | some file =>
      have hsame := hcrash.dir
      simp [hdir, (hd.records id file (.inr hfile)).1, hd.durable id file hfile] at hsame

theorem Catalogued.crash (hd : Catalogued d) (hcrash : d.Crash d') : Catalogued d' := by
  have hdir : ∀ id file, d'.files.lookup id = some file → d'.dir = true := by
    intro id file hfile
    by_contra hlost
    rw [hcrash.lost (Bool.eq_false_of_not_eq_true hlost)] at hfile
    cases hfile
  refine ⟨fun id file hfile => ?_, fun id file hfile => ?_⟩
  · rw [hcrash.settled.1, or_self] at hfile
    have hbefore := (hd.lookup_crash hcrash id).imp (·.symm.trans hfile) (·.symm.trans hfile)
    exact ⟨hdir id file hfile, (hd.records id file hbefore).2⟩
  · rw [hcrash.settled.1] at hfile
    rw [hcrash.settled.2]
    exact hdir id file hfile

/-- No step leaves a file that is not a whole record. -/
theorem Catalogued.run (hd : Catalogued d) {allowed : CatalogCall → Prop} (hrun : CatalogRun allowed d d') :
    Catalogued d' := by
  induction hrun with
  | refl => exact hd
  | tail _ hstep ih =>
    cases hstep with
    | finished call => exact (guarded_call ih call).exec.catalogued
    | gaveUp call _ hstops => exact ((guarded_call ih call).stops hstops).catalogued
    | writtenBack h => exact ih.writtenBack h
    | crashed h => exact ih.crash h

/-- The record is seen and durable, or neither. -/
structure Agrees (record : LocalRootRecord) (present : Prop) (d : CatalogDisk) : Prop where
  catalogued : Catalogued d
  shows : Shows d record ↔ present
  durable : Durable d record ↔ present

variable {present : Prop}

/-- A call keeps that, unless it removes the record that is there or writes the one that is not. -/
theorem Agrees.turn (h : Agrees record present d) (hturn : Turn call d d')
    (hspares : (present → call ≠ .remove record) ∧ (¬present → ∀ metadata, call ≠ .persist metadata record)) :
    Agrees record present d' := by
  refine ⟨hturn.catalogued, ⟨fun hshows => ?_, fun hpresent => ?_⟩, by rw [Durable, hturn.durable]; exact h.durable⟩
  · rcases hturn.comes record hshows with hbefore | ⟨metadata, hcall⟩
    · exact h.shows.mp hbefore
    · by_contra habsent
      exact hspares.2 habsent metadata hcall
  · exact (hturn.goes record (h.shows.mpr hpresent)).resolve_right (hspares.1 hpresent)

theorem Agrees.writtenBack (h : Agrees record present d) (hback : d.WrittenBack d') : Agrees record present d' := by
  have hshows : Shows d' record ↔ present := by rw [Shows, hback.seen.1]; exact h.shows
  refine ⟨h.catalogued.writtenBack hback, hshows, ?_⟩
  rcases hback.entries record.id with hentry | hentry
  · rw [Durable, hentry.1]
    exact h.shows
  · rw [Durable, hentry]
    exact h.durable

theorem Agrees.crash (h : Agrees record present d) (hcrash : d.Crash d') : Agrees record present d' := by
  have hshows : Shows d' record ↔ present := by
    rcases h.catalogued.lookup_crash hcrash record.id with hfile | hfile
    · rw [Shows, hfile]
      exact h.shows
    · rw [Shows, hfile]
      exact h.durable
  exact ⟨h.catalogued.crash hcrash, hshows, by rw [Durable, hcrash.settled.1]; exact hshows⟩

theorem Agrees.run (h : Agrees record present d) {allowed : CatalogCall → Prop} (hrun : CatalogRun allowed d d')
    (hspares : ∀ call, allowed call →
      (present → call ≠ .remove record) ∧ (¬present → ∀ metadata, call ≠ .persist metadata record)) :
    Agrees record present d' := by
  induction hrun with
  | refl => exact h
  | tail _ hstep ih =>
    cases hstep with
    | finished call hcall => exact ih.turn (guarded_call ih.catalogued call).exec (hspares call hcall)
    | gaveUp call hcall hstops => exact ih.turn ((guarded_call ih.catalogued call).stops hstops) (hspares call hcall)
    | writtenBack hback => exact ih.writtenBack hback
    | crashed hcrash => exact ih.crash hcrash

/-- Power loss may take back whatever is not durable. -/
theorem Catalogued.crash_to_durable (hd : Catalogued d) :
    d.Crash { d with files := d.durable, dirDurable := d.dir } where
  dir := .inl rfl
  lost := by
    intro hdir id
    cases hfile : d.durable.lookup id with
    | none => rfl
    | some file => cases hdir.symm.trans (hd.records id file (.inr hfile)).1
  entries := fun _ id => .inr (settled_lookup fun f hf => (hd.records id f (.inr hf)).2.imp fun _ h => h.2).symm
  settled := ⟨rfl, rfl⟩

/-- What one crash right after a call can show is what was durable before it. -/
theorem Turn.finds_after_crash (hturn : Turn call d d') (allowed : CatalogCall → Prop) (record : LocalRootRecord) :
    ∃ d'', CatalogRun allowed d' d'' ∧ (Finds d'' record ↔ Durable d record) := by
  have hcrash := hturn.catalogued.crash_to_durable
  refine ⟨_, .single (.crashed hcrash), ?_⟩
  rw [finds_iff (hturn.catalogued.crash hcrash), Shows, Durable, ← hturn.durable]

/-- **Records and power loss.** Every disk that a run of the catalog reaches holds whole records only. When
    `persist_prepared_root` has answered `Ok` on such a disk, the record is found after every later run, with calls
    that finish or end early and with power loss at any time, until it is removed, exactly if its entry was already
    durable before the call. When `remove_prepared_root` has answered `Ok`, the record stays removed until it is
    persisted again exactly if its entry was not durable. -/
theorem catalog_survives_power_loss_iff (hd : Catalogued d) (metadata : Result Bool) (record : LocalRootRecord) :
    (∀ d', CatalogRun (fun _ => True) d d' → Catalogued d') ∧
    (((persistPreparedRoot metadata record).exec catalogAnswer d).1 = .ok () →
      ((∀ d', CatalogRun (· ≠ .remove record) ((persistPreparedRoot metadata record).exec catalogAnswer d).2 d' →
        Finds d' record) ↔ Durable d record)) ∧
    (((removePreparedRoot record).exec catalogAnswer d).1 = .ok () →
      ((∀ d', CatalogRun (fun call => ∀ metadata, call ≠ .persist metadata record)
          ((removePreparedRoot record).exec catalogAnswer d).2 d' → ¬Finds d' record) ↔ ¬Durable d record)) := by
  refine ⟨fun d' hrun => hd.run hrun, ?_, ?_⟩
  · intro hok
    obtain ⟨hturn, hshows⟩ := (guarded_persistPreparedRoot hd metadata record).exec
    constructor
    · intro hfound
      obtain ⟨d'', hrun, hfinds⟩ := hturn.finds_after_crash (· ≠ .remove record) record
      exact hfinds.mp (hfound d'' hrun)
    · intro hdurable d' hrun
      have hagrees : Agrees record True _ := ⟨hturn.catalogued, iff_true_intro (hshows hok),
        iff_true_intro (by rw [Durable, hturn.durable]; exact hdurable)⟩
      have hafter := hagrees.run hrun fun call hcall => ⟨fun _ => hcall, fun h => absurd trivial h⟩
      exact (finds_iff hafter.catalogued).mpr (hafter.shows.mpr trivial)
  · intro hok
    obtain ⟨hturn, hgone⟩ := (guarded_removePreparedRoot hd record).exec
    constructor
    · intro hfound hdurable
      obtain ⟨d'', hrun, hfinds⟩ :=
        hturn.finds_after_crash (fun call => ∀ metadata, call ≠ .persist metadata record) record
      exact hfound d'' hrun (hfinds.mpr hdurable)
    · intro hdurable d' hrun hfound
      have hagrees : Agrees record False _ := ⟨hturn.catalogued, iff_false_intro (hgone hok),
        iff_false_intro (by rw [Durable, hturn.durable]; exact hdurable)⟩
      have hafter := hagrees.run hrun fun call hcall => ⟨False.elim, fun _ => hcall⟩
      exact hafter.shows.mp ((finds_iff hafter.catalogued).mp hfound)

def emptyDisk : CatalogDisk := ⟨false, false, ∅, ∅, ⟨none, none⟩⟩

def someRoot : LocalRootRecord := ⟨"root-61", [0x61], 1, "root-61-e1", "node:session"⟩

theorem catalogued_emptyDisk : Catalogued emptyDisk := by
  refine ⟨fun id file hfile => ?_, nofun⟩
  rcases hfile with hfile | hfile <;> cases hfile

/-- The first root of a node, when its entry has reached the disk. -/
def oneRootDisk : CatalogDisk :=
  ⟨true, true, AList.insert someRoot.id (recordFile someRoot) ∅, AList.insert someRoot.id (recordFile someRoot) ∅,
    recordFile someRoot⟩

theorem reaches_oneRootDisk : CatalogRun (fun _ => True) emptyDisk oneRootDisk := by
  refine .tail (.single (.finished _ (.persist (.ok true) someRoot) trivial)) (.writtenBack ⟨?_, ?_, ?_⟩)
  · exact .inl rfl
  · exact fun id => .inl ⟨rfl, rfl⟩
  · exact ⟨rfl, rfl, rfl⟩

/-- A record whose entry has been written back is found from then on; one that only `persist_prepared_root` has seen
    stays removed once it is removed. -/
theorem catalog_survives_power_loss_iff_of_one :
    (((persistPreparedRoot (.ok true) someRoot).exec catalogAnswer oneRootDisk).1 = .ok () ∧
      ∀ d', CatalogRun (· ≠ .remove someRoot)
        ((persistPreparedRoot (.ok true) someRoot).exec catalogAnswer oneRootDisk).2 d' → Finds d' someRoot) ∧
    let d := ((persistPreparedRoot (.ok true) someRoot).exec catalogAnswer emptyDisk).2
    Shows d someRoot ∧ ((removePreparedRoot someRoot).exec catalogAnswer d).1 = .ok () ∧
      ∀ d', CatalogRun (fun call => ∀ metadata, call ≠ .persist metadata someRoot)
        ((removePreparedRoot someRoot).exec catalogAnswer d).2 d' → ¬Finds d' someRoot := by
  have hreached := (catalog_survives_power_loss_iff catalogued_emptyDisk (.ok true) someRoot).1
  have hone := hreached _ reaches_oneRootDisk
  have hwritten := hreached _ (.single (.finished _ (.persist (.ok true) someRoot) trivial))
  refine ⟨⟨rfl, ((catalog_survives_power_loss_iff hone (.ok true) someRoot).2.1 rfl).mpr rfl⟩, rfl, rfl, ?_⟩
  exact ((catalog_survives_power_loss_iff hwritten (.ok true) someRoot).2.2 rfl).mpr (by rintro ⟨⟩)

/-- The first root of a node: its record is acknowledged, and gone after power loss. -/
theorem persisted_record_lost :
    ((persistPreparedRoot (.ok true) someRoot).exec catalogAnswer emptyDisk).1 = .ok () ∧
      ∃ d', ((persistPreparedRoot (.ok true) someRoot).exec catalogAnswer emptyDisk).2.Crash d' ∧
        ¬Finds d' someRoot := by
  have hcatalogued := (guarded_persistPreparedRoot catalogued_emptyDisk (.ok true) someRoot).exec.1.catalogued
  have hcrash := hcatalogued.crash_to_durable
  refine ⟨rfl, _, hcrash, ?_⟩
  rw [finds_iff (hcatalogued.crash hcrash)]
  exact nofun

end OwnerFs

end Afs
