import Afs.Meta.Dfs.Service

/-!
# `Meta.Dfs.Script` — runs that can be computed

A script is a list of events: requests that are served one after the other by a store that answers at once, node
registrations, and clock changes. Playing a script is a computation, and it is a run of the service in which nothing
interleaves. A condition on the run is checked at every store operation of the script, so a script that meets it can
be found to do so by evaluation.
-/

namespace Afs

open Interaction Relation

/-- The store when it answers at once and without failures. -/
def answer (s : System) : (op : StoreOp) → op.Reply × System
  | .read q => (.ok (s.store.read s.clock q), s)
  | .readView => (.ok s.store, s)
  | .commit txn => ((s.store.compareAndCommit s.clock txn).1, ⟨(s.store.compareAndCommit s.clock txn).2, s.clock⟩)
  | .now => (s.clock, s)

theorem served_answer {condition r} (s : System) (op : StoreOp) (h : condition r s op) :
    served condition r s op (answer s op).1 (answer s op).2 := by
  refine ⟨h, ?_⟩
  cases op with
  | read | readView | commit => exact ⟨rfl, .inl rfl⟩
  | now => exact ⟨rfl, rfl⟩

/-- What happens in a script. -/
inductive Event
  | request (r : Request)
  | register (request : RequestKey) (lease : NodeSessionLease)
  | clock (now : UInt64)

/-- The pool after one event. -/
def play (service : DfsService) (c : ServicePool) : Event → ServicePool
  | .request r => c.serve answer (handle service) r
  | .register request lease =>
    ⟨⟨(c.state.store.registerNodeSession c.state.clock request lease).2, c.state.clock⟩, c.procs⟩
  | .clock now => ⟨⟨c.state.store, now⟩, c.procs⟩

/-- The pool after all events of a script, from an empty store at time zero. -/
def playAll (service : DfsService) (events : List Event) : ServicePool :=
  events.foldl (play service) (initialPool 0)

/-- The operations of the event meet the condition. -/
def EventMeets (service : DfsService) (condition : RunCondition) (c : ServicePool) : Event → Prop
  | .request r => (handle service r).ExecAll answer (condition r) c.state
  | _ => True

/-- Every operation of the script meets the condition. -/
def ScriptMeets (service : DfsService) (condition : RunCondition) : ServicePool → List Event → Prop
  | _, [] => True
  | c, event :: events =>
    EventMeets service condition c event ∧ ScriptMeets service condition (play service c event) events

variable {events : List Event} {c : ServicePool}

section Decidable

variable {service : DfsService} {condition : RunCondition} [∀ r s op, Decidable (condition r s op)]

instance (c : ServicePool) : (event : Event) → Decidable (EventMeets service condition c event)
  | .request r => inferInstanceAs (Decidable ((handle service r).ExecAll answer (condition r) c.state))
  | .register _ _ => isTrue trivial
  | .clock _ => isTrue trivial

instance decidableScriptMeets :
    (c : ServicePool) → (events : List Event) → Decidable (ScriptMeets service condition c events)
  | _, [] => isTrue trivial
  | c, event :: events =>
    have := decidableScriptMeets (play service c event) events
    inferInstanceAs (Decidable (EventMeets service condition c event ∧ _))

end Decidable

variable {service : DfsService} {tick : Tick} {condition : RunCondition}

theorem scriptMeets_of_forall (h : ∀ r, .request r ∈ events → ∀ s op, condition r s op) (c : ServicePool) :
    ScriptMeets service condition c events := by
  induction events generalizing c with
  | nil => trivial
  | cons event rest ih =>
    refine ⟨?_, ih (fun r hr => h r (List.mem_cons_of_mem _ hr)) _⟩
    cases event with
    | request r => exact Prog.execAll_of_forall (h r (List.mem_cons_self ..)) _ _
    | register => trivial
    | clock now => trivial

theorem scriptMeets_any (c : ServicePool) : ScriptMeets service anyRun c events :=
  scriptMeets_of_forall (fun _ _ _ _ => trivial) c

/-- One event is a part of a run. -/
theorem run_play {event} (hclock : ∀ now, event = .clock now → tick c.state.clock now)
    (h : EventMeets service condition c event) : ServiceRun service tick condition c (play service c event) := by
  cases event with
  | request r =>
    have hanswer : ∀ s op, condition r s op → served condition r s op (answer s op).1 (answer s op).2 := served_answer
    exact Pool.run_serve hanswer c h
  | register request lease => exact .single (.env (.register request lease) rfl)
  | clock now => exact .single (.env (.tick now (hclock now rfl)) rfl)

/-- **Playing a script is a run of the service.** -/
theorem run_script (hclock : ∀ now, .clock now ∈ events → ∀ before, tick before now)
    (h : ScriptMeets service condition c events) :
    ServiceRun service tick condition c (events.foldl (play service) c) := by
  induction events generalizing c with
  | nil => exact .refl
  | cons event rest ih =>
    obtain ⟨hevent, hrest⟩ := h
    refine .trans (run_play ?_ hevent) (ih (fun now hnow => hclock now (List.mem_cons_of_mem _ hnow)) hrest)
    rintro now rfl
    exact hclock now (List.mem_cons_self ..) _

theorem reachable_playAll (hclock : ∀ now, .clock now ∈ events → ∀ before, tick before now)
    (h : ScriptMeets service condition (initialPool 0) events) :
    Reachable service tick condition (playAll service events) := ⟨0, run_script hclock h⟩

/-- A longer script continues the run of a shorter one. -/
theorem run_playAll_append {more} (hclock : ∀ now, .clock now ∈ more → ∀ before, tick before now)
    (h : ScriptMeets service condition (playAll service events) more) :
    ServiceRun service tick condition (playAll service events) (playAll service (events ++ more)) := by
  rw [show playAll service (events ++ more) = more.foldl (play service) (playAll service events) from
    List.foldl_append ..]
  exact run_script hclock h

/-! ## Handlers alone

What the parts of a handler do when the store answers at once, for the paths on which they succeed. -/

section Exec

variable {s : System}

theorem exec_requireId {value field} (h : value.isEmpty = false) :
    (Prog.lift (requireId value field) : DfsProg Unit).exec answer s = (.ok (), s) := by
  rw [Prog.exec_lift, requireId, h]
  rfl

theorem exec_check {value e} (h : value = true) :
    (Prog.check value e : DfsProg Unit).exec answer s = (.ok (), s) := by
  rw [h]
  rfl

theorem exec_storeRead (q : MetaRead) : (storeRead q).exec answer s = (.ok (s.store.read s.clock q), s) := rfl

theorem exec_nowUnixMs : nowUnixMs.exec answer s = (.ok s.clock, s) := rfl

theorem exec_getInode {id inode} (hid : id.value.isEmpty = false)
    (hinode : s.store.get (.dfsInode id) = some (.dfsInode inode)) :
    (getInode id).exec answer s = (.ok inode, s) := by
  have hread : (s.store.read s.clock (.dfsInode id)).entity = some (.dfsInode inode) := by
    rw [StoreState.entity_read rfl fun _ => rfl, hinode]
  rw [getInode, Prog.exec_bind_ok (exec_requireId hid), Prog.exec_bind_ok (exec_storeRead _), hread]
  rfl

/-- A request that has no outcome yet is not answered by a replay. -/
theorem exec_replayedLease {callerId operationId operation}
    (hfresh : s.store.outcome ⟨callerId, operationId.value⟩ = none) :
    (replayedLease callerId operationId operation).exec answer s = (.ok none, s) := by
  have hread : (s.store.read s.clock (.requestOutcome ⟨callerId, operationId.value⟩)).requestOutcome = none := hfresh
  have hnone : (replayedOutcome callerId operationId operation).exec answer s = (.ok none, s) := by
    rw [replayedOutcome, Prog.exec_bind_ok (exec_storeRead _), hread]
    rfl
  rw [replayedLease, Prog.exec_bind_ok hnone]
  rfl

end Exec

/-! ## A small cluster

Nodes with one disk each that create files in the root and commit to them. One copy of a chunk is enough. The stand-ins
for the third-party functions are a short hash, which keeps the inode ids of different nodes apart, and an encoding
that tells no requests apart. -/

/-- A short hash in place of `blake3`. -/
def shortHash (bytes : Bytes) : Digest :=
  ⟨(Codec.toBeBytes (stableHashBytes 0xcbf29ce484222325 bytes) ++ List.replicate 24 0).toArray,
    by simp [Codec.toBeBytes]⟩

def plainService : DfsService where
  codec := { blake3 := shortHash, toJson := fun _ => some [] }
  replication := ⟨1, 1, 1, 1, .preferred⟩
  readGrantKey := some (Vector.replicate 32 0)

namespace Cluster

def device (node : String) : StorageDeviceDescriptor := ⟨"disk", 1, 1, node⟩

/-- The node registers a session. -/
def register (node : String) : Event :=
  .register ⟨node, "register"⟩ ⟨node, "session", "", "", "", [device node], 60000⟩

/-- The file that the node creates. -/
def file (node : String) : InodeId := plainService.codec.namespaceInodeId node ⟨"create"⟩

/-- The node creates its file with the given link count. -/
def create (node : String) (nlink : UInt32) : CreateFileRequest where
  callerId := node
  ownerSessionId := "session"
  operationId := ⟨"create"⟩
  namespaceId := ⟨"default"⟩
  parentInodeId := ⟨"1"⟩
  name := Codec.utf8Bytes node
  attributes := ⟨0o644, 0, 0, nlink, 0, 0, 0⟩
  leaseSeconds := 60

/-- The lease that comes with the file. -/
def lease (node : String) : WriteLease := ⟨file node, node, "session", 1, 60000⟩

def chunk (length : UInt64) : ChunkObject := ⟨⟨"chunk"⟩, length, ⟨.blake3, Vector.replicate 32 0⟩, .raw⟩

/-- The epoch of the placement on the disk of the node alone. -/
def placementEpoch (node : String) : UInt64 :=
  placementHash plainService.replication [⟨node, 1, "", device node⟩]

/-- A receipt for the chunk, acknowledged by the disk of the node. -/
def receipt (node : String) (length : UInt64) : ChunkReceipt where
  operationId := ⟨"commit"⟩
  chunk := chunk length
  placementRevision := 1
  placementEpoch := placementEpoch node
  replicaGroupId := ⟨"group:" ++ hex16 (placementEpoch node)⟩
  durableAcks :=
    [⟨⟨"commit"⟩, ⟨"chunk"⟩, 1, placementEpoch node, node, 1, "disk", 1, 1, length,
      ⟨.blake3, Vector.replicate 32 0⟩⟩]

/-- The node commits the first version of its file, which is one chunk. -/
def commit (node : String) (length : UInt64) : CommitFileVersion where
  operationId := ⟨"commit"⟩
  inodeId := file node
  writeLease := lease node
  expectedInodeRevision := 1
  expectedHeadVersion := none
  fileVersion := ⟨⟨"version-" ++ node⟩, file node, none, length, ⟨"layout-" ++ node⟩, 0⟩
  layoutRoot := ⟨⟨"layout-" ++ node⟩, length, [⟨0, length, ⟨"chunk"⟩, 0⟩]⟩
  chunkReceipts := [receipt node length]
  metadataDelta := ⟨.dataOnly, none, none, false⟩

/-- Two nodes with a file each, before any commit. -/
def setup : List Event :=
  [register "a", register "b", .request .initializeReplicationConfig, .request (.create (create "a" 1)),
    .request (.create (create "b" 1))]

/-- The node commits. -/
def committing (node : String) (length : UInt64) : Event :=
  .request (.commitFileVersion node (commit node length))

/-- The node removes its file. -/
def unlinking (node : String) : Event :=
  .request (.unlink ⟨node, ⟨"unlink"⟩, ⟨"default"⟩, ⟨"1"⟩, Codec.utf8Bytes node, ⟨0, 0, []⟩⟩)

end Cluster

end Afs
