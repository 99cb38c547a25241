import Afs.Lib.Grouping
import Afs.Node.Chunk.Reader
import Afs.Node.Rpc.ReadAuthority
import Mathlib.Algebra.Order.BigOperators.Group.List

/-!
# `Node.Dfs.ReadEngine` — reading ranges of chunks

`DfsReadEngine::read_batch` reads a batch of ranges into a staging buffer and copies them out once all of them are
there. The ranges of a chunk are read from the local store together. What the local store does not have is read from
peers: the ranges whose next source is the same peer are transferred together, and each on its own after a failure.

What happens outside the engine is a parameter: the local readers, the lookup of sources, and the transfer. Their state
is threaded through, so that every attempt may be answered differently.
-/

namespace Afs.Node

open Overlay Regions Grouping

namespace DfsRead

def invalid (message : String) : Error := ⟨.nodeTransferInvalid, message⟩
def corrupt (message : String) : Error := ⟨.nodeTransferCorruptData, message⟩

end DfsRead

/-! ## Batches -/

structure DfsReadConfig where
  maxOpsPerBatch : Nat
  maxInflightBytes : UInt64

def DfsReadConfig.default : DfsReadConfig := ⟨maxDfsReadOps, maxDfsReadBytes⟩

def DfsReadConfig.validate (config : DfsReadConfig) : Result Unit :=
  if config.maxOpsPerBatch = 0 ∨ maxDfsReadOps < config.maxOpsPerBatch ∨ config.maxInflightBytes = 0 ∨
      maxDfsReadBytes < config.maxInflightBytes then
    .error (DfsRead.invalid "DFS read configuration requires 1..=128 operations and 1..=8388608 bytes")
  else .ok ()

/-- The loop of `validate_for_output`: the sum of the lengths, if every range fits into the output. -/
def ReadBatch.totalFor (outputLen : Nat) : List ChunkReadOp → UInt64 → Result UInt64
  | [], total => .ok total
  | op :: rest, total =>
    if op.length = 0 then ReadBatch.totalFor outputLen rest total
    else
      match total.checkedAdd op.length with
      | none => .error (DfsRead.invalid "DFS read batch byte count overflow")
      | some total =>
        match op.outputOffset.checkedAdd op.length with
        | none => .error (DfsRead.invalid "DFS read output range overflow")
        | some stop =>
          if outputLen < stop.toNat then .error (DfsRead.invalid "DFS read output range exceeds buffer")
          else ReadBatch.totalFor outputLen rest total

def ReadBatch.validateForOutput (batch : ReadBatch) (outputLen : Nat) (config : DfsReadConfig) : Result Unit := do
  config.validate
  if batch.layoutRootId.value = "" then .error (DfsRead.invalid "DFS read batch has no LayoutRoot")
  else if config.maxOpsPerBatch < batch.ops.length then
    .error (DfsRead.invalid "DFS read batch contains too many ranges")
  else do
    let total ← ReadBatch.totalFor outputLen batch.ops 0
    if config.maxInflightBytes < total then
      .error (DfsRead.invalid "DFS read batch exceeds inflight byte budget")
    else .ok ()

structure SourceCandidate where
  role : CopyRole
  state : CopyState
  location : CopyLocation
  dataEndpoint : Option String
  readGrant : DfsReadGrant

structure ChunkSources where
  chunkId : ChunkId
  sources : List SourceCandidate

structure ResolvedReadOp where
  op : ChunkReadOp
  source : SourceCandidate

structure PeerReadBatch where
  fileVersionId : FileVersionId
  layoutRootId : LayoutRootId
  operations : List ResolvedReadOp

def sameNode : CopyLocation → CopyLocation → Bool
  | .node nodeId nodeEpoch _ _ _, .node nodeId' nodeEpoch' _ _ _ => nodeId == nodeId' && nodeEpoch == nodeEpoch'
  | _, _ => false

def samePeerContext (left right : SourceCandidate) : Bool :=
  let a := left.readGrant
  let b := right.readGrant
  sameNode left.location right.location && left.dataEndpoint == right.dataEndpoint && a.namespaceId == b.namespaceId &&
    a.fileVersionId == b.fileVersionId && a.layoutRootId == b.layoutRootId && a.callerNodeId == b.callerNodeId &&
    a.callerNodeEpoch == b.callerNodeEpoch

def ChunkReadOp.region (op : ChunkReadOp) : Region := ⟨op.outputOffset.toNat, op.length.toNat⟩

def ChunkReadOp.range (op : ChunkReadOp) : VerifiedRangeCopy := ⟨op.chunkOffset, op.length, op.outputOffset⟩

/-- The operations with their ranges one behind the other. -/
def packOps : Nat → List ChunkReadOp → List ChunkReadOp
  | _, [] => []
  | start, op :: rest => { op with outputOffset := UInt64.ofNat start } :: packOps (start + op.length.toNat) rest

def totalLength (ops : List ChunkReadOp) : Nat := (ops.map fun op => op.length.toNat).sum

/-- `out[original range].copy_from_slice(&staged[packed range])`. -/
def copyRange (staged out : Bytes) (original packed : ChunkReadOp) : Bytes :=
  patch out original.outputOffset.toNat (slice ⟨packed.outputOffset.toNat, original.length.toNat⟩ staged)

/-! ## The outside -/

/-- What the engine calls: the local chunk store, Meta, and the peers. -/
structure ReadEnv (ω : Type) where
  localNodeId : String
  localReader : ChunkId → ω → Result Unit × ω
  /-- `read_ranges_at_uncommitted`, with the buffer that it leaves behind. -/
  readRanges : ChunkId → List VerifiedRangeCopy → Bytes → ω → (Result (List Nat) × Bytes) × ω
  /-- `handle_local_read_failure`. It fails only when the cache of readers is poisoned, which is left out. -/
  localReadFailed : ChunkId → Error → ω → ω
  sourcesFor : ReadBatch → ω → Result (List ChunkSources) × ω
  /-- `ChunkTransfer::read_ranges` into a buffer of the given length, with what it leaves there. -/
  transfer : PeerReadBatch → Nat → ω → (Result Unit × Bytes) × ω

section Engine

variable {ω : Type} (env : ReadEnv ω)

/-! ## Local reads -/

structure LocalReads (ω : Type) where
  out : Bytes
  world : ω
  /-- The operations that are left for the peers. -/
  remote : List Nat

/-- The ranges of one chunk. -/
def readLocalGroup (chunkId : ChunkId) (items : List (ChunkReadOp × Nat)) (s : LocalReads ω) : LocalReads ω :=
  match env.localReader chunkId s.world with
  | (.error e, world) => ⟨s.out, env.localReadFailed chunkId e world, s.remote ++ items.map Prod.snd⟩
  | (.ok (), world) =>
    match env.readRanges chunkId (items.map fun item => item.1.range) s.out world with
    | ((.error e, out), world) => ⟨out, env.localReadFailed chunkId e world, s.remote ++ items.map Prod.snd⟩
    | ((.ok counts, out), world) =>
      let short := ((items.zip counts).filter fun (item, count) => count ≠ item.1.length.toNat).map fun pair => pair.1.2
      ⟨out,
        if short = [] then world
        else env.localReadFailed chunkId (DfsRead.corrupt "local Chunk ended before the requested range") world,
        s.remote ++ short⟩

/-- The operations that read something, with their places in the batch. -/
def readItems (ops : List ChunkReadOp) : List (ChunkReadOp × Nat) := ops.zipIdx.filter fun item => item.1.length ≠ 0

/-- The operations of each chunk. -/
def chunkGroups (ops : List ChunkReadOp) : List (List (ChunkReadOp × Nat)) :=
  group (fun item other => item.1.chunkId == other.1.chunkId) (readItems ops)

def readLocalGroups : List (List (ChunkReadOp × Nat)) → LocalReads ω → LocalReads ω
  | [], s => s
  | [] :: rest, s => readLocalGroups rest s
  | (first :: items) :: rest, s => readLocalGroups rest (readLocalGroup env first.1.chunkId (first :: items) s)

/-! ## Reads from peers -/

/-- An operation that is not done, with the sources that have not been tried. -/
structure PendingRead where
  op : ChunkReadOp
  sources : List SourceCandidate

/-- An operation with the source that is tried now. -/
structure TriedRead where
  op : ChunkReadOp
  source : SourceCandidate
  rest : List SourceCandidate

def PendingRead.next (pending : PendingRead) : Option TriedRead :=
  match pending.sources with
  | [] => none
  | source :: rest => some ⟨pending.op, source, rest⟩

def TriedRead.failed (tried : TriedRead) : PendingRead := ⟨tried.op, tried.rest⟩

structure RemoteReads (ω : Type) where
  out : Bytes
  world : ω
  lastError : Option Error
  pending : List PendingRead

section

variable (fileVersionId : FileVersionId) (layoutRootId : LayoutRootId)

/-- An operation of a group that has failed is tried on the same source on its own, unless it was alone. -/
def retrySingle (alone : Bool) (s : RemoteReads ω) (tried : TriedRead) : RemoteReads ω :=
  if alone then { s with pending := s.pending ++ [tried.failed] }
  else
    match env.transfer ⟨fileVersionId, layoutRootId, [⟨{ tried.op with outputOffset := 0 }, tried.source⟩]⟩
        tried.op.length.toNat s.world with
    | ((.ok (), scratch), world) =>
      { s with out := patch s.out tried.op.outputOffset.toNat scratch, world := world }
    | ((.error e, _), world) => ⟨s.out, world, some e, s.pending ++ [tried.failed]⟩

/-- The operations whose source is the same peer are read together. -/
def readPeerGroup (s : RemoteReads ω) (items : List TriedRead) : RemoteReads ω :=
  let ops := items.map TriedRead.op
  let packed := packOps 0 ops
  match env.transfer ⟨fileVersionId, layoutRootId, List.zipWith ResolvedReadOp.mk packed (items.map TriedRead.source)⟩
      (totalLength ops) s.world with
  | ((.ok (), scratch), world) =>
    { s with out := (ops.zip packed).foldl (fun out pair => copyRange scratch out pair.1 pair.2) s.out, world := world }
  | ((.error e, _), world) =>
    items.foldl (retrySingle env fileVersionId layoutRootId (items.length ≤ 1))
      { s with world := world, lastError := some e }

/-- One round: the operations are tried on their sources, grouped by the peer. -/
def readRound (tried : List TriedRead) (out : Bytes) (world : ω) (lastError : Option Error) : RemoteReads ω :=
  (group (fun item other => samePeerContext item.source other.source) tried).foldl
    (readPeerGroup env fileVersionId layoutRootId) ⟨out, world, lastError, []⟩

end

/-- The next source of every operation that is not done. -/
def nextSources : List PendingRead → Option (List TriedRead)
  | [] => some []
  | pending :: rest => do
    let tried ← pending.next
    let more ← nextSources rest
    return tried :: more

def sourcesLeft (pending : List PendingRead) : Nat := (pending.map fun p => p.sources.length).sum

section Pending

variable (fileVersionId : FileVersionId) (layoutRootId : LayoutRootId) (s : RemoteReads ω)

theorem retrySingle_pending (alone : Bool) (tried : TriedRead) :
    ∃ more, more.Sublist [tried.failed] ∧
      (retrySingle env fileVersionId layoutRootId alone s tried).pending = s.pending ++ more := by
  unfold retrySingle
  split
  · exact ⟨[tried.failed], .refl _, rfl⟩
  · split
    · exact ⟨[], List.nil_sublist _, (List.append_nil _).symm⟩
    · exact ⟨[tried.failed], .refl _, rfl⟩

theorem foldl_retrySingle_pending (alone : Bool) (items : List TriedRead) :
    ∃ more, more.Sublist (items.map TriedRead.failed) ∧
      (items.foldl (retrySingle env fileVersionId layoutRootId alone) s).pending = s.pending ++ more := by
  induction items generalizing s with
  | nil => exact ⟨[], .refl _, (List.append_nil _).symm⟩
  | cons tried rest ih =>
    obtain ⟨first, hfirst, hpending⟩ := retrySingle_pending env fileVersionId layoutRootId s alone tried
    obtain ⟨more, hmore, hrest⟩ := ih (retrySingle env fileVersionId layoutRootId alone s tried)
    refine ⟨first ++ more, hfirst.append hmore, ?_⟩
    rw [List.foldl_cons, hrest, hpending, List.append_assoc]

theorem readPeerGroup_pending (items : List TriedRead) :
    ∃ more, more.Sublist (items.map TriedRead.failed) ∧
      (readPeerGroup env fileVersionId layoutRootId s items).pending = s.pending ++ more := by
  unfold readPeerGroup
  simp only
  split
  · exact ⟨[], List.nil_sublist _, (List.append_nil _).symm⟩
  · exact foldl_retrySingle_pending env fileVersionId layoutRootId _ _ items

theorem foldl_readPeerGroup_pending (groups : List (List TriedRead)) :
    ∃ more, more.Sublist (groups.flatten.map TriedRead.failed) ∧
      (groups.foldl (readPeerGroup env fileVersionId layoutRootId) s).pending = s.pending ++ more := by
  induction groups generalizing s with
  | nil => exact ⟨[], .refl _, (List.append_nil _).symm⟩
  | cons items rest ih =>
    obtain ⟨first, hfirst, hpending⟩ := readPeerGroup_pending env fileVersionId layoutRootId s items
    obtain ⟨more, hmore, hrest⟩ := ih (readPeerGroup env fileVersionId layoutRootId s items)
    refine ⟨first ++ more, ?_, ?_⟩
    · rw [List.flatten_cons, List.map_append]
      exact hfirst.append hmore
    · rw [List.foldl_cons, hrest, hpending, List.append_assoc]

theorem sourcesLeft_eq {pending tried} (h : nextSources pending = some tried) :
    sourcesLeft pending = sourcesLeft (tried.map TriedRead.failed) + pending.length ∧
      tried.map TriedRead.op = pending.map PendingRead.op := by
  induction pending generalizing tried with
  | nil =>
    cases h
    exact ⟨rfl, rfl⟩
  | cons p rest ih =>
    obtain ⟨op, sources⟩ := p
    cases sources with
    | nil => simp [nextSources, PendingRead.next] at h
    | cons source left =>
      cases hrest : nextSources rest with
      | none => simp [nextSources, PendingRead.next, hrest] at h
      | some more =>
        simp only [nextSources, PendingRead.next, hrest, Option.bind_eq_bind, Option.bind_some, Option.pure_def,
          Option.some.injEq] at h
        subst h
        obtain ⟨hleft, hops⟩ := ih hrest
        refine ⟨?_, by simp [hops]⟩
        simp only [sourcesLeft, List.map_cons, List.sum_cons, List.length_cons, TriedRead.failed] at hleft ⊢
        omega

/-- Every round uses up sources. -/
theorem sourcesLeft_readRound {pending tried} (hne : pending ≠ [])
    (h : nextSources pending = some tried) (out : Bytes) (world : ω) (lastError : Option Error) :
    sourcesLeft (readRound env fileVersionId layoutRootId tried out world lastError).pending < sourcesLeft pending := by
  obtain ⟨more, hmore, hpending⟩ :=
    foldl_readPeerGroup_pending env fileVersionId layoutRootId ⟨out, world, lastError, []⟩
    (group (fun item other => samePeerContext item.source other.source) tried)
  have hle : sourcesLeft more ≤ sourcesLeft (tried.map TriedRead.failed) := by
    have hperm := ((flatten_group (fun item other => samePeerContext item.source other.source) tried).map
      TriedRead.failed).map fun p => p.sources.length
    rw [sourcesLeft, sourcesLeft, ← hperm.sum_eq]
    exact (hmore.map _).sum_le_sum fun _ _ => Nat.zero_le _
  have hpos : 0 < pending.length := List.length_pos_of_ne_nil hne
  rw [readRound, hpending, List.nil_append, (sourcesLeft_eq h).1]
  omega

end Pending

/-- The loop of `read_remote_batch`. -/
def readRounds (fileVersionId : FileVersionId) (layoutRootId : LayoutRootId) (pending : List PendingRead) (out : Bytes)
    (world : ω) (lastError : Option Error) : (Result Unit × Bytes) × ω :=
  if _hne : pending = [] then ((.ok (), out), world)
  else
    match _h : nextSources pending with
    | none => ((.error (lastError.getD (DfsRead.corrupt "committed Chunk has no readable copy")), out), world)
    | some tried =>
      let s := readRound env fileVersionId layoutRootId tried out world lastError
      readRounds fileVersionId layoutRootId s.pending s.out s.world s.lastError
termination_by sourcesLeft pending
decreasing_by exact sourcesLeft_readRound env fileVersionId layoutRootId _hne _h out world lastError

/-- The sources that may be read from. -/
def candidatesFor (sources : List ChunkSources) (op : ChunkReadOp) : List SourceCandidate :=
  match sources.find? fun set => set.chunkId = op.chunkId with
  | none => []
  | some set => set.sources.filter fun source =>
    source.state.isReadable && (source.role = .durableReplica || source.role = .verifiedCache) &&
      match source.location with
      | .node nodeId _ _ _ _ => nodeId != env.localNodeId
      | .external _ _ _ => false

def readRemoteBatch (batch : ReadBatch) (sources : List ChunkSources) (out : Bytes) (world : ω) :
    (Result Unit × Bytes) × ω :=
  match batch.fileVersionId with
  | none => ((.error (DfsRead.invalid "DFS peer read requires a fixed FileVersion"), out), world)
  | some fileVersionId =>
    readRounds env fileVersionId batch.layoutRootId
      (batch.ops.map fun op => ⟨op, candidatesFor env sources op⟩) out world
      none

/-! ## The batch -/

def readBatchInto (batch : ReadBatch) (out : Bytes) (world : ω) : (Result Unit × Bytes) × ω :=
  let s := readLocalGroups env (chunkGroups batch.ops) ⟨out, world, []⟩
  let remoteOps := (batch.ops.zipIdx.filter fun item => item.2 ∈ s.remote).map Prod.fst
  if remoteOps = [] then ((.ok (), s.out), s.world)
  else
    let remoteBatch : ReadBatch := { batch with ops := remoteOps }
    match env.sourcesFor remoteBatch s.world with
    | (.error e, world) => ((.error e, s.out), world)
    | (.ok sources, world) => readRemoteBatch env remoteBatch sources s.out world

/-- The staged ranges are copied to the caller's buffer. -/
def publish (staged : Bytes) (pairs : List (ChunkReadOp × ChunkReadOp)) (out : Bytes) : Bytes :=
  pairs.foldl (fun out pair => if pair.1.length = 0 then out else copyRange staged out pair.1 pair.2) out

/-- `read_batch`, with the buffer of the caller as the call leaves it. -/
def readBatch (config : DfsReadConfig) (batch : ReadBatch) (out : Bytes) (world : ω) : (Result Unit × Bytes) × ω :=
  match batch.validateForOutput out.length config with
  | .error e => ((.error e, out), world)
  | .ok () =>
    let staged := packOps 0 batch.ops
    match readBatchInto env { batch with ops := staged } (List.replicate (totalLength batch.ops) 0) world with
    | ((.error e, _), world) => ((.error e, out), world)
    | ((.ok (), bytes), world) => ((.ok (), publish bytes (batch.ops.zip staged) out), world)

end Engine

end Afs.Node
