import Afs.Meta.Dfs.CommitFile

/-!
# `Meta.Dfs.Repair` — what the repair requests read

A worker claims the first task it can serve (`RepairTasks`), copies the chunk, and reports the acknowledgements
(`RepairReports`). Here are the functions of `meta/dfs.rs` that these requests share: the reads of single records, each
with its own error, the counts of the nodes that have a good copy of a chunk, and the reading of recorded outcomes. The
counts read one record after the other, so that they may mix several states of the store.
-/

namespace Afs

open Interaction

/-! ## Records -/

/-- The session of a node, if it is live. -/
def currentLiveSession (nodeId : String) (now : UInt64) : DfsProg NodeSession := do
  Prog.require (match (← storeRead (.currentNodeSession nodeId)).entity with
    | some (.nodeSession session) => if session.isLiveAtUnixMs now then some session else none
    | _ => none) (conflict "Node session is not current")

/-- The same for a given epoch and session. -/
def currentSession (nodeId : String) (epoch : UInt64) (sessionId : Option String) (now : UInt64) :
    DfsProg NodeSession := do
  let session ← currentLiveSession nodeId now
  Prog.check (session.leaseEpoch = epoch && sessionId.all fun id => session.sessionId = id)
    (conflict "Node session is not current")
  return session

def readChunk (chunkId : ChunkId) : DfsProg ChunkObject := do
  Prog.require (match (← storeRead (.dfsChunk chunkId)).entity with
    | some (.dfsChunk chunk) => some chunk
    | _ => none) (notFound "DFS chunk is missing")

def readCopy (copyId : CopyId) : DfsProg CopyRecord := do
  Prog.require (match (← storeRead (.dfsCopy copyId)).entity with
    | some (.dfsCopy copy) => some copy
    | _ => none) (notFound "DFS copy is missing")

def readPlacement (chunkId : ChunkId) : DfsProg PlacementRecord := do
  Prog.require (match (← storeRead (.dfsPlacement chunkId)).entity with
    | some (.dfsPlacement placement) => some placement
    | _ => none) (notFound "DFS placement is missing")

def readReplicationTask (taskId : ReplicationTaskId) : DfsProg ReplicationTask := do
  Prog.require (match (← storeRead (.dfsReplicationTask taskId)).entity with
    | some (.dfsReplicationTask task) => some task
    | _ => none) (notFound "DFS replication task is missing")

/-! ## Live sources -/

def copyIsOnNode (copy : CopyRecord) (nodeId : String) : Bool :=
  match copy.location with
  | .node copyNode _ _ _ _ => copyNode = nodeId
  | .external _ _ _ => false

/-- The copy has the length and the digest of the chunk. -/
def copyMatchesChunk (copy : CopyRecord) (chunk : ChunkObject) : Bool :=
  copy.chunkId = chunk.id && copy.persistedBytes = chunk.length && copy.verifiedDigest = chunk.contentDigest

/-- The copy as the live process of its device serves it. A catalog older than the receipt has no authority for
    it; the same process may have moved beyond the catalog it registered with. -/
def servingReadCopy (copy : CopyRecord) (session : NodeSession) (now : UInt64) : Option CopyRecord :=
  match copy.location with
  | .external _ _ _ => none
  | .node nodeId nodeEpoch deviceId deviceEpoch catalogRevision =>
    if !copy.isReadyDurable || nodeId ≠ session.nodeId || nodeEpoch = 0 || session.leaseEpoch < nodeEpoch
        || !session.isLiveAtUnixMs now
        || !session.storageDevices.any fun device =>
          device.deviceId = deviceId && device.deviceEpoch = deviceEpoch
            && (session.leaseEpoch = nodeEpoch || device.catalogRevision ≥ catalogRevision) then none
    else
      some { copy with location := .node nodeId session.leaseEpoch deviceId deviceEpoch catalogRevision }

/-- The node of a location that belongs to a node. -/
def CopyLocation.nodeId? : CopyLocation → Option String
  | .node nodeId _ _ _ _ => some nodeId
  | .external _ _ _ => none

/-- The loop of `live_ready_copy_count_excluding` over the copies of a placement. -/
def liveReadyNodes (chunk : ChunkObject) (now : UInt64) (excluded : Option CopyId) :
    List CopyId → List String → DfsProg (List String)
  | [], nodes => return nodes
  | copyId :: copyIds, nodes => do
    if excluded = some copyId then liveReadyNodes chunk now excluded copyIds nodes
    else
      let copy ← readCopy copyId
      match copy.location.nodeId? with
      | some nodeId =>
        if copyMatchesChunk copy chunk then
          match ← Prog.attempt (currentLiveSession nodeId now) with
          | .ok session =>
            if (servingReadCopy copy session now).isSome then
              liveReadyNodes chunk now excluded copyIds (nodes.insert nodeId)
            else liveReadyNodes chunk now excluded copyIds nodes
          | .error _ => liveReadyNodes chunk now excluded copyIds nodes
        else liveReadyNodes chunk now excluded copyIds nodes
      | none => liveReadyNodes chunk now excluded copyIds nodes

def liveReadyCopyCountExcluding (placement : PlacementRecord) (now : UInt64) (excluded : Option CopyId) :
    DfsProg Nat := do
  let chunk ← readChunk placement.chunkId
  return (← liveReadyNodes chunk now excluded placement.copies []).length

def liveReadyCopyCount (placement : PlacementRecord) (now : UInt64) : DfsProg Nat :=
  liveReadyCopyCountExcluding placement now none

/-- The loop of `live_ready_copy_count_from_observed_excluding`; a session that is not current is skipped, any
    other failure is not. -/
def liveObservedNodes (now : UInt64) (excluded : List CopyId) :
    List CopyRecord → List String → DfsProg (List String)
  | [], nodes => return nodes
  | copy :: copies, nodes => do
    if copy.id ∈ excluded then liveObservedNodes now excluded copies nodes
    else
      match copy.location.nodeId? with
      | none => liveObservedNodes now excluded copies nodes
      | some nodeId =>
        match ← Prog.attempt (currentLiveSession nodeId now) with
        | .ok session =>
          if (servingReadCopy copy session now).isSome then
            liveObservedNodes now excluded copies (nodes.insert nodeId)
          else liveObservedNodes now excluded copies nodes
        | .error error =>
          if error.code = .metaDfsConflict then liveObservedNodes now excluded copies nodes else throw error

/-! ## Outcomes -/

def replicationClaimOutcome (outcome : TxnOutcome) (requestDigest : Digest) : Result (Option ReplicationClaim) :=
  let read (stored : RequestOutcome) : Result (Option ReplicationClaim) :=
    if stored.operation ≠ .dfsClaimReplicationTask then
      .error (invalid "DFS replication claim replay used another operation")
    else
      match stored.result with
      | .dfsReplicationClaim found claim =>
        if found = requestDigest then .ok claim
        else .error (invalid "DFS replication claim replay request does not match original")
      | _ => .error (invalid "DFS replication claim outcome has wrong result")
  match outcome with
  | .committed _ stored | .conditionFailed _ (some stored) => read stored
  | .conditionFailed _ none => .error (conflict "DFS replication claim changed during commit")

def replicationTaskOutcome (outcome : TxnOutcome) (operation : StoreOperation) (requestDigest : Digest) :
    Result ReplicationTask :=
  let read (stored : RequestOutcome) : Result ReplicationTask :=
    if stored.operation ≠ operation then .error (invalid "DFS replication task replay used another operation")
    else do
      match ← namespaceResultInner stored.result requestDigest with
      | .dfsReplicationTask task => .ok task
      | _ => .error (invalid "DFS replication task outcome has wrong result")
  match outcome with
  | .committed _ stored | .conditionFailed _ (some stored) => read stored
  | .conditionFailed _ none => .error (conflict "DFS replication task changed during commit")

def emptyNamespaceOutcome (outcome : TxnOutcome) (operation : StoreOperation) (requestDigest : Digest) :
    Result Unit :=
  let read (stored : RequestOutcome) : Result Unit :=
    if stored.operation ≠ operation then .error (invalid "DFS empty replay used another operation")
    else do
      match ← namespaceResultInner stored.result requestDigest with
      | .empty => .ok ()
      | _ => .error (invalid "DFS empty outcome has wrong result")
  match outcome with
  | .committed _ stored | .conditionFailed _ (some stored) => read stored
  | .conditionFailed _ none => .error (conflict "DFS empty operation changed during commit")

end Afs
