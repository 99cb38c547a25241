import Afs.Meta.Dfs.Replay

/-!
# `Meta.Dfs.Inode` — inode metadata and write leases

`set_inode_attributes`, `set_xattr`, `remove_xattr`, the write-lease requests and `sync_inode_metadata` of
`meta/dfs.rs`. A metadata change is conditional on the whole inode record; a lease change is conditional on the
lease record it was computed from. Their recorded outcomes carry the result only, not the request.
-/

namespace Afs

open Interaction
open Prog (lift check)

/-! ## Attributes -/

/-- The transaction of every metadata change: the inode has to be as it was read. -/
def inodeMetadataTxn (request : RequestKey) (operation : StoreOperation) (current updated : InodeRecord) :
    MetaTxn where
  request := request
  operation := operation
  conditions := [.requestAbsent request, .entityEquals (.dfsInode current)]
  mutations := [.put (.dfsInode updated), .recordRequestOutcome ⟨request, operation, .dfsInode updated⟩]

def commitInodeMetadataMutation (callerId : String) (operationId : OperationId) (operation : StoreOperation)
    (current updated : InodeRecord) : DfsProg InodeRecord := do
  let reply ← storeCommit (inodeMetadataTxn ⟨callerId, operationId.value⟩ operation current updated)
  lift (inodeOutcome reply operation)

/-- The inode after an attribute update. -/
def attrUpdatedInode (current : InodeRecord) (update : InodeAttrUpdate) (now : UInt64) : InodeRecord :=
  let mode := update.mode.getD current.attributes.mode
  let ownershipChanged := update.uid.isSome || update.gid.isSome
  { current with
    attributes :=
      { current.attributes with
        mode := if ownershipChanged && current.kind ≠ .directory then mode &&& ~~~0o6000 else mode
        uid := update.uid.getD current.attributes.uid
        gid := update.gid.getD current.attributes.gid
        atimeUnixMs :=
          match update.atimeUnixMs with
          | some atime => if update.timestampsNow then now else atime
          | none => current.attributes.atimeUnixMs
        mtimeUnixMs :=
          match update.mtimeUnixMs with
          | some mtime => if update.timestampsNow then now else mtime
          | none => current.attributes.mtimeUnixMs
        ctimeUnixMs := now }
    revision := current.revision.saturatingAdd 1 }

def setInodeAttributes (request : SetInodeAttrRequest) : DfsProg InodeRecord := do
  lift (requireId request.callerId "caller_id")
  lift (requireId request.operationId.value "operation_id")
  lift (requireId request.inodeId.value "inode_id")
  replayOr (replayedInode request.callerId request.operationId .dfsSetInodeAttributes) do
    let current ← getInode request.inodeId
    check (current.revision = request.expectedInodeRevision)
      (conflict "DFS inode revision changed before setattr")
    lift (validateAttrUpdatePermission request.caller current request.update)
    let now ← nowUnixMs
    commitInodeMetadataMutation request.callerId request.operationId .dfsSetInodeAttributes current
      (attrUpdatedInode current request.update now)

/-! ## Extended attributes -/

def xattrUpdatedInode (current : InodeRecord) (xattrs : Xattrs) : InodeRecord :=
  { current with xattrs, revision := current.revision.saturatingAdd 1 }

/-- `create` refuses an existing attribute and `replace` a missing one. -/
def checkXattrMode (mode : XattrSetMode) (found : Bool) : Result Unit :=
  match mode with
  | .create => if found then .error (alreadyExists "DFS xattr already exists") else .ok ()
  | .replace => if !found then .error (noData "DFS xattr does not exist") else .ok ()
  | .upsert => .ok ()

def setXattr (request : SetXattrRequest) : DfsProg InodeRecord := do
  lift (requireId request.callerId "caller_id")
  lift (requireId request.operationId.value "operation_id")
  lift (requireId request.inodeId.value "inode_id")
  let name ← lift (xattrKey request.name)
  replayOr (replayedInode request.callerId request.operationId .dfsSetXattr) do
    let current ← getInode request.inodeId
    check (current.revision = request.expectedInodeRevision)
      (conflict "DFS inode revision changed before setxattr")
    lift (ensureXattrPermission request.caller current .write)
    lift (checkXattrMode request.mode (current.xattrs.containsKey name))
    commitInodeMetadataMutation request.callerId request.operationId .dfsSetXattr current
      (xattrUpdatedInode current (Xattrs.insert name request.value current.xattrs))

def removeXattr (request : RemoveXattrRequest) : DfsProg InodeRecord := do
  lift (requireId request.callerId "caller_id")
  lift (requireId request.operationId.value "operation_id")
  lift (requireId request.inodeId.value "inode_id")
  let name ← lift (xattrKey request.name)
  replayOr (replayedInode request.callerId request.operationId .dfsRemoveXattr) do
    let current ← getInode request.inodeId
    check (current.revision = request.expectedInodeRevision)
      (conflict "DFS inode revision changed before removexattr")
    lift (ensureXattrPermission request.caller current .write)
    check (current.xattrs.containsKey name) (noData "DFS xattr does not exist")
    commitInodeMetadataMutation request.callerId request.operationId .dfsRemoveXattr current
      (xattrUpdatedInode current (current.xattrs.remove name))

/-! ## Write leases -/

/-- The lease requests share their arguments. -/
structure LeaseRequest where
  (callerId ownerSessionId : String)
  operationId : OperationId
  inodeId : InodeId
  leaseSeconds : UInt64

def leaseTxn (request : RequestKey) (operation : StoreOperation) (existing : Option WriteLease)
    (lease : WriteLease) : MetaTxn where
  request := request
  operation := operation
  conditions :=
    [.requestAbsent request,
      match existing with
      | some current => .entityEquals (.dfsWriteLease current)
      | none => .missing (.dfsWriteLease lease.inodeId)]
  mutations :=
    [.put (.dfsWriteLease lease), .recordRequestOutcome ⟨request, operation, .dfsWriteLease lease⟩]

section

variable (request : LeaseRequest)

/-- The lease an acquisition starts from: the recorded one, or one of epoch zero that has expired. -/
def leaseBase (existing : Option WriteLease) : WriteLease :=
  existing.getD
    { inodeId := request.inodeId
      ownerNodeId := request.callerId
      ownerSessionId := request.ownerSessionId
      leaseEpoch := 0
      expiresAtUnixMs := 0 }

def sameOwner (lease : WriteLease) : Bool :=
  lease.ownerNodeId = request.callerId && lease.ownerSessionId = request.ownerSessionId

/-- The lease after an acquisition at `now`: a live lease of the same owner is extended, any other is replaced
    under the next epoch. -/
def acquiredLease (existing : Option WriteLease) (now requestedExpiry : UInt64) : WriteLease :=
  let base := leaseBase request existing
  let keeps : Bool := sameOwner request base && base.expiresAtUnixMs > now
  { base with
    ownerNodeId := request.callerId
    ownerSessionId := request.ownerSessionId
    leaseEpoch := if keeps then base.leaseEpoch else base.leaseEpoch.saturatingAdd 1
    expiresAtUnixMs := if keeps then max base.expiresAtUnixMs requestedExpiry else requestedExpiry }

def recordedLease (snapshot : MetaSnapshot) : Option WriteLease :=
  match snapshot.entity with
  | some (.dfsWriteLease lease) => some lease
  | _ => none

def acquireWriteLease : DfsProg WriteLease := do
  lift (requireId request.callerId "caller_id")
  lift (requireId request.ownerSessionId "owner_session_id")
  lift (requireId request.operationId.value "operation_id")
  lift (requireId request.inodeId.value "inode_id")
  replayOr (replayedLease request.callerId request.operationId .dfsAcquireWriteLease) do
    let inode ← getInode request.inodeId
    check (inode.kind = .regular) (invalid "DFS write lease requires a regular file")
    let existing := recordedLease (← storeRead (.dfsWriteLease request.inodeId))
    let now ← nowUnixMs
    let base := leaseBase request existing
    check (sameOwner request base || base.expiresAtUnixMs ≤ now)
      (conflict "DFS write lease is held by another live owner")
    let requestedExpiry ← leaseExpiry request.leaseSeconds
    let reply ← storeCommit (leaseTxn ⟨request.callerId, request.operationId.value⟩ .dfsAcquireWriteLease
      existing (acquiredLease request existing now requestedExpiry))
    lift (leaseOutcome reply .dfsAcquireWriteLease)

/-- Answers the recorded lease of another live owner as it is, before any other check. -/
def openWrite : DfsProg (InodeRecord × WriteLease) := do
  let inode ← getInode request.inodeId
  match recordedLease (← storeRead (.dfsWriteLease request.inodeId)) with
  | some lease =>
    let now ← nowUnixMs
    if lease.expiresAtUnixMs > now && !sameOwner request lease then return (inode, lease)
    else return (inode, ← acquireWriteLease request)
  | none => return (inode, ← acquireWriteLease request)

/-- Who asks for fresh authority; the word stands in the error messages. -/
inductive AuthorityContext
  | lock | write

def AuthorityContext.text : AuthorityContext → String
  | .lock => "lock"
  | .write => "write"

/-- The recorded acquire of a retried resolution, if it matches the caller and the inode. -/
def replayedAuthority (context : AuthorityContext) (recorded : RequestOutcome) : Result WriteLease :=
  if recorded.operation ≠ .dfsAcquireWriteLease then
    .error (invalid "DFS operation_id was already used for another operation")
  else
    match recorded.result with
    | .dfsWriteLease lease =>
      if lease.inodeId = request.inodeId && sameOwner request lease && lease.leaseEpoch ≠ 0 then .ok lease
      else .error (invalid ("DFS " ++ context.text ++ " acquire replay does not match caller and inode"))
    | _ => .error (invalid ("DFS " ++ context.text ++ " acquire replay does not match caller and inode"))

/-- Acquires the lease and checks that the answer is the caller's. -/
def acquireFreshAuthority (context : AuthorityContext) (inode : InodeRecord) : DfsProg (InodeRecord × WriteLease) := do
  let lease ← acquireWriteLease request
  check (lease.inodeId = inode.inodeId && sameOwner request lease && lease.leaseEpoch ≠ 0)
    (invalid ("DFS " ++ context.text ++ " acquire result does not match caller and inode"))
  return (inode, lease)

/-- `resolve_lock_authority` and `resolve_write_authority`. A lost acquire reply is recovered before a newer live
    authority is read. -/
def resolveFreshWriteAuthority (context : AuthorityContext) : DfsProg (InodeRecord × WriteLease) := do
  lift (requireId request.callerId "caller_id")
  lift (requireId request.ownerSessionId "owner_session_id")
  lift (requireId request.operationId.value "operation_id")
  lift (requireId request.inodeId.value "inode_id")
  let view ← storeReadView
  let recorded := (viewRead view (.requestOutcome ⟨request.callerId, request.operationId.value⟩)).requestOutcome
  let inode ← Prog.require (match (viewRead view (.dfsInode request.inodeId)).entity with
    | some (.dfsInode inode) => if inode.inodeId = request.inodeId then some inode else none
    | _ => none) inodeNotFound
  check (inode.kind = .regular)
    (invalid ("DFS " ++ context.text ++ " authority requires a regular file"))
  match recorded with
  | some recorded => return (inode, ← lift (replayedAuthority request context recorded))
  | none =>
    match recordedLease (viewRead view (.dfsWriteLease request.inodeId)) with
    | some lease =>
      check (lease.inodeId = request.inodeId && lease.leaseEpoch ≠ 0 && !lease.ownerNodeId.isEmpty
          && !lease.ownerSessionId.isEmpty)
        (invalid ("DFS stored " ++ context.text ++ " authority is incomplete"))
      let now ← nowUnixMs
      if lease.expiresAtUnixMs > now then return (inode, lease)
      else acquireFreshAuthority request context inode
    | none => acquireFreshAuthority request context inode

end

/-- The recorded lease, when it is live and has the owner and epoch that were presented. -/
def validateWriteLease (callerId : String) (inodeId : InodeId) (presented : WriteLease) : DfsProg WriteLease := do
  check (presented.inodeId = inodeId && presented.ownerNodeId = callerId)
    (conflict "DFS write lease does not belong to caller and inode")
  let current ← Prog.require (recordedLease (← storeRead (.dfsWriteLease inodeId)))
    (conflict "DFS operation requires a current write lease")
  let now ← nowUnixMs
  check (current.inodeId = presented.inodeId && current.ownerNodeId = presented.ownerNodeId
      && current.ownerSessionId = presented.ownerSessionId && current.leaseEpoch = presented.leaseEpoch
      && current.expiresAtUnixMs > now)
    (conflict "DFS write lease changed or expired")
  return current

structure RenewRequest where
  (callerId ownerSessionId : String)
  operationId : OperationId
  current : WriteLease
  leaseSeconds : UInt64

def leaseRetryContended : Error :=
  ⟨.metaDfsLeaseRetry, "DFS lease renewal remained contended after retries"⟩

/-- The renewal loop. The expiry is a hint, so a renewal that lost to another one of the same epoch tries
    again. -/
def renewAttempts (request : RenewRequest) : Nat → DfsProg WriteLease
  | 0 => throw leaseRetryContended
  | attempts + 1 => do
    let stored ← validateWriteLease request.callerId request.current.inodeId request.current
    let requestedExpiry ← leaseExpiry request.leaseSeconds
    let renewed := { stored with expiresAtUnixMs := max stored.expiresAtUnixMs requestedExpiry }
    let reply ← storeCommit (leaseTxn ⟨request.callerId, request.operationId.value⟩ .dfsRenewWriteLease
      (some stored) renewed)
    match reply with
    | .conditionFailed _ none => renewAttempts request attempts
    | outcome => lift (leaseOutcome outcome .dfsRenewWriteLease)

def renewWriteLease (request : RenewRequest) : DfsProg WriteLease := do
  lift (requireId request.callerId "caller_id")
  lift (requireId request.ownerSessionId "owner_session_id")
  lift (requireId request.operationId.value "operation_id")
  lift (requireId request.current.inodeId.value "current.inode_id")
  check (request.current.ownerNodeId = request.callerId
      && request.current.ownerSessionId = request.ownerSessionId)
    (conflict "DFS write lease owner does not match renew caller")
  replayOr (replayedLease request.callerId request.operationId .dfsRenewWriteLease) (renewAttempts request 16)

/-! ## Metadata sync -/

def syncedInode (current : InodeRecord) (delta : CommitMetadataDelta) (mtime ctime : UInt64) : InodeRecord :=
  { current with
    attributes :=
      { current.attributes with
        mode := if delta.killSuidgid then clearedWritePrivileges current.attributes.mode
          else current.attributes.mode
        mtimeUnixMs := mtime
        ctimeUnixMs := ctime }
    revision := current.revision.saturatingAdd 1 }

def syncTxn (request : RequestKey) (current : InodeRecord) (lease : WriteLease) (updated : InodeRecord) :
    MetaTxn where
  request := request
  operation := .dfsSyncInodeMetadata
  conditions :=
    [.requestAbsent request, .entityEquals (.dfsInode current), .entityEquals (.dfsWriteLease lease)]
  mutations :=
    [.put (.dfsInode updated), .recordRequestOutcome ⟨request, .dfsSyncInodeMetadata, .dfsInode updated⟩]

def syncInodeMetadata (callerId : String) (sync : SyncInodeMetadata) : DfsProg InodeRecord := do
  lift (requireId callerId "caller_id")
  lift (requireId sync.operationId.value "operation_id")
  lift (requireId sync.inodeId.value "inode_id")
  replayOr (replayedInode callerId sync.operationId .dfsSyncInodeMetadata) do
    check (sync.metadataDelta.mode = .full) (invalid "DFS inode metadata sync requires full metadata")
    let current ← getInode sync.inodeId
    let currentLease ← validateWriteLease callerId sync.inodeId sync.writeLease
    check (current.revision ≥ sync.expectedInodeRevision && current.headVersion = sync.expectedHeadVersion)
      (conflict "DFS inode changed before metadata sync")
    let mtime ← Prog.require sync.metadataDelta.mtimeUnixMs (invalid "DFS full metadata sync requires mtime")
    let ctime ← Prog.require sync.metadataDelta.ctimeUnixMs (invalid "DFS full metadata sync requires ctime")
    let reply ← storeCommit (syncTxn ⟨callerId, sync.operationId.value⟩ current currentLease
      (syncedInode current sync.metadataDelta mtime ctime))
    lift (inodeOutcome reply .dfsSyncInodeMetadata)

end Afs
