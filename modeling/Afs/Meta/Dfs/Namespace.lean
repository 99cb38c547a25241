import Afs.Meta.Dfs.Replay

/-!
# `Meta.Dfs.Namespace` — the requests that make entries

`create`, `mkdir`, `mknod`, `symlink` and `link` of `meta/dfs.rs`; the requests that remove and move entries are in
`Rename`. Each answers a retried request from its recorded outcome, reads what it needs one read at a time, builds one
transaction and submits it. The transactions are definitions of their own, so that what a request may commit can be
stated without its read phase.
-/

namespace Afs

open Interaction
open Prog (lift check)

/-! ## Creating entries -/

/-- The inode a creating request starts with. -/
def freshInode (namespaceId : NamespaceId) (inodeId : InodeId) (kind : InodeKind) (attributes : InodeAttributes)
    (symlinkTarget : Option Bytes) : InodeRecord where
  namespaceId := namespaceId
  inodeId := inodeId
  kind := kind
  attributes := attributes
  headVersion := none
  symlinkTarget := symlinkTarget
  xattrs := []
  revision := 1

/-- The transaction of `mkdir`, `mknod` and `symlink`: a name and an inode that were both absent, under an
    unchanged parent. -/
def newEntryTxn (request : RequestKey) (operation : StoreOperation) (requestDigest : Digest) (key : DentryKey)
    (inode parent : InodeRecord) (delta : Int) (now : UInt64) : MetaTxn :=
  let txn := pushParentNamespaceChange
    { request
      operation
      conditions := [.requestAbsent request, .missing (.dfsDentry key), .missing (.dfsInode inode.inodeId)]
      mutations := [] } parent delta now
  { txn with
    mutations := txn.mutations ++
      [.put (.dfsDentry ⟨key, inode.inodeId⟩), .put (.dfsInode inode),
        .recordRequestOutcome ⟨request, operation, namespaceResult requestDigest (.dfsInode inode)⟩] }

/-- The transaction of `create`, which also grants the creator a write lease. -/
def createTxn (request : RequestKey) (requestDigest : Digest) (key : DentryKey) (inode : InodeRecord)
    (lease : WriteLease) (parent : InodeRecord) (now : UInt64) : MetaTxn :=
  let txn := pushParentNamespaceChange
    { request
      operation := .dfsCreate
      conditions := [.requestAbsent request, .missing (.dfsDentry key), .missing (.dfsInode inode.inodeId),
        .missing (.dfsWriteLease inode.inodeId)]
      mutations := [] } parent 0 now
  { txn with
    mutations := txn.mutations ++
      [.put (.dfsDentry ⟨key, inode.inodeId⟩), .put (.dfsInode inode), .put (.dfsWriteLease lease),
        .recordRequestOutcome
          ⟨request, .dfsCreate, namespaceResult requestDigest (.dfsInodeWithLease inode lease)⟩] }

/-- The parent drifted by timestamps and revision only, as concurrent changes of its entries make it drift. -/
def createParentRetryDriftOnly (previous current : InodeRecord) : Bool :=
  if previous = current
      || previous.namespaceId ≠ current.namespaceId
      || previous.inodeId ≠ current.inodeId
      || previous.kind ≠ .directory
      || current.kind ≠ .directory
      || previous.headVersion ≠ current.headVersion
      || previous.symlinkTarget ≠ current.symlinkTarget
      || previous.xattrs ≠ current.xattrs
      || previous.attributes.mode ≠ current.attributes.mode
      || previous.attributes.uid ≠ current.attributes.uid
      || previous.attributes.gid ≠ current.attributes.gid
      || previous.attributes.nlink ≠ current.attributes.nlink
      || previous.attributes.atimeUnixMs ≠ current.attributes.atimeUnixMs then false
  else
    current.revision > previous.revision
      && current.attributes.mtimeUnixMs ≥ previous.attributes.mtimeUnixMs
      && current.attributes.ctimeUnixMs ≥ previous.attributes.ctimeUnixMs

/-- The parent to retry a lost create with, if only its timestamps moved. -/
def retryableCreateParentDrift (namespaceId : NamespaceId) (parentInodeId : InodeId) (dentryKey : DentryKey)
    (inodeId : InodeId) (previousParent : InodeRecord) : DfsProg (Option InodeRecord) := do
  if (← storeRead (.dfsDentry dentryKey)).entity.isSome then return none
  else if (← storeRead (.dfsInode inodeId)).entity.isSome then return none
  else if (← storeRead (.dfsWriteLease inodeId)).entity.isSome then return none
  else
    let currentParent ← directoryForMutation namespaceId parentInodeId
    if createParentRetryDriftOnly previousParent currentParent then return some currentParent
    else return none

/-- One submission of `create`; after a race lost to changes of the parent's timestamps only, `retry` continues
    with the parent as it is now. -/
def createAttempt (request : CreateFileRequest) (requestDigest : Digest) (inode : InodeRecord)
    (lease : WriteLease) (retry : InodeRecord → DfsProg (InodeRecord × WriteLease)) (parent : InodeRecord) :
    DfsProg (InodeRecord × WriteLease) := do
  let dentryKey : DentryKey := ⟨request.namespaceId, request.parentInodeId, request.name⟩
  let now ← nowUnixMs
  let reply ← storeCommit (createTxn ⟨request.callerId, request.operationId.value⟩ requestDigest dentryKey inode
    lease parent now)
  let outcome ← lift (validateNamespaceOutcome reply requestDigest)
  match inodeAndLeaseOutcome outcome .dfsCreate with
  | .ok created => return created
  | .error error =>
    if error.code = .metaDfsConflict then
      replayOr (replayedNamespaceInodeAndLease request.callerId request.operationId .dfsCreate requestDigest) do
        match ← retryableCreateParentDrift request.namespaceId request.parentInodeId dentryKey
            inode.inodeId parent with
        | none => throw error
        | some currentParent => retry currentParent
    else throw error

/-- The submission loop of `create`, with the number of retries left. -/
def createAttempts (request : CreateFileRequest) (requestDigest : Digest) (inode : InodeRecord)
    (lease : WriteLease) : Nat → InodeRecord → DfsProg (InodeRecord × WriteLease)
  | 0 => createAttempt request requestDigest inode lease fun _ =>
    throw (conflict "DFS create parent changed repeatedly during bounded retry")
  | retries + 1 => createAttempt request requestDigest inode lease
    (createAttempts request requestDigest inode lease retries)

/-- A new regular file takes its attributes from the request as they are. -/
def createdInode (codec : Codec) (request : CreateFileRequest) : InodeRecord :=
  freshInode request.namespaceId (codec.namespaceInodeId request.callerId request.operationId) .regular
    request.attributes none

/-- The lease the creator starts with. -/
def createdLease (codec : Codec) (request : CreateFileRequest) (expiresAtUnixMs : UInt64) : WriteLease where
  inodeId := codec.namespaceInodeId request.callerId request.operationId
  ownerNodeId := request.callerId
  ownerSessionId := request.ownerSessionId
  leaseEpoch := 1
  expiresAtUnixMs := expiresAtUnixMs

/-- `CREATE_PARENT_DRIFT_RETRY_LIMIT` attempts are 63 retries. -/
def create (codec : Codec) (request : CreateFileRequest) : DfsProg (InodeRecord × WriteLease) := do
  let requestDigest ← lift (codec.namespaceRequestDigest (.create request))
  lift (requireId request.callerId "caller_id")
  lift (requireId request.ownerSessionId "owner_session_id")
  lift (requireId request.operationId.value "operation_id")
  lift (requireId request.namespaceId.value "namespace_id")
  lift (requireId request.parentInodeId.value "parent_inode_id")
  replayOr (replayedNamespaceInodeAndLease request.callerId request.operationId .dfsCreate requestDigest) do
    lift (validateName request.name)
    let expiry ← leaseExpiry request.leaseSeconds
    let parent ← directoryForMutation request.namespaceId request.parentInodeId
    createAttempts request requestDigest (createdInode codec request) (createdLease codec request expiry) 63 parent

def mkdirAttributes (request : MkdirRequest) (parent : InodeRecord) : InodeAttributes :=
  { request.attributes with
    uid := request.caller.uid
    gid := inheritedChildGid request.caller parent
    mode :=
      if parent.attributes.mode &&& 0o2000 ≠ 0 then request.attributes.mode ||| 0o2000
      else request.attributes.mode
    nlink := 2 }

def mkdir (codec : Codec) (request : MkdirRequest) : DfsProg InodeRecord := do
  let requestDigest ← lift (codec.namespaceRequestDigest (.mkdir request))
  lift (requireId request.callerId "caller_id")
  lift (requireId request.operationId.value "operation_id")
  lift (requireId request.namespaceId.value "namespace_id")
  lift (requireId request.parentInodeId.value "parent_inode_id")
  replayOr (replayedNamespaceInode request.callerId request.operationId .dfsMkdir requestDigest) do
    lift (validateName request.name)
    let parent ← directoryForMutation request.namespaceId request.parentInodeId
    lift (ensureDirectoryCreateAccess request.caller parent)
    let inode := freshInode request.namespaceId (codec.namespaceInodeId request.callerId request.operationId)
      .directory (mkdirAttributes request parent) none
    let now ← nowUnixMs
    let reply ← storeCommit (newEntryTxn ⟨request.callerId, request.operationId.value⟩ .dfsMkdir requestDigest
      ⟨request.namespaceId, request.parentInodeId, request.name⟩ inode parent 1 now)
    lift do inodeOutcome (← validateNamespaceOutcome reply requestDigest) .dfsMkdir

/-- The device number of a block or character device. -/
def SpecialNodeKind.rdev? : SpecialNodeKind → Option UInt64
  | .blockDevice rdev | .charDevice rdev => some rdev
  | .fifo | .socket => none

def mknodAttributes (request : MknodRequest) (parent : InodeRecord) (now : UInt64) : InodeAttributes :=
  { request.attributes with
    uid := request.caller.uid
    gid := inheritedChildGid request.caller parent
    nlink := 1
    atimeUnixMs := now
    mtimeUnixMs := now
    ctimeUnixMs := now }

/-- Special inodes: the store owns the name, mode, type and device number. -/
def mknod (codec : Codec) (request : MknodRequest) : DfsProg InodeRecord := do
  let requestDigest ← lift (codec.namespaceRequestDigest (.mknod request))
  lift (requireId request.callerId "caller_id")
  lift (requireId request.operationId.value "operation_id")
  lift (requireId request.namespaceId.value "namespace_id")
  lift (requireId request.parentInodeId.value "parent_inode_id")
  replayOr (replayedNamespaceInode request.callerId request.operationId .dfsMknod requestDigest) do
    lift (validateName request.name)
    let parent ← directoryForMutation request.namespaceId request.parentInodeId
    lift (ensureDirectoryCreateAccess request.caller parent)
    check (request.kind.rdev?.isNone || request.caller.uid = 0)
      (operationNotPermitted "DFS device inode creation requires a privileged caller")
    check (request.kind.rdev?.all fun rdev => rdev.toNat < UInt32.size)
      (invalid "DFS device number exceeds the FUSE representable range")
    let now ← nowUnixMs
    let inode := freshInode request.namespaceId (codec.namespaceInodeId request.callerId request.operationId)
      (.special request.kind) (mknodAttributes request parent now) none
    let parentNow ← nowUnixMs
    let reply ← storeCommit (newEntryTxn ⟨request.callerId, request.operationId.value⟩ .dfsMknod requestDigest
      ⟨request.namespaceId, request.parentInodeId, request.name⟩ inode parent 0 parentNow)
    lift do inodeOutcome (← validateNamespaceOutcome reply requestDigest) .dfsMknod

def symlinkAttributes (request : SymlinkRequest) (parent : InodeRecord) : InodeAttributes :=
  { request.attributes with
    uid := request.caller.uid
    gid := inheritedChildGid request.caller parent
    nlink := 1 }

def symlink (codec : Codec) (request : SymlinkRequest) : DfsProg InodeRecord := do
  let requestDigest ← lift (codec.namespaceRequestDigest (.symlink request))
  lift (requireId request.callerId "caller_id")
  lift (requireId request.operationId.value "operation_id")
  lift (requireId request.namespaceId.value "namespace_id")
  lift (requireId request.parentInodeId.value "parent_inode_id")
  replayOr (replayedNamespaceInode request.callerId request.operationId .dfsSymlink requestDigest) do
    lift (validateName request.name)
    lift (validateSymlinkTarget request.target)
    let parent ← directoryForMutation request.namespaceId request.parentInodeId
    lift (ensureDirectoryCreateAccess request.caller parent)
    let inode := freshInode request.namespaceId (codec.namespaceInodeId request.callerId request.operationId)
      .symlink (symlinkAttributes request parent) (some request.target)
    let now ← nowUnixMs
    let reply ← storeCommit (newEntryTxn ⟨request.callerId, request.operationId.value⟩ .dfsSymlink
      requestDigest ⟨request.namespaceId, request.parentInodeId, request.name⟩ inode parent 0 now)
    lift do inodeOutcome (← validateNamespaceOutcome reply requestDigest) .dfsSymlink

/-! ## Hard links -/

/-- The inode with a changed link count, touched. -/
def relinkedInode (inode : InodeRecord) (nlink : UInt32) (now : UInt64) : InodeRecord :=
  { inode with
    attributes := { inode.attributes with nlink, ctimeUnixMs := now }
    revision := inode.revision.saturatingAdd 1 }

def linkTxn (request : RequestKey) (requestDigest : Digest) (key : DentryKey) (inode parent : InodeRecord)
    (inodeNow parentNow : UInt64) : MetaTxn :=
  let linked := relinkedInode inode (inode.attributes.nlink.saturatingAdd 1) inodeNow
  let txn := pushParentNamespaceChange
    { request
      operation := .dfsLink
      conditions := [.requestAbsent request, .missing (.dfsDentry key), .entityEquals (.dfsInode inode)]
      mutations := [] } parent 0 parentNow
  { txn with
    mutations := txn.mutations ++
      [.put (.dfsDentry ⟨key, inode.inodeId⟩), .put (.dfsInode linked),
        .recordRequestOutcome ⟨request, .dfsLink, namespaceResult requestDigest (.dfsInode linked)⟩] }

def link (codec : Codec) (request : LinkRequest) : DfsProg InodeRecord := do
  let requestDigest ← lift (codec.namespaceRequestDigest (.link request))
  lift (requireId request.callerId "caller_id")
  lift (requireId request.operationId.value "operation_id")
  lift (requireId request.namespaceId.value "namespace_id")
  lift (requireId request.existingInodeId.value "existing_inode_id")
  lift (requireId request.parentInodeId.value "parent_inode_id")
  replayOr (replayedNamespaceInode request.callerId request.operationId .dfsLink requestDigest) do
    lift (validateName request.name)
    let parent ← directoryForMutation request.namespaceId request.parentInodeId
    lift (ensureDirectoryCreateAccess request.caller parent)
    let view ← storeReadView
    let inode ← lift (inodeFromView view request.namespaceId request.existingInodeId)
    check (inode.kind ≠ .directory) (operationNotPermitted "DFS hardlink target cannot be a directory")
    check (inode.attributes.nlink ≠ 0) (notFound "DFS hardlink target is no longer linked")
    check (inode.revision = request.expectedInodeRevision)
      (conflict "DFS hardlink target inode revision changed")
    let inodeNow ← nowUnixMs
    let parentNow ← nowUnixMs
    let reply ← storeCommit (linkTxn ⟨request.callerId, request.operationId.value⟩ requestDigest
      ⟨request.namespaceId, request.parentInodeId, request.name⟩ inode parent inodeNow parentNow)
    lift do inodeOutcome (← validateNamespaceOutcome reply requestDigest) .dfsLink

end Afs
