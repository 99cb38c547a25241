import Afs.Meta.Dfs.Base

/-!
# `Meta.Dfs.Replay` — replayed requests, inode reads and parents

What the service methods read before they build a transaction: the outcome a retried request was answered with,
inodes and directory entries, and the parent directory of a namespace change. The root inode is created the first
time a namespace is changed.
-/

namespace Afs

open Interaction
open Prog (lift check)

/-- Answers a retried request from its recorded outcome, and runs the request otherwise. -/
def replayOr {α : Type} (replay : DfsProg (Option α)) (fresh : DfsProg α) : DfsProg α := do
  match ← replay with
  | some answer => return answer
  | none => fresh

/-! ## Replays -/

section

variable (callerId : String) (operationId : OperationId) (operation : StoreOperation)

/-- The outcome recorded under a request key, if it is of the expected operation. -/
def replayedOutcome :
    DfsProg (Option OperationResult) := do
  let snapshot ← storeRead (.requestOutcome ⟨callerId, operationId.value⟩)
  match snapshot.requestOutcome with
  | none => return none
  | some outcome =>
    check (outcome.operation = operation)
      (invalid "DFS operation_id was already used for another operation")
    return some outcome.result

def replayedNamespaceResult (requestDigest : Digest) : DfsProg (Option OperationResult) := do
  match ← replayedOutcome callerId operationId operation with
  | none => return none
  | some result => return some (← lift (namespaceResultInner result requestDigest))

def replayedNamespaceInode (requestDigest : Digest) : DfsProg (Option InodeRecord) := do
  match ← replayedNamespaceResult callerId operationId operation requestDigest with
  | some (.dfsInode inode) => return some inode
  | none => return none
  | some _ => throw (invalid "DFS namespace replay returned the wrong result")

def replayedNamespaceInodeAndLease (requestDigest : Digest) : DfsProg (Option (InodeRecord × WriteLease)) := do
  match ← replayedNamespaceResult callerId operationId operation requestDigest with
  | some (.dfsInodeWithLease inode lease) => return some (inode, lease)
  | none => return none
  | some _ => throw (invalid "DFS namespace replay returned the wrong result")

def replayedNamespaceRename (requestDigest : Digest) : DfsProg (Option RenameOutcome) := do
  match ← replayedNamespaceResult callerId operationId operation requestDigest with
  | some (.dfsRename outcome) => return some outcome
  | none => return none
  | some _ => throw (invalid "DFS namespace replay returned the wrong result")

/-- Unlike the namespace replays, nothing of the request's content is compared. -/
def replayedInode :
    DfsProg (Option InodeRecord) := do
  match ← replayedOutcome callerId operationId operation with
  | some (.dfsInode inode) => return some inode
  | none => return none
  | some _ => throw (invalid "DFS operation replay returned the wrong result")

def replayedLease :
    DfsProg (Option WriteLease) := do
  match ← replayedOutcome callerId operationId operation with
  | some (.dfsWriteLease lease) => return some lease
  | none => return none
  | some _ => throw (invalid "DFS operation replay returned the wrong result")

def replayedReplicationClaim (requestDigest : Digest) : DfsProg (Option (Option ReplicationClaim)) := do
  match ← replayedOutcome callerId operationId operation with
  | none => return none
  | some (.dfsReplicationClaim found claim) =>
    check (found = requestDigest)
      (invalid "DFS replication claim replay request does not match original")
    return some claim
  | some _ => throw (invalid "DFS replication claim replay returned the wrong result")

/-- A record written before reports carried a digest is answered as it is. -/
def replayedReplicationTask (requestDigest : Digest) : DfsProg (Option ReplicationTask) := do
  match ← replayedOutcome callerId operationId operation with
  | none => return none
  | some (.dfsNamespace found result) =>
    check (found = requestDigest)
      (invalid "DFS replication report replay request does not match original")
    match result with
    | .dfsReplicationTask task => return some task
    | _ => throw (invalid "DFS replication task replay returned the wrong result")
  | some (.dfsReplicationTask task) => return some task
  | some _ => throw (invalid "DFS replication task replay returned the wrong result")

end

/-! ## Inodes and directory entries -/

def inodeNotFound : Error := ⟨.nodeVfsNotFound, "DFS inode was not found"⟩

/-- The root directory before its first change. -/
def rootInode (namespaceId : NamespaceId) : InodeRecord where
  namespaceId := namespaceId
  inodeId := ⟨"1"⟩
  kind := .directory
  attributes := ⟨0o755, 0, 0, 2, 0, 0, 0⟩
  headVersion := none
  symlinkTarget := none
  xattrs := []
  revision := 1

def getInode (inodeId : InodeId) : DfsProg InodeRecord := do
  lift (requireId inodeId.value "inode_id")
  let snapshot ← storeRead (.dfsInode inodeId)
  match snapshot.entity with
  | some (.dfsInode inode) => return inode
  | some _ => throw inodeNotFound
  | none => if inodeId.value = "1" then return rootInode ⟨"default"⟩ else throw inodeNotFound

section

variable (view : StoreState) (namespaceId : NamespaceId)

def inodeFromView (inodeId : InodeId) : Result InodeRecord :=
  match (viewRead view (.dfsInode inodeId)).entity with
  | some (.dfsInode inode) => if inode.namespaceId = namespaceId then .ok inode else .error inodeNotFound
  | some _ => .error inodeNotFound
  | none => if inodeId.value = "1" then .ok (rootInode namespaceId) else .error inodeNotFound

def dentryFromView (key : DentryKey) : Option Dentry :=
  match (viewRead view (.dfsDentry key)).entity with
  | some (.dfsDentry dentry) => some dentry
  | _ => none

def directoryEntriesFromView (parentInodeId : InodeId) : List Dentry :=
  (viewRead view (.dfsDirectory namespaceId parentInodeId)).entities.filterMap fun
    | .dfsDentry dentry => some dentry
    | _ => none

/-- The depth-first search of `parent_inode_from_subtree`, which threads the set of directories it has seen. A
    nested call adds a stored directory to `seen`, so the number of stored entities bounds the depth. -/
def parentInodeFromSubtree (inodeId : InodeId) : Nat → InodeId → List InodeId → Option InodeId × List InodeId
  | 0, _, seen => (none, seen)
  | fuel + 1, directoryInodeId, seen =>
    if directoryInodeId ∈ seen then (none, seen)
    else
      (directoryEntriesFromView view namespaceId directoryInodeId).foldl
        (fun (found, seen) dentry =>
          if found.isSome then (found, seen)
          else if dentry.inodeId = inodeId then (some directoryInodeId, seen)
          else
            match inodeFromView view namespaceId dentry.inodeId with
            | .ok inode =>
              if inode.kind = .directory then
                parentInodeFromSubtree inodeId fuel inode.inodeId seen
              else (none, seen)
            | .error _ => (none, seen))
        (none, directoryInodeId :: seen)

def parentInodeFromView (inodeId : InodeId) : Option InodeId :=
  if inodeId.value = "1" then none
  else
    (directoryEntriesFromView view namespaceId ⟨"1"⟩).foldl
      (fun found dentry =>
        if found.isSome then found
        else if dentry.inodeId = inodeId then some ⟨"1"⟩
        else
          match inodeFromView view namespaceId dentry.inodeId with
          | .ok inode =>
            if inode.kind = .directory then
              -- every subtree is searched with a fresh set
              (parentInodeFromSubtree view namespaceId inodeId (view.values.length + 2) inode.inodeId []).1
            else none
          | .error _ => none)
      none

def ancestorWalkFromView (ancestor : InodeId) : Nat → InodeId → List InodeId → Bool
  | 0, _, _ => true
  | fuel + 1, current, seen =>
    if current ∈ seen then true
    else
      match parentInodeFromView view namespaceId current with
      | none => false
      | some parent =>
        if parent = ancestor then true
        else if parent.value = "1" then false
        else ancestorWalkFromView ancestor fuel parent (current :: seen)

/-- The early check of `rename`; the store evaluates its own version again when the rename commits. -/
def directoryIsDescendantOrSame (ancestorInodeId childInodeId : InodeId) : Bool :=
  if ancestorInodeId = childInodeId then true
  else ancestorWalkFromView view namespaceId ancestorInodeId (view.values.length + 2) childInodeId []

end

/-! ## Parents -/

/-- The transaction that persists the root of a namespace. -/
def initializeNamespaceTxn (namespaceId : NamespaceId) : MetaTxn :=
  let request : RequestKey := ⟨"afs-meta", "dfs-namespace-root:" ++ namespaceId.value⟩
  { request
    operation := .dfsInitializeNamespace
    conditions := [.requestAbsent request, .missing (.dfsInode ⟨"1"⟩)]
    mutations :=
      [.put (.dfsInode (rootInode namespaceId)),
        .recordRequestOutcome ⟨request, .dfsInitializeNamespace, .dfsInode (rootInode namespaceId)⟩] }

/-- Submits that transaction when no root is stored, whoever wins the race. -/
def initializeNamespace (namespaceId : NamespaceId) : DfsProg Unit := do
  let snapshot ← storeRead (.dfsInode ⟨"1"⟩)
  if snapshot.entity.isNone then
    let _ ← storeCommit (initializeNamespaceTxn namespaceId)
    return ()
  else return ()

/-- Persists the configured namespace root once; a different namespace is never aliased to it. -/
def ensureNamespaceRoot (namespaceId : NamespaceId) : DfsProg InodeRecord := do
  initializeNamespace namespaceId
  -- a concurrent initializer can win; this read checks the resulting namespace
  let inode ← getInode ⟨"1"⟩
  check (inode.namespaceId = namespaceId)
    (invalid "DFS root already belongs to another configured namespace")
  return inode

/-- The inode of a parent; the root is created on demand. -/
def parentInode (namespaceId : NamespaceId) (parent : InodeId) : DfsProg InodeRecord :=
  if parent.value = "1" then ensureNamespaceRoot namespaceId else getInode parent

/-- The parent of a namespace change: a linked directory of the namespace. The source wraps the answer in
    `Some`; no path answers `None`. -/
def directoryForMutation (namespaceId : NamespaceId) (parent : InodeId) : DfsProg InodeRecord := do
  let inode ← parentInode namespaceId parent
  check (inode.kind = .directory && inode.namespaceId = namespaceId)
    (notDirectory "DFS parent is not a directory in this namespace")
  check (inode.attributes.nlink ≠ 0) (notFound "DFS namespace parent has been removed")
  return inode

/-- `nlink` changed by a signed count, clamped at the bounds of `u32`. -/
def addLinks (nlink : UInt32) (delta : Int) : UInt32 :=
  if 0 ≤ delta then nlink.saturatingAdd (UInt32.ofNat delta.toNat)
  else nlink.saturatingSub (UInt32.ofNat delta.natAbs)

/-- The parent directory after a namespace change. -/
def changedParent (parent : InodeRecord) (delta : Int) (now : UInt64) : InodeRecord :=
  { parent with
    attributes :=
      { parent.attributes with
        mtimeUnixMs := now
        ctimeUnixMs := now
        nlink := addLinks parent.attributes.nlink delta }
    revision := parent.revision.saturatingAdd 1 }

/-- `push_parent_namespace_change`: the parent has to be unchanged, and is touched. -/
def pushParentNamespaceChange (txn : MetaTxn) (parent : InodeRecord) (delta : Int) (now : UInt64) : MetaTxn :=
  { txn with
    conditions := txn.conditions ++ [.entityEquals (.dfsInode parent)]
    mutations := txn.mutations ++ [.put (.dfsInode (changedParent parent delta now))] }

end Afs
