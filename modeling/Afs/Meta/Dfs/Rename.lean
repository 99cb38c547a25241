import Afs.Meta.Dfs.Namespace

/-!
# `Meta.Dfs.Rename` — removing and moving entries

`unlink`, `rmdir` and `rename` of `meta/dfs.rs`. What makes them safe to interleave is in the transactions: the
entries and inodes they read have to be unchanged, a directory that goes away has to be empty, and a directory
may not move below itself, all evaluated again when the transaction is applied.
-/

namespace Afs

open Interaction
open Prog (lift check)

/-! ## `unlink` and `rmdir` -/

/-- The link count of an inode that loses an entry: a directory is gone, another inode has one name less. -/
def unlinkedCount (inode : InodeRecord) : UInt32 :=
  if inode.kind = .directory then 0 else inode.attributes.nlink.saturatingSub 1

/-- `remove_namespace_entry` chooses by the request, `rename` by the kind of what it replaces. -/
def removedCount (directory : Bool) (inode : InodeRecord) : UInt32 :=
  if directory then 0 else inode.attributes.nlink.saturatingSub 1

def removeTxn (request : RequestKey) (operation : StoreOperation) (requestDigest : Digest) (directory : Bool)
    (key : DentryKey) (dentry : Dentry) (inode parent : InodeRecord) (inodeNow parentNow : UInt64) : MetaTxn :=
  let removed := relinkedInode inode (removedCount directory inode) inodeNow
  let txn := pushParentNamespaceChange
    { request
      operation
      conditions :=
        [.requestAbsent request, .entityEquals (.dfsDentry dentry), .entityEquals (.dfsInode inode)] ++
          (if directory then [.dfsDirectoryEmpty key.namespaceId inode.inodeId] else [])
      mutations := [.delete (.dfsDentry key), .put (.dfsInode removed)] }
    parent (if directory then -1 else 0) parentNow
  { txn with
    mutations := txn.mutations ++
      [.recordRequestOutcome ⟨request, operation, namespaceResult requestDigest (.dfsInode removed)⟩] }

/-- What `rmdir` and `unlink` require of the inode they remove. -/
def checkRemovable (view : StoreState) (namespaceId : NamespaceId) (directory : Bool) (inode : InodeRecord) :
    Result Unit :=
  if directory then
    if inode.kind ≠ .directory then .error (notDirectory "DFS rmdir target is not a directory")
    else if !(directoryEntriesFromView view namespaceId inode.inodeId).isEmpty then
      .error (directoryNotEmpty "DFS rmdir target is not empty")
    else .ok ()
  else if inode.kind = .directory then .error (isDirectory "DFS unlink target is a directory")
  else .ok ()

def removeNamespaceEntry (codec : Codec) (request : UnlinkRequest) (directory : Bool) : DfsProg InodeRecord := do
  let requestDigest ← lift (codec.namespaceRequestDigest (.unlink request))
  lift (requireId request.callerId "caller_id")
  lift (requireId request.operationId.value "operation_id")
  lift (requireId request.namespaceId.value "namespace_id")
  lift (requireId request.parentInodeId.value "parent_inode_id")
  let operation : StoreOperation := if directory then .dfsRmdir else .dfsUnlink
  replayOr (replayedNamespaceInode request.callerId request.operationId operation requestDigest) do
    lift (validateName request.name)
    let parent ← directoryForMutation request.namespaceId request.parentInodeId
    lift (ensureDirectoryCreateAccess request.caller parent)
    let key : DentryKey := ⟨request.namespaceId, request.parentInodeId, request.name⟩
    let view ← storeReadView
    let dentry ← Prog.require (dentryFromView view key) (notFound "DFS namespace entry was not found")
    let inode ← lift (inodeFromView view request.namespaceId dentry.inodeId)
    lift (checkRemovable view request.namespaceId directory inode)
    lift (ensureStickyParentAllows request.caller parent inode)
    let inodeNow ← nowUnixMs
    let parentNow ← nowUnixMs
    let reply ← storeCommit (removeTxn ⟨request.callerId, request.operationId.value⟩ operation requestDigest
      directory key dentry inode parent inodeNow parentNow)
    lift do inodeOutcome (← validateNamespaceOutcome reply requestDigest) operation

def unlink (codec : Codec) (request : UnlinkRequest) : DfsProg InodeRecord :=
  removeNamespaceEntry codec request false

def rmdir (codec : Codec) (request : RmdirRequest) : DfsProg InodeRecord :=
  removeNamespaceEntry codec
    { callerId := request.callerId
      operationId := request.operationId
      namespaceId := request.namespaceId
      parentInodeId := request.parentInodeId
      name := request.name
      caller := request.caller } true

/-! ## `rename` -/

section

variable (request : RequestKey) (requestDigest : Digest) (sourceDentry : Dentry) (sourceInode : InodeRecord)

/-- A rename that changes nothing only records its outcome. -/
def renameNoopTxn : MetaTxn where
  request := request
  operation := .dfsRename
  conditions :=
    [.requestAbsent request, .entityEquals (.dfsDentry sourceDentry), .entityEquals (.dfsInode sourceInode)]
  mutations :=
    [.recordRequestOutcome
      ⟨request, .dfsRename, namespaceResult requestDigest (.dfsRename ⟨sourceInode, none⟩)⟩]

def recordRenameNoop : DfsProg RenameOutcome := do
  let reply ← storeCommit (renameNoopTxn request requestDigest sourceDentry sourceInode)
  lift do renameOutcome (← validateNamespaceOutcome reply requestDigest) .dfsRename

end

def renameOldKey (request : RenameRequest) : DentryKey :=
  ⟨request.namespaceId, request.oldParentInodeId, request.oldName⟩

def renameNewKey (request : RenameRequest) : DentryKey :=
  ⟨request.namespaceId, request.newParentInodeId, request.newName⟩

/-- What is under the new name and goes away: its entry, its inode as read, and the inode afterwards. -/
structure Replaced where
  dentry : Dentry
  (original inode : InodeRecord)

/-- The link changes a rename makes to the parents: one when both names are in the same directory. -/
def renameParents (txn : MetaTxn) (oldParent newParent : InodeRecord) (sameParent movingDirectory : Bool)
    (replacingDirectory : Bool) (oldNow newNow : UInt64) : MetaTxn :=
  if sameParent then pushParentNamespaceChange txn oldParent (if replacingDirectory then -1 else 0) oldNow
  else
    pushParentNamespaceChange
      (pushParentNamespaceChange txn oldParent (if movingDirectory then -1 else 0) oldNow) newParent
      ((if movingDirectory then 1 else 0) - (if replacingDirectory then 1 else 0)) newNow

/-- The inode a rename moves, touched. -/
def renamedInode (source : InodeRecord) (now : UInt64) : InodeRecord :=
  { source with
    attributes := { source.attributes with ctimeUnixMs := now }
    revision := source.revision.saturatingAdd 1 }

def replacesDirectory (replaced : Option Replaced) : Bool :=
  replaced.any fun target => target.original.kind = .directory

/-- The part of a rename that moves the entry. -/
def renameEntriesTxn (request : RequestKey) (oldKey newKey : DentryKey) (sourceDentry : Dentry)
    (sourceInode : InodeRecord) (replaced : Option Replaced) (renameNow : UInt64) : MetaTxn where
  request := request
  operation := .dfsRename
  conditions :=
    [.requestAbsent request, .entityEquals (.dfsDentry sourceDentry), .entityEquals (.dfsInode sourceInode)] ++
      (match replaced with
        | none => [.missing (.dfsDentry newKey)]
        | some target => [.entityEquals (.dfsDentry target.dentry)]) ++
      (if sourceInode.kind = .directory then
        [.dfsNotDescendant newKey.namespaceId sourceInode.inodeId newKey.parentInodeId] else []) ++
      (match replaced with
        | none => []
        | some target =>
          (if sourceInode.kind = .directory || target.original.kind = .directory then
            [.dfsDirectoryEmpty newKey.namespaceId target.original.inodeId] else []) ++
            [.entityEquals (.dfsInode target.original)])
  mutations :=
    [.delete (.dfsDentry oldKey)] ++
      (match replaced with
        | none => []
        | some target => [.delete (.dfsDentry target.dentry.key), .put (.dfsInode target.inode)]) ++
      [.put (.dfsDentry ⟨newKey, sourceInode.inodeId⟩), .put (.dfsInode (renamedInode sourceInode renameNow))]

def renameTxn (request : RequestKey) (requestDigest : Digest) (oldKey newKey : DentryKey) (sourceDentry : Dentry)
    (sourceInode : InodeRecord) (replaced : Option Replaced) (oldParent newParent : InodeRecord)
    (renameNow oldNow newNow : UInt64) : MetaTxn :=
  let txn := renameParents
    (renameEntriesTxn request oldKey newKey sourceDentry sourceInode replaced renameNow) oldParent newParent
    (oldKey.parentInodeId = newKey.parentInodeId) (sourceInode.kind = .directory) (replacesDirectory replaced)
    oldNow newNow
  { txn with
    mutations := txn.mutations ++
      [.recordRequestOutcome ⟨request, .dfsRename,
        namespaceResult requestDigest
          (.dfsRename ⟨renamedInode sourceInode renameNow, replaced.map (·.inode)⟩)⟩] }

/-- What `rename` requires of an existing target of another inode. -/
def checkReplaceable (view : StoreState) (namespaceId : NamespaceId) (source target : InodeRecord) : Result Unit :=
  if source.kind = .directory || target.kind = .directory then
    if source.kind = .directory && target.kind ≠ .directory then
      .error (notDirectory "DFS rename cannot replace a directory with a non-directory")
    else if source.kind ≠ .directory && target.kind = .directory then
      .error (isDirectory "DFS rename cannot replace a non-directory with a directory")
    else if !(directoryEntriesFromView view namespaceId target.inodeId).isEmpty then
      .error (directoryNotEmpty "DFS rename cannot replace a non-empty directory")
    else .ok ()
  else .ok ()

/-- The target that a rename replaces. The condition is on its inode as the same view still has it. -/
def replacedTarget (view : StoreState) (namespaceId : NamespaceId) :
    Option (Dentry × InodeRecord) → DfsProg (Option Replaced)
  | none => return none
  | some (dentry, inode) => do
    let now ← nowUnixMs
    let original ← lift (inodeFromView view namespaceId inode.inodeId)
    return some ⟨dentry, original, relinkedInode inode (unlinkedCount inode) now⟩

/-- Each parent is stamped with its own reading of the clock. -/
def newParentNow (request : RenameRequest) (oldNow : UInt64) : DfsProg UInt64 :=
  if request.oldParentInodeId = request.newParentInodeId then pure oldNow else nowUnixMs

/-- The end of `rename`, once source and target are known. -/
def submitRename (request : RenameRequest) (requestDigest : Digest) (view : StoreState) (sourceDentry : Dentry)
    (sourceInode : InodeRecord) (target : Option (Dentry × InodeRecord)) (oldParent newParent : InodeRecord) :
    DfsProg RenameOutcome := do
  let renameNow ← nowUnixMs
  let replaced ← replacedTarget view request.namespaceId target
  let oldNow ← nowUnixMs
  let newNow ← newParentNow request oldNow
  let reply ← storeCommit (renameTxn ⟨request.callerId, request.operationId.value⟩ requestDigest
    (renameOldKey request) (renameNewKey request) sourceDentry sourceInode replaced oldParent newParent renameNow
      oldNow newNow)
  lift do renameOutcome (← validateNamespaceOutcome reply requestDigest) .dfsRename

def rename (codec : Codec) (request : RenameRequest) : DfsProg RenameOutcome := do
  let requestDigest ← lift (codec.namespaceRequestDigest (.rename request))
  lift (requireId request.callerId "caller_id")
  lift (requireId request.operationId.value "operation_id")
  lift (requireId request.namespaceId.value "namespace_id")
  lift (requireId request.oldParentInodeId.value "old_parent_inode_id")
  lift (requireId request.newParentInodeId.value "new_parent_inode_id")
  replayOr (replayedNamespaceRename request.callerId request.operationId .dfsRename requestDigest) do
    lift (validateName request.oldName)
    lift (validateName request.newName)
    let oldParent ← directoryForMutation request.namespaceId request.oldParentInodeId
    let newParent ← directoryForMutation request.namespaceId request.newParentInodeId
    lift (ensureDirectoryCreateAccess request.caller oldParent)
    lift (if request.oldParentInodeId ≠ request.newParentInodeId then
      ensureDirectoryCreateAccess request.caller newParent else .ok ())
    let view ← storeReadView
    let sourceDentry ← Prog.require (dentryFromView view (renameOldKey request))
      (notFound "DFS rename source was not found")
    let sourceInode ← lift (inodeFromView view request.namespaceId sourceDentry.inodeId)
    lift (ensureStickyParentAllows request.caller oldParent sourceInode)
    let key : RequestKey := ⟨request.callerId, request.operationId.value⟩
    if renameOldKey request = renameNewKey request then recordRenameNoop key requestDigest sourceDentry sourceInode
    else
      check (!(sourceInode.kind = .directory && directoryIsDescendantOrSame view request.namespaceId
          sourceInode.inodeId request.newParentInodeId))
        (invalid "DFS cannot rename a directory below itself")
      match dentryFromView view (renameNewKey request) with
      | none => submitRename request requestDigest view sourceDentry sourceInode none oldParent newParent
      | some target =>
        check (request.mode ≠ .noReplace) (alreadyExists "DFS rename target already exists")
        let targetInode ← lift (inodeFromView view request.namespaceId target.inodeId)
        lift (ensureStickyParentAllows request.caller newParent targetInode)
        if targetInode.inodeId = sourceInode.inodeId then
          recordRenameNoop key requestDigest sourceDentry sourceInode
        else
          lift (checkReplaceable view request.namespaceId sourceInode targetInode)
          submitRename request requestDigest view sourceDentry sourceInode (some (target, targetInode)) oldParent
            newParent

end Afs
