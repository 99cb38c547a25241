import Afs.Lib.Interaction
import Afs.Meta.Store.Commit

/-!
# `Meta.Dfs.Base` — the store as the DFS service sees it, and the service's pure helpers

A `DfsService` method awaits the store between its steps, so it is an interaction program over `StoreOp`. `serve`
says what the store may do with one operation: reads and views show the current state, a commit is
`compareAndCommit` at the current clock, and any of them may report the store unavailable. A commit that
reports so may still have taken effect.

The rest are the pure functions of `meta/dfs.rs` that the service methods share: request identity, name and
permission checks, and the reading of recorded outcomes.
-/

namespace Afs

open Interaction

/-! ## Store operations -/

inductive StoreOp
  | read (read : MetaRead)
  | readView
  | commit (txn : MetaTxn)
  | now

@[reducible] def StoreOp.Reply : StoreOp → Type
  | .read _ => Result MetaSnapshot
  | .readView => Result StoreState
  | .commit _ => Result TxnOutcome
  | .now => UInt64

abbrev DfsProg := Prog StoreOp StoreOp.Reply Error

/-- The authority state together with the wall clock. -/
structure System where
  store : StoreState
  clock : UInt64

/-- How the clock may move. -/
abbrev Tick := UInt64 → UInt64 → Prop

/-- What a request may expect of the others between two of its operations. -/
abbrev Rely := System → System → Prop

/-- What the store does with one operation. -/
def serve (s : System) : (op : StoreOp) → op.Reply → System → Prop
  | .read read, reply, s' =>
    s' = s ∧ (reply = .ok (s.store.read s.clock read) ∨ ∃ message, reply = .error (unavailable message))
  | .readView, reply, s' => s' = s ∧ (reply = .ok s.store ∨ ∃ message, reply = .error (unavailable message))
  | .commit txn, reply, s' =>
    s'.clock = s.clock ∧
      ((reply, s'.store) = s.store.compareAndCommit s.clock txn ∨
        (∃ message, reply = .error (unavailable message)) ∧
          (s'.store = s.store ∨ s'.store = (s.store.compareAndCommit s.clock txn).2))
  | .now, reply, s' => s' = s ∧ reply = s.clock

/-- `self.store.read(..).await?`. -/
def storeRead (read : MetaRead) : DfsProg MetaSnapshot := .call (.read read) Prog.lift

/-- `self.store.read_view().await?`. -/
def storeReadView : DfsProg StoreState := .call .readView Prog.lift

/-- `self.store.compare_and_commit(txn).await?`. -/
def storeCommit (txn : MetaTxn) : DfsProg TxnOutcome := .call (.commit txn) Prog.lift

def nowUnixMs : DfsProg UInt64 := .call .now .ret

/-- `view.read(..)`. Only the OwnerFs grant read consults the clock, and the DFS service never issues it on a
    view. -/
def viewRead (view : StoreState) (read : MetaRead) : MetaSnapshot := view.read 0 read

/-! ## Third-party functions -/

/-- The requests whose content is bound to their identity. `rmdir` is digested as the `UnlinkRequest` it is
    turned into. -/
inductive DigestedRequest
  | create (request : CreateFileRequest)
  | mkdir (request : MkdirRequest)
  | mknod (request : MknodRequest)
  | unlink (request : UnlinkRequest)
  | rename (request : RenameRequest)
  | link (request : LinkRequest)
  | symlink (request : SymlinkRequest)
  | commitFileVersion (commit : CommitFileVersion)
  | claimReplicationTask (request : ClaimReplicationTask)
  | reportReplicationTask (request : ReportReplicationTask)
  | reportChunkCorruption (request : ReportChunkCorruption)

/-- The two third-party functions the service calls: `blake3::hash` and `serde_json::to_vec`. -/
structure Codec where
  blake3 : Bytes → Digest
  toJson : DigestedRequest → Option Bytes

namespace Codec

/-- `namespace_request_digest`. -/
def namespaceRequestDigest (codec : Codec) (request : DigestedRequest) : Result Digest :=
  match codec.toJson request with
  | some bytes => .ok (codec.blake3 bytes)
  | none => .error (invalid "DFS namespace request cannot be encoded")

def hexDigit (n : Nat) : Char := if n < 10 then Char.ofNat (48 + n) else Char.ofNat (87 + n)

/-- `Hash::to_hex`. -/
def toHex (digest : Digest) : String :=
  String.ofList (digest.toList.flatMap fun byte => [hexDigit (byte.toNat / 16), hexDigit (byte.toNat % 16)])

def utf8Bytes (text : String) : Bytes := text.toUTF8.toList

/-- `u64::to_be_bytes`. -/
def toBeBytes (n : UInt64) : Bytes :=
  [56, 48, 40, 32, 24, 16, 8, 0].map fun shift : UInt64 => (n >>> shift).toUInt8

/-- `namespace_inode_id`: the identity of the inode a request creates. -/
def namespaceInodeId (codec : Codec) (callerId : String) (operationId : OperationId) : InodeId :=
  ⟨"inode:" ++ toHex (codec.blake3
    (toBeBytes (UInt64.ofNat callerId.utf8ByteSize) ++ utf8Bytes callerId ++ utf8Bytes operationId.value))⟩

end Codec

/-! ## Field, name and permission checks -/

def requireId (value field : String) : Result Unit :=
  if value.isEmpty then .error (invalid (field ++ " is required")) else .ok ()

def validateName (name : Bytes) : Result Unit :=
  if name.length > 255 then .error (nameTooLong "DFS name exceeds the supported component length")
  else if name.isEmpty || name = [46] || name = [46, 46] || name.contains 47 then .error invalidNameError
  else .ok ()

def validateSymlinkTarget (target : Bytes) : Result Unit :=
  if target.isEmpty then .error (invalid "DFS symlink target must not be empty")
  else if target.length > 4096 then .error (nameTooLong "DFS symlink target exceeds supported length")
  else .ok ()

/-- Only `user.*` attribute names are accepted. -/
def xattrKey (name : Bytes) : Result Bytes :=
  if name.isEmpty || name.length > 255 then .error (nameTooLong "DFS xattr name length is unsupported")
  else if !Codec.utf8Bytes "user." <+: name then
    .error (notSupported "DFS currently supports only user.* xattrs")
  else .ok name

inductive AccessMode
  | read | write

inductive XattrAccess
  | read | write
  deriving DecidableEq

section

variable (caller : CallerContext)

def callerInGroup (gid : UInt32) : Bool :=
  caller.gid = gid || caller.supplementaryGids.contains gid

/-- The permission class of the caller: the shift of the owner, group or other bits. -/
def permissionShift (inode : InodeRecord) : UInt32 :=
  if caller.uid = inode.attributes.uid then 6
  else if callerInGroup caller inode.attributes.gid then 3
  else 0

def ensureBasicAccess (inode : InodeRecord) (access : AccessMode) : Result Unit :=
  let mask : UInt32 := match access with
    | .read => 4
    | .write => 2
  if caller.uid = 0 then .ok ()
  else if (inode.attributes.mode >>> permissionShift caller inode) &&& mask ≠ 0 then .ok ()
  else .error (permissionDenied "DFS caller lacks inode permission bits for metadata operation")

def ensureDirectoryCreateAccess (inode : InodeRecord) : Result Unit :=
  if caller.uid = 0 then .ok ()
  else if (inode.attributes.mode >>> permissionShift caller inode) &&& 3 = 3 then .ok ()
  else .error (permissionDenied "DFS namespace mutation requires parent write and search permission")

def ensureStickyParentAllows (parent victim : InodeRecord) : Result Unit :=
  if parent.attributes.mode &&& 0o1000 = 0 || caller.uid = 0 || caller.uid = parent.attributes.uid
      || caller.uid = victim.attributes.uid then .ok ()
  else .error (permissionDenied ("DFS sticky directory mutation requires directory owner, victim owner, "
    ++ "or privileged caller context"))

def validateAttrUpdatePermission (inode : InodeRecord) (update : InodeAttrUpdate) : Result Unit :=
  if update.uid.any fun uid =>
      caller.uid ≠ 0 && !(caller.uid = inode.attributes.uid && uid = inode.attributes.uid) then
    .error (operationNotPermitted "DFS chown requires privileged caller context")
  else if update.gid.any fun gid =>
      caller.uid ≠ 0 && !(caller.uid = inode.attributes.uid
        && (gid = inode.attributes.gid || callerInGroup caller gid)) then
    .error (operationNotPermitted
      "DFS chgrp requires owner with target group membership or privileged caller context")
  else if update.mode.isSome && caller.uid ≠ 0 && caller.uid ≠ inode.attributes.uid then
    .error (operationNotPermitted "DFS chmod requires owner or privileged caller context")
  else if (update.atimeUnixMs.isSome || update.mtimeUnixMs.isSome)
      && caller.uid ≠ 0 && caller.uid ≠ inode.attributes.uid then
    if !update.timestampsNow then
      .error (operationNotPermitted "DFS explicit timestamps require owner or privileged caller context")
    else ensureBasicAccess caller inode .write
  else .ok ()

def ensureXattrPermission (inode : InodeRecord) (access : XattrAccess) : Result Unit :=
  if !(inode.kind = .regular || inode.kind = .directory) then
    match access with
    | .read => .error (noData "DFS user xattrs are not available on this inode kind")
    | .write => .error (operationNotPermitted
        "DFS user xattrs can be written only on regular files and directories")
  else if inode.kind = .directory && inode.attributes.mode &&& 0o1000 ≠ 0 && access = .write
      && caller.uid ≠ 0 && caller.uid ≠ inode.attributes.uid then
    .error (operationNotPermitted
      "DFS sticky directory xattr writes require owner or privileged caller context")
  else
    ensureBasicAccess caller inode (match access with
      | .read => .read
      | .write => .write)

end

def clearedWritePrivileges (mode : UInt32) : UInt32 :=
  let clear : UInt32 := 0o4000 ||| (if mode &&& 0o0010 ≠ 0 then 0o2000 else 0)
  mode &&& ~~~clear

def inheritedChildGid (caller : CallerContext) (parent : InodeRecord) : UInt32 :=
  if parent.attributes.mode &&& 0o2000 ≠ 0 then parent.attributes.gid else caller.gid

def leaseExpiry (leaseSeconds : UInt64) : DfsProg UInt64 := do
  Prog.check (leaseSeconds ≠ 0) (invalid "lease_seconds must be greater than zero")
  let now ← nowUnixMs
  return now.saturatingAdd (leaseSeconds.saturatingMul 1000)

/-! ## Recorded outcomes -/

def namespaceResult (requestDigest : Digest) (result : OperationResult) : OperationResult :=
  .dfsNamespace requestDigest result

def namespaceResultInner (result : OperationResult) (expected : Digest) : Result OperationResult :=
  match result with
  | .dfsNamespace requestDigest result =>
    if requestDigest = expected then .ok result
    else .error (invalid
      "DFS namespace retry differs from the recorded request or lacks its identity proof")
  | _ => .error (invalid
      "DFS namespace retry differs from the recorded request or lacks its identity proof")

/-- Replaces a bound result by its inner one, after comparing the digests. -/
def validateNamespaceOutcome (outcome : TxnOutcome) (expected : Digest) : Result TxnOutcome :=
  match outcome with
  | .committed revision stored => do
    let result ← namespaceResultInner stored.result expected
    return .committed revision { stored with result }
  | .conditionFailed revision (some stored) => do
    let result ← namespaceResultInner stored.result expected
    return .conditionFailed revision (some { stored with result })
  | .conditionFailed revision none => .ok (.conditionFailed revision none)

section

variable (outcome : TxnOutcome) (operation : StoreOperation)

/-- The stored outcome of a transaction reply, when it is of the expected operation. The functions that read a
    reply differ in the text of a lost race only. -/
def storedOutcome (changed : String) : Result RequestOutcome :=
  match outcome with
  | .committed _ stored =>
    if stored.operation = operation then .ok stored
    else .error (invalid "DFS metadata operation returned an invalid outcome")
  | .conditionFailed _ (some stored) =>
    if stored.operation = operation then .ok stored else .error (conflict changed)
  | .conditionFailed _ none => .error (conflict changed)

def inodeOutcome : Result InodeRecord := do
  match (← storedOutcome outcome operation "DFS metadata condition changed during commit").result with
  | .dfsInode inode => .ok inode
  | _ => .error (invalid "DFS metadata operation replayed the wrong result")

def leaseOutcome : Result WriteLease := do
  match (← storedOutcome outcome operation "DFS metadata condition changed during lease update").result with
  | .dfsWriteLease lease => .ok lease
  | _ => .error (invalid "DFS metadata operation replayed the wrong result")

def inodeAndLeaseOutcome :
    Result (InodeRecord × WriteLease) := do
  match (← storedOutcome outcome operation "DFS metadata condition changed during create").result with
  | .dfsInodeWithLease inode lease => .ok (inode, lease)
  | _ => .error (invalid "DFS metadata operation replayed the wrong result")

def renameOutcome : Result RenameOutcome := do
  match (← storedOutcome outcome operation "DFS metadata condition changed during rename").result with
  | .dfsRename outcome => .ok outcome
  | _ => .error (invalid "DFS metadata operation replayed the wrong result")

end

end Afs
