import Afs.Meta.Dfs.RepairReports
import Afs.Meta.Dfs.Rename
import Afs.Meta.Store.Effect

/-!
# `Meta.Dfs.Service` — the service as a whole

Every mutating method of `DfsService` as one `Request`, and `handle`, the program that serves it. A run of the
service is a run of the pool of such programs against the store: requests of any callers arrive at any time, and
between two store operations of one request any number of operations of others, clock changes, node registrations
and OwnerFs transactions may happen.

`Evolves` is what a request may rely on between its operations: recorded outcomes, file versions and layouts stay,
and the clock has moved by its own steps.
-/

namespace Afs

open Interaction Relation

/-- The mutating requests of the service. -/
inductive Request
  | create (request : CreateFileRequest)
  | mkdir (request : MkdirRequest)
  | mknod (request : MknodRequest)
  | symlink (request : SymlinkRequest)
  | link (request : LinkRequest)
  | unlink (request : UnlinkRequest)
  | rmdir (request : RmdirRequest)
  | rename (request : RenameRequest)
  | setInodeAttributes (request : SetInodeAttrRequest)
  | setXattr (request : SetXattrRequest)
  | removeXattr (request : RemoveXattrRequest)
  | acquireWriteLease (request : LeaseRequest)
  | openWrite (request : LeaseRequest)
  | resolveAuthority (request : LeaseRequest) (context : AuthorityContext)
  | renewWriteLease (request : RenewRequest)
  | syncInodeMetadata (callerId : String) (sync : SyncInodeMetadata)
  | commitFileVersion (callerId : String) (commit : CommitFileVersion)
  | claimReplicationTask (request : ClaimReplicationTask)
  | reportReplicationTask (request : ReportReplicationTask)
  | reportChunkCorruption (request : ReportChunkCorruption)
  | initializeReplicationConfig

/-- The answers of the service. -/
inductive Response
  | inode (inode : InodeRecord)
  | inodeAndLease (inode : InodeRecord) (lease : WriteLease)
  | lease (lease : WriteLease)
  | renamed (outcome : RenameOutcome)
  | claim (claim : Option ReplicationClaim)
  | task (task : ReplicationTask)
  | done

/-- The program that serves a request. -/
def handle (service : DfsService) : Request → DfsProg Response
  | .create request => do
    let (inode, lease) ← create service.codec request
    return .inodeAndLease inode lease
  | .mkdir request => do return .inode (← mkdir service.codec request)
  | .mknod request => do return .inode (← mknod service.codec request)
  | .symlink request => do return .inode (← symlink service.codec request)
  | .link request => do return .inode (← link service.codec request)
  | .unlink request => do return .inode (← unlink service.codec request)
  | .rmdir request => do return .inode (← rmdir service.codec request)
  | .rename request => do return .renamed (← rename service.codec request)
  | .setInodeAttributes request => do return .inode (← setInodeAttributes request)
  | .setXattr request => do return .inode (← setXattr request)
  | .removeXattr request => do return .inode (← removeXattr request)
  | .acquireWriteLease request => do return .lease (← acquireWriteLease request)
  | .openWrite request => do
    let (inode, lease) ← openWrite request
    return .inodeAndLease inode lease
  | .resolveAuthority request context => do
    let (inode, lease) ← resolveFreshWriteAuthority request context
    return .inodeAndLease inode lease
  | .renewWriteLease request => do return .lease (← renewWriteLease request)
  | .syncInodeMetadata callerId sync => do return .inode (← syncInodeMetadata callerId sync)
  | .commitFileVersion callerId commit => do return .inode (← commitFileVersion service callerId commit)
  | .claimReplicationTask request => do return .claim (← claimReplicationTask service request)
  | .reportReplicationTask request => do return .task (← reportReplicationTask service request)
  | .reportChunkCorruption request => do
    reportChunkCorruption service request
    return .done
  | .initializeReplicationConfig => do
    initializeReplicationConfig service
    return .done

namespace Request

/-- The identity of a request: its caller and the operation id the caller chose. -/
def key : Request → RequestKey
  | .create request | .mkdir request | .mknod request | .symlink request | .link request | .unlink request
  | .rmdir request | .rename request | .setInodeAttributes request | .setXattr request | .removeXattr request
  | .acquireWriteLease request | .openWrite request | .resolveAuthority request _ | .renewWriteLease request
  | .claimReplicationTask request | .reportReplicationTask request | .reportChunkCorruption request =>
    ⟨request.callerId, request.operationId.value⟩
  | .syncInodeMetadata callerId request | .commitFileVersion callerId request => ⟨callerId, request.operationId.value⟩
  | .initializeReplicationConfig => ⟨"afs-meta", "dfs-replication-config-v1"⟩

/-- The operation a request is recorded under. -/
def operation : Request → StoreOperation
  | .create _ => .dfsCreate
  | .mkdir _ => .dfsMkdir
  | .mknod _ => .dfsMknod
  | .symlink _ => .dfsSymlink
  | .link _ => .dfsLink
  | .unlink _ => .dfsUnlink
  | .rmdir _ => .dfsRmdir
  | .rename _ => .dfsRename
  | .setInodeAttributes _ => .dfsSetInodeAttributes
  | .setXattr _ => .dfsSetXattr
  | .removeXattr _ => .dfsRemoveXattr
  | .acquireWriteLease _ | .openWrite _ | .resolveAuthority _ _ => .dfsAcquireWriteLease
  | .renewWriteLease _ => .dfsRenewWriteLease
  | .syncInodeMetadata _ _ => .dfsSyncInodeMetadata
  | .commitFileVersion _ _ => .dfsCommitFileVersion
  | .claimReplicationTask _ => .dfsClaimReplicationTask
  | .reportReplicationTask _ => .dfsReportReplicationTask
  | .reportChunkCorruption _ => .dfsReportChunkCorruption
  | .initializeReplicationConfig => .dfsInitializeReplicationConfig

/-- What the digest of a request is taken of, for the requests that are recorded with one. -/
def digested : Request → Option DigestedRequest
  | .create request => some (.create request)
  | .mkdir request => some (.mkdir request)
  | .mknod request => some (.mknod request)
  | .symlink request => some (.symlink request)
  | .link request => some (.link request)
  | .unlink request => some (.unlink request)
  | .rmdir request =>
    some (.unlink ⟨request.callerId, request.operationId, request.namespaceId, request.parentInodeId, request.name,
      request.caller⟩)
  | .rename request => some (.rename request)
  | .commitFileVersion _ commit => some (.commitFileVersion commit)
  | .claimReplicationTask request => some (.claimReplicationTask request)
  | .reportReplicationTask request => some (.reportReplicationTask request)
  | .reportChunkCorruption request => some (.reportChunkCorruption request)
  | _ => none

/-- Two requests of one identity and one operation with the same digested content are the same request. -/
theorem eq_of_digested {r r' : Request} (hkey : r'.key = r.key) (hop : r'.operation = r.operation)
    (hbound : r.digested ≠ none) (hd : r'.digested = r.digested) : r' = r := by
  cases r <;> cases r' <;> cases hop <;> simp only [digested, reduceCtorEq, not_true, ne_eq] at hbound
  -- the digest of an `rmdir` is that of an `unlink` with the same fields
  case rmdir.rmdir.refl request request' =>
    cases request
    cases request'
    simpa [digested] using hd
  all_goals simp_all [digested, key]

end Request

/-! ## Runs -/

abbrev ServicePool := Pool Request StoreOp StoreOp.Reply Error Response System

/-- A transaction of the OwnerFs service: it writes root records and records one outcome, its own. -/
structure OwnerFsTxn (txn : MetaTxn) : Prop where
  operation : txn.operation ∈ [.reserveRoot, .abortRoot, .activateRoot, .acquireRoot, .recoverRoot,
    .beginRootRevocation, .commitRootRevocation, .ackRootCommand]
  targets : ∀ mutation ∈ txn.mutations, ∀ key, mutation.target = some key →
    (∃ id, key = .root id) ∨ (∃ id, key = .rootReservation id) ∨ (∃ id node session, key = .rootGrant id node session)
      ∨ (∃ id, key = .rootCommand id) ∨ ∃ id node session, key = .rootCommandAck id node session
  records : ∀ outcome, .recordRequestOutcome outcome ∈ txn.mutations →
    outcome.request = txn.request ∧ outcome.operation = txn.operation

/-- What happens to the store besides the requests of the service. A restart of the store process continues from
    the persisted state, so it is no change of it. -/
inductive EnvStep (tick : Tick) (s : System) : System → Prop
  | tick (clock : UInt64) (h : tick s.clock clock) : EnvStep tick s ⟨s.store, clock⟩
  | register (request : RequestKey) (lease : NodeSessionLease) :
      EnvStep tick s ⟨(s.store.registerNodeSession s.clock request lease).2, s.clock⟩
  | ownerFs (txn : MetaTxn) (h : OwnerFsTxn txn) : EnvStep tick s ⟨(s.store.compareAndCommit s.clock txn).2, s.clock⟩

/-- A condition on the operations of a run: who issues what in which state. -/
abbrev RunCondition := Request → System → StoreOp → Prop

/-- No condition. -/
def anyRun : RunCondition := fun _ _ _ => True

/-- What the store does with an operation that meets the condition of the run. -/
def served (condition : RunCondition) (r : Request) (s : System) (op : StoreOp) (reply : op.Reply) (s' : System) :
    Prop := condition r s op ∧ serve s op reply s'

section

variable (service : DfsService) (tick : Tick) (condition : RunCondition)

/-- One step of a run. -/
abbrev ServiceStep : ServicePool → ServicePool → Prop :=
  Pool.Step (served condition) (EnvStep tick) (handle service)

/-- Any number of steps of a run. -/
abbrev ServiceRun : ServicePool → ServicePool → Prop :=
  Pool.Run (served condition) (EnvStep tick) (handle service)

end

/-- The pool before any request, on an empty store. -/
def initialPool (clock : UInt64) : ServicePool := ⟨⟨StoreState.new, clock⟩, []⟩

/-- A pool that a run of the service from an empty store leads to. -/
def Reachable (service : DfsService) (tick : Tick) (condition : RunCondition) (c : ServicePool) :
    Prop := ∃ clock, ServiceRun service tick condition (initialPool clock) c

/-! ## What requests rely on -/

/-- How the system may have changed between two operations of a request. -/
structure Evolves (tick : Tick) (s s' : System) : Prop where
  clock : ReflTransGen tick s.clock s'.clock
  outcomes : ∀ request outcome, s.store.outcome request = some outcome →
    s'.store.outcome request = some outcome
  versions : ∀ id version, s.store.get (.dfsFileVersion id) = some version →
    s'.store.get (.dfsFileVersion id) = some version
  layouts : ∀ id layout, s.store.get (.dfsLayoutRoot id) = some layout →
    s'.store.get (.dfsLayoutRoot id) = some layout

namespace Evolves

variable {tick : Tick} {s s' s'' : System}

theorem refl (s : System) : Evolves tick s s := ⟨.refl, fun _ _ h => h, fun _ _ h => h, fun _ _ h => h⟩

theorem trans (h : Evolves tick s s') (h' : Evolves tick s' s'') : Evolves tick s s'' where
  clock := h.clock.trans h'.clock
  outcomes request outcome ho := h'.outcomes request outcome (h.outcomes request outcome ho)
  versions id version hv := h'.versions id version (h.versions id version hv)
  layouts id layout hl := h'.layouts id layout (h.layouts id layout hl)

end Evolves

end Afs
