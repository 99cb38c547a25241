import Afs.Meta.Dfs.Base

/-!
# `Meta.OwnerRoots.Authority` — the OwnerFs root authority

`StoreOwnerRootAuthority` owns the durable transitions of OwnerFs roots: a root is reserved, activated or aborted by its
home node; other nodes acquire access; the home node recovers the root when it comes back under a new session. Each
request reads what it needs and submits one transaction. The transactions are named on their own, so that what a request
decides from its reads can be told from what the store compares when it commits.

The change stream (`watch_root_commands`, `poll_root_command_batch`) and the scan for startup (`list_owner_roots`) are
not part of this module.
-/

namespace Afs.OwnerRoots

open Interaction

abbrev OwnerProg := Prog StoreOp StoreOp.Reply Error

/-! ## Requests -/

structure ReserveRootInput where
  (requestId rootId preferredHomeNodeId sessionId : String)
  expectedRootEpoch : UInt64
  createIntentId : String
  deriving DecidableEq

structure ReserveRootOutput where
  reservation : RootReservationRecord
  alreadyReservedBySameIntent : Bool
  deriving DecidableEq

structure WireRootReservation where
  rootId : String
  rootEpoch : UInt64
  (homeNodeId sessionId createIntentId prepareToken : String)
  deriving DecidableEq

structure ActivateRootInput where
  requestId : String
  reservation : WireRootReservation
  localPrepareId : String
  deriving DecidableEq

structure AbortRootInput where
  (requestId rootId : String)
  rootEpoch : UInt64
  (sessionId createIntentId prepareToken : String)
  authenticatedHomeNodeId : Option String
  deriving DecidableEq

structure AcquireRootInput where
  (requestId rootId requesterNodeId sessionId : String)
  rights : List RootRight
  (expectedRootEpoch expectedAccessGeneration : UInt64)
  deriving DecidableEq

structure ValidateRootAccessInput where
  rootId : String
  rootEpoch : UInt64
  (homeSessionId holderNodeId holderSessionId : String)
  accessGeneration : UInt64
  fencingToken : String
  deriving DecidableEq

structure ValidateRootAccessOutput where
  grant : RootAccessGrant
  authorityRevision : StoreRevision
  deriving DecidableEq

structure AckRevocationInput where
  (requestId commandId nodeId sessionId rootId : String)
  (rootEpoch accessGeneration : UInt64)
  success : Bool
  message : String
  deriving DecidableEq

structure RecoverRootInput where
  (requestId rootId : String)
  expectedRootEpoch : UInt64
  (homeNodeId homeSessionId localPrepareId : String)
  deriving DecidableEq

/-! ## Shared parts -/

/-- `request_key` for a node in its session. -/
def requestKey (nodeId sessionId requestId : String) : RequestKey := ⟨nodeId ++ "/" ++ sessionId, requestId⟩

/-- `commit_or_replay`: the result of the transaction, or that of the earlier transaction of the same request. -/
def commitOrReplay (txn : MetaTxn) : OwnerProg OperationResult := do
  match ← storeCommit txn with
  | .committed _ outcome => return outcome.result
  | .conditionFailed _ (some outcome) =>
    if outcome.operation = txn.operation then return outcome.result
    else throw (invalid "request_id was already used for a different Meta operation")
  | .conditionFailed _ none =>
    throw (invalid "Meta transaction conditions failed; caller must refresh authority state")

def fencingToken (rootId sessionId : String) (accessGeneration : UInt64) : String :=
  "fence:" ++ rootId ++ ":" ++ sessionId ++ ":" ++ toString accessGeneration.toNat

/-- The grant of the home node for its own root. -/
def homeGrant (root : RootRecord) (accessGeneration : UInt64) : RootAccessGrant where
  rootId := root.rootId
  rootEpoch := root.rootEpoch
  homeNodeId := root.homeNodeId
  homeSessionId := root.homeSessionId
  holderNodeId := root.homeNodeId
  holderSessionId := root.homeSessionId
  accessGeneration := accessGeneration
  rights := [.lookup, .read, .write, .admin]
  fencingToken := fencingToken root.rootId root.homeSessionId accessGeneration
  issuedAtRevision := 0

/-- The rights in either list, each once and in the order of the enumeration. -/
def mergeRights (existing requested : List RootRight) : List RootRight :=
  [.lookup, .read, .write, .admin].filter fun right => right ∈ existing ++ requested

/-- `MetaTxn::new` with the condition and the outcome that every transaction has. -/
def ownerTxn (key : RequestKey) (operation : StoreOperation) (conditions : List TxnCondition)
    (mutations : List TxnMutation) (result : OperationResult) : MetaTxn where
  request := key
  operation := operation
  conditions := .requestAbsent key :: conditions
  mutations := mutations ++ [.recordRequestOutcome ⟨key, operation, result⟩]

/-- A reservation among the entities a read may show. -/
def reservationOf : Option MetaEntity → Option RootReservationRecord
  | some (.rootReservation reservation) => some reservation
  | _ => none

def rootOf : Option MetaEntity → Option RootRecord
  | some (.root root) => some root
  | _ => none

def grantOf : Option MetaEntity → Option RootAccessGrant
  | some (.rootGrant grant) => some grant
  | _ => none

/-! ## Reserve, activate, abort -/

def ReserveRootInput.key (input : ReserveRootInput) : RequestKey :=
  requestKey input.preferredHomeNodeId input.sessionId input.requestId

def newReservation (input : ReserveRootInput) : RootReservationRecord where
  rootId := input.rootId
  rootEpoch := max input.expectedRootEpoch 1
  homeNodeId := input.preferredHomeNodeId
  homeSessionId := input.sessionId
  createIntentId := input.createIntentId
  prepareToken := "prepare:" ++ input.rootId ++ ":" ++ input.sessionId ++ ":" ++ input.createIntentId ++ ":"
    ++ input.requestId
  createdAtRevision := 0

def reserveTxn (input : ReserveRootInput) : MetaTxn :=
  ownerTxn input.key .reserveRoot
    [.nodeSessionCurrent input.preferredHomeNodeId input.sessionId, .missing (.root input.rootId),
      .missing (.rootReservation input.rootId)]
    [.put (.rootReservation (newReservation input))]
    (.rootReservation (newReservation input))

/-- The stored reservation is the one that an earlier attempt with the same intent made. -/
def ReserveRootInput.madeBySameIntent (input : ReserveRootInput) (reservation : RootReservationRecord) : Bool :=
  reservation.homeNodeId = input.preferredHomeNodeId && reservation.homeSessionId = input.sessionId
    && reservation.createIntentId = input.createIntentId

/-- A second request of the same intent is answered with the reservation it finds. -/
def reserveRoot (input : ReserveRootInput) : OwnerProg ReserveRootOutput := do
  let existing ← storeRead (.rootReservation input.rootId)
  match (reservationOf existing.entity).filter input.madeBySameIntent with
  | some reservation => return ⟨reservation, true⟩
  | none =>
    match ← commitOrReplay (reserveTxn input) with
    | .rootReservation reservation => return ⟨reservation, false⟩
    | _ => throw (invalid "reserve replay returned wrong result type")

def ActivateRootInput.key (input : ActivateRootInput) : RequestKey :=
  requestKey input.reservation.homeNodeId input.reservation.sessionId input.requestId

/-- The durable reservation is the one the caller presents. -/
def WireRootReservation.presents (wire : WireRootReservation) (record : RootReservationRecord) : Bool :=
  record.rootEpoch = wire.rootEpoch && record.homeNodeId = wire.homeNodeId && record.homeSessionId = wire.sessionId
    && record.createIntentId = wire.createIntentId && record.prepareToken = wire.prepareToken

def activatedRoot (record : RootReservationRecord) (localPrepareId : String) : RootRecord where
  rootId := record.rootId
  rootEpoch := record.rootEpoch
  homeNodeId := record.homeNodeId
  homeSessionId := record.homeSessionId
  localPrepareId := localPrepareId
  createdAtRevision := 0
  updatedAtRevision := 0

def activateTxn (input : ActivateRootInput) (record : RootReservationRecord) : MetaTxn :=
  let root := activatedRoot record input.localPrepareId
  let grant := homeGrant root 1
  ownerTxn input.key .activateRoot
    [.nodeSessionCurrent root.homeNodeId root.homeSessionId, .missing (.root root.rootId),
      .entityEquals (.rootReservation record)]
    [.put (.root root), .put (.rootGrant grant), .delete (.rootReservation grant.rootId)]
    (.rootGrant grant)

/-- Turns a reservation into a root, with the first grant of its home. -/
def activateRoot (input : ActivateRootInput) : OwnerProg RootAccessGrant := do
  let snapshot ← storeRead (.rootReservation input.reservation.rootId)
  let record ← Prog.require (reservationOf snapshot.entity) (invalid "root reservation was not found")
  Prog.check (input.reservation.presents record) (invalid "reservation does not match durable reserve record")
  match ← commitOrReplay (activateTxn input record) with
  | .rootGrant grant => return grant
  | _ => throw (invalid "activate replay returned wrong result type")

def AbortRootInput.names (input : AbortRootInput) (reservation : RootReservationRecord) : Bool :=
  reservation.rootEpoch = input.rootEpoch && reservation.createIntentId = input.createIntentId
    && reservation.prepareToken = input.prepareToken

/-- The authenticated caller, if there is one, is the home node of the reservation. -/
def AbortRootInput.authenticate (input : AbortRootInput) (reservation : RootReservationRecord) : Result Unit :=
  match input.authenticatedHomeNodeId with
  | some authenticated =>
    if authenticated = reservation.homeNodeId then .ok ()
    else .error ⟨.clientPermissionDenied, "authenticated node " ++ authenticated
      ++ " does not match reservation home " ++ reservation.homeNodeId⟩
  | none => .ok ()

def abortTxn (input : AbortRootInput) (reservation : RootReservationRecord) : MetaTxn :=
  ownerTxn (requestKey reservation.homeNodeId input.sessionId input.requestId) .abortRoot
    [.entityEquals (.rootReservation reservation)]
    [.delete (.rootReservation input.rootId)]
    .empty

/-- Only the session that has made a reservation may give it up. -/
def abortRoot (input : AbortRootInput) : OwnerProg Unit := do
  let snapshot ← storeRead (.rootReservation input.rootId)
  let reservation ← Prog.require (reservationOf snapshot.entity) (invalid "root reservation was not found")
  Prog.check (reservation.homeSessionId = input.sessionId)
    (invalid "abort session does not match durable reservation")
  Prog.check (input.names reservation) (invalid "abort request does not match durable reservation")
  Prog.lift (input.authenticate reservation)
  let _ ← commitOrReplay (abortTxn input reservation)
  return ()

/-! ## Access -/

def lookupRoot (rootId : String) : OwnerProg (Option RootRecord) := do
  let snapshot ← storeRead (.root rootId)
  return rootOf snapshot.entity

def AcquireRootInput.key (input : AcquireRootInput) : RequestKey :=
  requestKey input.requesterNodeId input.sessionId input.requestId

/-- The revision of the grant that the requester already has, and the rights that stay with it: those of a grant of
    the present epoch, home session and generation. -/
def heldGrant (root : RootRecord) (home : RootAccessGrant) (held : MetaSnapshot) :
    Result (Option StoreRevision × List RootRight) :=
  match held.entity with
  | some (.rootGrant grant) =>
    .ok (some held.revision,
      if grant.rootEpoch = root.rootEpoch ∧ grant.homeSessionId = root.homeSessionId
        ∧ grant.accessGeneration = home.accessGeneration then grant.rights else [])
  | none => .ok (none, [])
  | some _ => .error (invalid "holder grant lookup returned wrong entity type")

def acquiredGrant (input : AcquireRootInput) (root : RootRecord) (home : RootAccessGrant) (rights : List RootRight) :
    RootAccessGrant where
  rootId := root.rootId
  rootEpoch := root.rootEpoch
  homeNodeId := root.homeNodeId
  homeSessionId := root.homeSessionId
  holderNodeId := input.requesterNodeId
  holderSessionId := input.sessionId
  accessGeneration := home.accessGeneration
  rights := mergeRights rights input.rights
  fencingToken := fencingToken root.rootId input.sessionId home.accessGeneration
  issuedAtRevision := 0

def acquireTxn (input : AcquireRootInput) (root : RootRecord) (home : RootAccessGrant)
    (held : Option StoreRevision × List RootRight) : MetaTxn :=
  let grant := acquiredGrant input root home held.2
  let key : MetaKey := .rootGrant root.rootId input.requesterNodeId input.sessionId
  ownerTxn input.key .acquireRoot
    [.nodeSessionCurrent input.requesterNodeId input.sessionId, .rootEpochEquals root.rootId root.rootEpoch,
      -- the holder's own grant is as it was read; the grant of the home node is not compared
      match held.1 with
      | some revision => .revisionEquals key revision
      | none => .missing key]
    [.put (.rootGrant grant)]
    (.rootGrant grant)

/-- Reads the root, the grant of its home and that of the caller. -/
def acquireRoot (input : AcquireRootInput) : OwnerProg RootAccessGrant := do
  let snapshot ← storeRead (.root input.rootId)
  let root ← Prog.require (rootOf snapshot.entity) (invalid "root was not found")
  Prog.check (input.expectedRootEpoch = 0 || input.expectedRootEpoch = root.rootEpoch) (invalid "root epoch changed")
  let homeSnapshot ← storeRead (.rootGrantByHolder root.rootId root.homeNodeId root.homeSessionId)
  let home ← Prog.require (grantOf homeSnapshot.entity) (invalid "home grant was not found")
  Prog.check (input.expectedAccessGeneration = 0 || input.expectedAccessGeneration = home.accessGeneration)
    (invalid "root access generation changed")
  let heldSnapshot ← storeRead (.rootGrantByHolder root.rootId input.requesterNodeId input.sessionId)
  let held ← Prog.lift (heldGrant root home heldSnapshot)
  match ← commitOrReplay (acquireTxn input root home held) with
  | .rootGrant grant => return grant
  | _ => throw (invalid "acquire replay returned wrong result type")

def ValidateRootAccessInput.read (input : ValidateRootAccessInput) : MetaRead :=
  .rootGrant input.rootId input.rootEpoch input.homeSessionId input.holderNodeId input.holderSessionId
    input.accessGeneration input.fencingToken

def validateRootAccess (input : ValidateRootAccessInput) : OwnerProg ValidateRootAccessOutput := do
  let snapshot ← storeRead input.read
  let grant ← Prog.require (grantOf snapshot.entity) (invalid "presented root access is not current")
  return ⟨grant, snapshot.revision⟩

/-! ## Revocation and recovery -/

def AckRevocationInput.key (input : AckRevocationInput) : RequestKey :=
  requestKey input.nodeId input.sessionId input.requestId

def rootCommandAck (input : AckRevocationInput) : RootCommandAck where
  commandId := input.commandId
  nodeId := input.nodeId
  sessionId := input.sessionId
  rootId := input.rootId
  rootEpoch := input.rootEpoch
  accessGeneration := input.accessGeneration
  success := input.success
  message := input.message

def ackTxn (input : AckRevocationInput) : MetaTxn :=
  ownerTxn input.key .ackRootCommand
    [.nodeSessionCurrent input.nodeId input.sessionId,
      .rootCommandMatches input.commandId input.nodeId input.sessionId input.rootId input.rootEpoch
        input.accessGeneration .revokeAccess,
      .missing (.rootCommandAck input.commandId input.nodeId input.sessionId)]
    [.put (.rootCommandAck (rootCommandAck input))]
    (.rootCommandAck (rootCommandAck input))

/-- A repeated acknowledgement has to say the same. -/
def ackRevocation (input : AckRevocationInput) : OwnerProg UInt64 := do
  match ← commitOrReplay (ackTxn input) with
  | .rootCommandAck recorded =>
    Prog.check (recorded = rootCommandAck input)
      (invalid "request_id was already used for a different root command ACK payload")
    nowUnixMs
  | _ => throw (invalid "unexpected root command ACK outcome")

def RecoverRootInput.key (input : RecoverRootInput) : RequestKey :=
  requestKey input.homeNodeId input.homeSessionId input.requestId

/-- The durable root is the one the caller has on its disk. -/
def RecoverRootInput.names (input : RecoverRootInput) (root : RootRecord) : Bool :=
  root.homeNodeId = input.homeNodeId && root.rootEpoch = input.expectedRootEpoch
    && root.localPrepareId = input.localPrepareId

def nextGeneration (previous : Option RootAccessGrant) : UInt64 :=
  match previous with
  | some grant => grant.accessGeneration.saturatingAdd 1
  | none => 1

/-- The transaction compares the epoch of the root only: neither its home session nor the generation that the new one
    was counted from. -/
def recoverTxn (input : RecoverRootInput) (root : RootRecord) (generation : UInt64) : MetaTxn :=
  let recovered := { root with homeSessionId := input.homeSessionId }
  let grant := homeGrant recovered generation
  ownerTxn (requestKey root.homeNodeId input.homeSessionId input.requestId) .recoverRoot
    [.nodeSessionCurrent root.homeNodeId input.homeSessionId, .rootEpochEquals root.rootId root.rootEpoch]
    [.put (.root recovered), .put (.rootGrant grant)]
    (.rootGrant grant)

/-- The home node comes back under a new session. -/
def recoverRoot (input : RecoverRootInput) : OwnerProg RootAccessGrant := do
  let snapshot ← storeRead (.root input.rootId)
  let root ← Prog.require (rootOf snapshot.entity) (invalid "root was not found")
  Prog.check (input.names root) (invalid "recover request does not match durable root")
  let previous ← storeRead (.rootGrantByHolder root.rootId root.homeNodeId root.homeSessionId)
  match ← commitOrReplay (recoverTxn input root (nextGeneration (grantOf previous.entity))) with
  | .rootGrant grant => return grant
  | _ => throw (invalid "recover replay returned wrong result type")

/-! ## The service -/

inductive OwnerRequest
  | reserve (input : ReserveRootInput)
  | activate (input : ActivateRootInput)
  | abort (input : AbortRootInput)
  | lookup (rootId : String)
  | acquire (input : AcquireRootInput)
  | validate (input : ValidateRootAccessInput)
  | ack (input : AckRevocationInput)
  | recover (input : RecoverRootInput)
  deriving DecidableEq

inductive OwnerResponse
  | reserved (output : ReserveRootOutput)
  | granted (grant : RootAccessGrant)
  | done
  | found (root : Option RootRecord)
  | validated (output : ValidateRootAccessOutput)
  | acked (acceptedAtUnixMs : UInt64)
  deriving DecidableEq

/-- The method of `OwnerRootAuthority` that serves a request. -/
def handle : OwnerRequest → OwnerProg OwnerResponse
  | .reserve input => .reserved <$> reserveRoot input
  | .activate input => .granted <$> activateRoot input
  | .abort input => do
    abortRoot input
    return .done
  | .lookup rootId => .found <$> lookupRoot rootId
  | .acquire input => .granted <$> acquireRoot input
  | .validate input => .validated <$> validateRootAccess input
  | .ack input => .acked <$> ackRevocation input
  | .recover input => .granted <$> recoverRoot input

end Afs.OwnerRoots
