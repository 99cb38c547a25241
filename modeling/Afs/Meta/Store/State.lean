import Afs.Meta.Store.Types
import Mathlib.Data.List.AList
import Mathlib.Data.List.Sort

/-!
# `Meta.Store.State` — the authority state and how it is read

`MemoryState` is the data the store holds: entities under their keys with the revision that wrote them, the
recorded outcomes, the event log, and the epoch counter of every node. `StoreState` adds what
`StoreState::from_snapshot` checks of a persisted state, so that a state whose entities sit under the wrong key
cannot be built: every operation of the store has to show that it keeps these facts.

Reads never change the state. The one read that consults the clock (`rootGrant`) takes it as an argument.
-/

namespace Afs

structure VersionedEntity where
  revision : StoreRevision
  entity : MetaEntity

structure MemoryState where
  revision : StoreRevision
  entities : AList (fun _ : MetaKey => VersionedEntity)
  requests : AList (fun _ : RequestKey => RequestOutcome)
  events : List WatchEvent
  nodeEpochs : AList (fun _ : String => UInt64)

namespace MemoryState

/-- The entity stored under a key. -/
def get (state : MemoryState) (key : MetaKey) : Option MetaEntity :=
  (state.entities.lookup key).map (·.entity)

/-- The outcome recorded for a request. -/
def outcome (state : MemoryState) (key : RequestKey) : Option RequestOutcome := state.requests.lookup key

def values (state : MemoryState) : List VersionedEntity := state.entities.entries.map (·.2)

end MemoryState

/-- Where an entity may be stored: under its own key, and a session also as the current one of its node. -/
def keyMatches (key : MetaKey) (entity : MetaEntity) : Bool :=
  entityKey entity = key ||
    match key, entity with
    | .currentNodeSession nodeId, .nodeSession session => nodeId = session.nodeId
    | _, _ => false

/-- **What a persisted state is checked for** before it becomes the authority state. -/
structure MemoryState.WellFormed (state : MemoryState) : Prop where
  keyed : ∀ key versioned, state.entities.lookup key = some versioned → keyMatches key versioned.entity
  revisions : ∀ key versioned, state.entities.lookup key = some versioned →
    versioned.revision ≤ state.revision
  requestsKeyed : ∀ key outcome, state.requests.lookup key = some outcome → outcome.request = key
  eventRevisions : ∀ event ∈ state.events, event.revision ≤ state.revision

/-- The authority state: its data together with the facts `from_snapshot` checks. -/
structure StoreState extends MemoryState where
  wf : toMemoryState.WellFormed

/-- `StoreState::new`. -/
def StoreState.new : StoreState where
  revision := 0
  entities := ∅
  requests := ∅
  events := []
  nodeEpochs := ∅
  wf := by
    constructor <;> simp

/-! ## The clock-dependent and derived checks -/

namespace MemoryState

variable (state : MemoryState)

/-- The current session of `nodeId` is `sessionId` and is live at `now`. -/
def currentSessionMatches (now : UInt64) (nodeId sessionId : String) : Bool :=
  match state.get (.currentNodeSession nodeId) with
  | some (.nodeSession session) => session.sessionId = sessionId && session.isLiveAtUnixMs now
  | _ => false

def rootSessionMatches (now : UInt64) (rootId : String) (rootEpoch : UInt64) (homeSessionId : String) : Bool :=
  match state.get (.root rootId) with
  | some (.root root) =>
    root.rootEpoch = rootEpoch && root.homeSessionId = homeSessionId
      && state.currentSessionMatches now root.homeNodeId homeSessionId
  | _ => false

def hasPendingRootCommand (rootId : String) (rootEpoch accessGeneration : UInt64) : Bool :=
  state.entities.entries.any fun
    | ⟨.rootCommand _, ⟨_, .rootCommand command⟩⟩ =>
      command.rootId = rootId && command.rootEpoch = rootEpoch
        && command.oldAccessGeneration = accessGeneration
    | _ => false

/-- No directory entry of the namespace has this parent. -/
def dfsDirectoryIsEmpty (namespaceId : NamespaceId) (parentInodeId : InodeId) : Bool :=
  !state.values.any fun versioned =>
    match versioned.entity with
    | .dfsDentry dentry =>
      dentry.key.namespaceId = namespaceId && dentry.key.parentInodeId = parentInodeId
    | _ => false

/-- The parent in the first entry of the namespace that names the inode. -/
def dfsParentOf (namespaceId : NamespaceId) (inodeId : InodeId) : Option InodeId :=
  state.values.findSome? fun versioned =>
    match versioned.entity with
    | .dfsDentry dentry =>
      if dentry.key.namespaceId = namespaceId ∧ dentry.inodeId = inodeId then some dentry.key.parentInodeId
      else none
    | _ => none

/-- The loop of `dfs_is_descendant_or_same`: walks parents from `current` until it meets the ancestor, a
    missing parent, the root, or an inode it has `seen`. Each turn adds an inode that some entry names, so the
    number of entries (and one for the start) bounds the turns; see `dfsAncestorWalk_fuel`. -/
def dfsAncestorWalk (namespaceId : NamespaceId) (ancestor : InodeId) :
    Nat → InodeId → List InodeId → Bool
  | 0, _, _ => true
  | fuel + 1, current, seen =>
    if current ∈ seen then true
    else
      match state.dfsParentOf namespaceId current with
      | none => false
      | some parent =>
        if parent = ancestor then true
        else if parent.value = "1" then false
        else dfsAncestorWalk namespaceId ancestor fuel parent (current :: seen)

def dfsIsDescendantOrSame (namespaceId : NamespaceId) (ancestorInodeId childInodeId : InodeId) : Bool :=
  if ancestorInodeId = childInodeId then true
  else state.dfsAncestorWalk namespaceId ancestorInodeId (state.values.length + 2) childInodeId []

/-! ## The walk ends -/

/-- The stored directory entries. -/
def dentries : List Dentry :=
  state.values.filterMap fun versioned =>
    match versioned.entity with
    | .dfsDentry dentry => some dentry
    | _ => none

variable {state}

theorem mem_dentries {dentry} :
    dentry ∈ state.dentries ↔ ∃ versioned ∈ state.values, versioned.entity = .dfsDentry dentry := by
  unfold dentries
  rw [List.mem_filterMap]
  constructor
  · rintro ⟨versioned, hmem, hfound⟩
    split at hfound
    · next he => exact ⟨versioned, hmem, Option.some.inj hfound ▸ he⟩
    · cases hfound
  · rintro ⟨versioned, hmem, he⟩
    exact ⟨versioned, hmem, by rw [he]⟩

theorem mem_dentries_of_parentOf {namespaceId inodeId parent}
    (h : state.dfsParentOf namespaceId inodeId = some parent) : inodeId ∈ state.dentries.map (·.inodeId) := by
  obtain ⟨versioned, hmem, hfound⟩ := List.exists_of_findSome?_eq_some h
  split at hfound
  · next dentry he =>
    split at hfound
    · next hmatch => exact List.mem_map.mpr ⟨dentry, mem_dentries.mpr ⟨versioned, hmem, he⟩, hmatch.2⟩
    · cases hfound
  · cases hfound

/-- **The walk ends by itself**: more turns than there are entries change nothing, since every turn adds to `seen` an
    inode that some entry names. -/
theorem dfsAncestorWalk_fuel {namespaceId ancestor} (fuel extra : Nat) {current seen} (hnodup : seen.Nodup)
    (hseen : seen ⊆ state.dentries.map (·.inodeId)) (hfuel : state.dentries.length < seen.length + fuel) :
    state.dfsAncestorWalk namespaceId ancestor (fuel + extra) current seen =
      state.dfsAncestorWalk namespaceId ancestor fuel current seen := by
  induction fuel generalizing current seen with
  | zero =>
    have hle := (List.subperm_of_subset hnodup hseen).length_le
    rw [List.length_map] at hle
    omega
  | succ fuel ih =>
    rw [Nat.add_right_comm]
    unfold dfsAncestorWalk
    by_cases hmem : current ∈ seen
    · rw [if_pos hmem, if_pos hmem]
    · rw [if_neg hmem, if_neg hmem]
      split
      · rfl
      · next parent hparent =>
        have hnodup' := List.nodup_cons.mpr ⟨hmem, hnodup⟩
        have hseen' := List.cons_subset.mpr ⟨mem_dentries_of_parentOf hparent, hseen⟩
        rw [ih hnodup' hseen' (by simp only [List.length_cons]; omega)]

/-- The number of turns that the check gives the walk is enough. -/
theorem dfsIsDescendantOrSame_fuel {namespaceId ancestor child} (hne : ancestor ≠ child) (extra : Nat) :
    state.dfsIsDescendantOrSame namespaceId ancestor child =
      state.dfsAncestorWalk namespaceId ancestor (state.values.length + 2 + extra) child [] := by
  have hle : state.dentries.length ≤ state.values.length := List.length_filterMap_le ..
  rw [dfsIsDescendantOrSame, if_neg hne,
    dfsAncestorWalk_fuel _ extra List.nodup_nil (List.nil_subset _) (by simp only [List.length_nil]; omega)]

variable (state)

/-! ## Conditions -/

/-- Evaluates one transaction condition at clock `now`. -/
def conditionMatches (now : UInt64) : TxnCondition → Bool
  | .missing key => (state.entities.lookup key).isNone
  | .revisionEquals key revision => (state.entities.lookup key).any (fun current => current.revision = revision)
  | .entityEquals entity => state.get (entityKey entity) = some entity
  | .nodeSessionCurrent nodeId sessionId => state.currentSessionMatches now nodeId sessionId
  | .rootEpochEquals rootId rootEpoch =>
    match state.get (.root rootId) with
    | some (.root root) => root.rootEpoch = rootEpoch
    | _ => false
  | .rootCommandAcked commandId nodeId sessionId =>
    match state.get (.rootCommandAck commandId nodeId sessionId) with
    | some (.rootCommandAck ack) => ack.success
    | _ => false
  | .rootCommandMatches commandId homeNodeId homeSessionId rootId rootEpoch oldAccessGeneration commandType =>
    match state.get (.rootCommand commandId) with
    | some (.rootCommand command) =>
      command.homeNodeId = homeNodeId && command.homeSessionId = homeSessionId
        && command.rootId = rootId && command.rootEpoch = rootEpoch
        && command.oldAccessGeneration = oldAccessGeneration && command.commandType = commandType
    | _ => false
  | .rootCommandAckedExact commandId nodeId sessionId rootId rootEpoch accessGeneration commandType =>
    let acked :=
      match state.get (.rootCommandAck commandId nodeId sessionId) with
      | some (.rootCommandAck ack) =>
        ack.success && ack.rootId = rootId && ack.rootEpoch = rootEpoch
          && ack.accessGeneration = accessGeneration
      | _ => false
    let commandMatches :=
      match state.get (.rootCommand commandId) with
      | some (.rootCommand command) =>
        command.homeNodeId = nodeId && command.homeSessionId = sessionId
          && command.rootId = rootId && command.rootEpoch = rootEpoch
          && command.oldAccessGeneration = accessGeneration && command.commandType = commandType
      | _ => false
    acked && commandMatches
  | .requestAbsent key => (state.outcome key).isNone
  | .dfsDirectoryEmpty namespaceId parentInodeId => state.dfsDirectoryIsEmpty namespaceId parentInodeId
  | .dfsNotDescendant namespaceId ancestorInodeId childInodeId =>
    !state.dfsIsDescendantOrSame namespaceId ancestorInodeId childInodeId

/-! ## Reads -/

/-- The key a single-entity read looks up. -/
def readKey : MetaRead → Option MetaKey
  | .nodeSession nodeId sessionId => some (.nodeSession nodeId sessionId)
  | .currentNodeSession nodeId => some (.currentNodeSession nodeId)
  | .currentNodeSessions => none
  | .root rootId => some (.root rootId)
  | .rootReservation rootId => some (.rootReservation rootId)
  | .rootGrantByHolder rootId holderNodeId holderSessionId =>
    some (.rootGrant rootId holderNodeId holderSessionId)
  | .rootGrant rootId _ _ holderNodeId holderSessionId _ _ =>
    some (.rootGrant rootId holderNodeId holderSessionId)
  | .requestOutcome _ => none
  | .dfsDentry key => some (.dfsDentry key)
  | .dfsDirectory _ _ => none
  | .dfsInode id => some (.dfsInode id)
  | .dfsFileVersion id => some (.dfsFileVersion id)
  | .dfsLayoutRoot id => some (.dfsLayoutRoot id)
  | .dfsChunk id => some (.dfsChunk id)
  | .dfsPlacement id => some (.dfsPlacement id)
  | .dfsPlacements => none
  | .dfsCopy id => some (.dfsCopy id)
  | .dfsReplicationConfig => some .dfsReplicationConfig
  | .dfsReplicationTask id => some (.dfsReplicationTask id)
  | .dfsReplicationTasks => none
  | .dfsWriteLease id => some (.dfsWriteLease id)

/-- The compound check of a `rootGrant` read; every other read is admitted. -/
def readAdmits (now : UInt64) (read : MetaRead) (entity : MetaEntity) : Bool :=
  match read with
  | .rootGrant rootId rootEpoch homeSessionId holderNodeId holderSessionId accessGeneration fencingToken =>
    match entity with
    | .rootGrant grant =>
      grant.rootEpoch = rootEpoch && grant.homeSessionId = homeSessionId
        && grant.accessGeneration = accessGeneration && grant.fencingToken = fencingToken
        && state.currentSessionMatches now holderNodeId holderSessionId
        && state.rootSessionMatches now rootId rootEpoch homeSessionId
        && !state.hasPendingRootCommand rootId rootEpoch accessGeneration
    | _ => false
  | _ => true

/-- The entries a listing read selects, each with its sort key. -/
def listed (read : MetaRead) : List (List String × Bytes × VersionedEntity) :=
  state.entities.entries.filterMap fun entry =>
    match read, entry.1, entry.2.entity with
    | .dfsDirectory namespaceId parentInodeId, _, .dfsDentry dentry =>
      if dentry.key.namespaceId = namespaceId ∧ dentry.key.parentInodeId = parentInodeId then
        some ([], dentry.key.name, entry.2)
      else none
    | .currentNodeSessions, .currentNodeSession _, .nodeSession session =>
      some ([session.nodeId, session.sessionId], [], entry.2)
    | .dfsPlacements, .dfsPlacement chunkId, .dfsPlacement _ => some ([chunkId.value], [], entry.2)
    | .dfsReplicationTasks, .dfsReplicationTask id, .dfsReplicationTask _ => some ([id.value], [], entry.2)
    | _, _, _ => none

/-- A listing in the order of its sort keys. -/
def listing (read : MetaRead) : List VersionedEntity :=
  ((state.listed read).insertionSort (fun left right =>
    left.1 < right.1 ∨ left.1 = right.1 ∧ left.2.1 ≤ right.2.1)).map (·.2.2)

def isListing : MetaRead → Bool
  | .dfsDirectory _ _ | .currentNodeSessions | .dfsPlacements | .dfsReplicationTasks => true
  | _ => false

/-- `MetaStore::read` on the authority state. -/
def read (now : UInt64) (read : MetaRead) : MetaSnapshot :=
  let entity := ((readKey read).bind state.entities.lookup).filter (state.readAdmits now read ·.entity)
  { revision :=
      if isListing read then
        (state.listing read).foldl (fun revision versioned => max revision versioned.revision) state.revision
      else
        -- a conditional update compares the entity's revision, not the store-wide one
        (entity.map (·.revision)).getD state.revision
    entity := entity.map (·.entity)
    requestOutcome :=
      match read with
      | .requestOutcome key => state.outcome key
      | _ => none
    entities := if isListing read then (state.listing read).map (·.entity) else [] }

end MemoryState

end Afs
