import Afs.Meta.Store.State
import Afs.Lib.Pairs

/-!
# `Meta.Store.Snapshot` — the persisted form of the authority state

The store persists its whole state as one snapshot and starts from the last one. `from_snapshot` accepts a snapshot
only if it is well formed, which is why it can answer a `StoreState`. A snapshot of the state of a running store is
accepted, and what it gives back has the same content: the same entities, outcomes, node epochs, events and revision.
Only the order in which a map is iterated may differ, as it may between two runs of the program anyway.
-/

namespace Afs

open Pairs

/-- JSON objects cannot have structured keys, so the maps are lists of pairs. -/
structure PersistedMemoryState where
  schemaVersion : UInt32
  revision : StoreRevision
  entities : List (MetaKey × VersionedEntity)
  requests : List (RequestKey × RequestOutcome)
  events : List WatchEvent
  nodeEpochs : List (String × UInt64)

/-- What `snapshot_bytes` encodes. -/
def MemoryState.persisted (state : MemoryState) : PersistedMemoryState where
  schemaVersion := 1
  revision := state.revision
  entities := sortedPairs state.entities
  requests := sortedPairs state.requests
  events := state.events
  nodeEpochs := sortedPairs state.nodeEpochs

/-! ## Loading -/

def checkEntity (revision : StoreRevision) (key : MetaKey) (versioned : VersionedEntity) : Result Unit :=
  if !keyMatches key versioned.entity then .error (invalidContract "store entity key does not match value")
  else if versioned.revision > revision then
    .error (invalidContract "invalid store entity revision or duplicate key")
  else .ok ()

def checkOutcome (key : RequestKey) (outcome : RequestOutcome) : Result Unit :=
  if key ≠ outcome.request then .error (invalidContract "invalid store request outcome") else .ok ()

/-- The checks of `from_snapshot` in their order, and the maps they fill. -/
def loadMemoryState (snapshot : PersistedMemoryState) : Result MemoryState := do
  if snapshot.schemaVersion ≠ 1 then .error (invalidContract "unsupported store snapshot schema")
  else
    let entities ← insertPairs (checkEntity snapshot.revision)
      (invalidContract "invalid store entity revision or duplicate key") ∅ snapshot.entities
    let requests ← insertPairs checkOutcome (invalidContract "invalid store request outcome") ∅ snapshot.requests
    let nodeEpochs ← insertPairs (fun _ _ => .ok ()) (invalidContract "duplicate store node epoch") ∅
      snapshot.nodeEpochs
    if snapshot.events.any fun event => event.revision > snapshot.revision then
      .error (invalidContract "store event exceeds snapshot revision")
    else .ok ⟨snapshot.revision, entities, requests, snapshot.events, nodeEpochs⟩

theorem checkEntity_eq_ok {revision key versioned} :
    checkEntity revision key versioned = .ok () ↔
      keyMatches key versioned.entity = true ∧ versioned.revision ≤ revision := by
  unfold checkEntity
  split
  · next h => simpa using fun hk => by simp [hk] at h
  · next h =>
    split
    · next hlt => simp [UInt64.not_le.mpr hlt]
    · next hle => simpa [UInt64.not_lt.mp hle] using h

theorem checkOutcome_eq_ok {key outcome} : checkOutcome key outcome = .ok () ↔ outcome.request = key := by
  unfold checkOutcome
  split
  · next h => simpa using fun he => h he.symm
  · next h => simpa using (not_not.mp h).symm

/-- What loading accepts is well formed. -/
theorem wellFormed_of_load {snapshot state} (h : loadMemoryState snapshot = .ok state) : state.WellFormed := by
  unfold loadMemoryState at h
  split at h
  · cases h
  simp only [bind, Except.bind] at h
  split at h
  · cases h
  next entities hentities =>
  split at h
  · cases h
  next requests hrequests =>
  split at h
  · cases h
  next nodeEpochs hnodeEpochs =>
  split at h
  · cases h
  next hevents =>
  cases h
  have hentity : ∀ key versioned, entities.lookup key = some versioned →
      keyMatches key versioned.entity = true ∧ versioned.revision ≤ snapshot.revision := by
    intro key versioned hlookup
    have hchecked := (of_insertPairs hentities hlookup).resolve_left (by simp)
    exact checkEntity_eq_ok.mp hchecked
  refine ⟨fun key versioned hlookup => (hentity key versioned hlookup).1,
    fun key versioned hlookup => (hentity key versioned hlookup).2, ?_, ?_⟩
  · intro key outcome hlookup
    exact checkOutcome_eq_ok.mp ((of_insertPairs hrequests hlookup).resolve_left (by simp))
  · intro event hevent
    simp only [List.any_eq_true, decide_eq_true_eq, not_exists, not_and] at hevents
    exact UInt64.not_lt.mp (hevents event hevent)

/-- `StoreState::from_snapshot`, after the bytes have been decoded. -/
def StoreState.fromSnapshot (snapshot : PersistedMemoryState) : Result StoreState :=
  match h : loadMemoryState snapshot with
  | .ok state => .ok ⟨state, wellFormed_of_load h⟩
  | .error e => .error e

/-! ## Round trip -/

/-- Two states with the same content. -/
structure MemoryState.SameContent (state state' : MemoryState) : Prop where
  revision : state'.revision = state.revision
  entities : ∀ key, state'.entities.lookup key = state.entities.lookup key
  requests : ∀ key, state'.requests.lookup key = state.requests.lookup key
  events : state'.events = state.events
  nodeEpochs : ∀ node, state'.nodeEpochs.lookup node = state.nodeEpochs.lookup node

theorem MemoryState.SameContent.refl (state : MemoryState) : state.SameContent state :=
  ⟨rfl, fun _ => rfl, fun _ => rfl, rfl, fun _ => rfl⟩

theorem MemoryState.SameContent.symm {state state' : MemoryState} (h : state.SameContent state') :
    state'.SameContent state where
  revision := h.revision.symm
  entities := fun key => (h.entities key).symm
  requests := fun key => (h.requests key).symm
  events := h.events.symm
  nodeEpochs := fun node => (h.nodeEpochs node).symm

theorem MemoryState.SameContent.outcome {state state' : MemoryState} (h : state.SameContent state')
    (request : RequestKey) : state'.outcome request = state.outcome request := h.requests request

/-- **A snapshot of the state can be loaded, and has its content.** -/
theorem StoreState.fromSnapshot_persisted (state : StoreState) :
    ∃ loaded, fromSnapshot state.persisted = .ok loaded ∧ state.SameContent loaded.toMemoryState := by
  obtain ⟨entities, hentities, hentity⟩ := insertPairs_sortedPairs (checkEntity state.revision)
    (invalidContract "invalid store entity revision or duplicate key") state.entities
    fun key versioned hlookup =>
      checkEntity_eq_ok.mpr ⟨state.wf.keyed key versioned hlookup, state.wf.revisions key versioned hlookup⟩
  obtain ⟨requests, hrequests, hrequest⟩ := insertPairs_sortedPairs checkOutcome
    (invalidContract "invalid store request outcome") state.requests
    fun key outcome hlookup => checkOutcome_eq_ok.mpr (state.wf.requestsKeyed key outcome hlookup)
  obtain ⟨nodeEpochs, hnodeEpochs, hnodeEpoch⟩ := insertPairs_sortedPairs
    (fun _ _ => .ok ()) (invalidContract "duplicate store node epoch") state.nodeEpochs fun _ _ _ => rfl
  have hevents : (state.events.any fun event => event.revision > state.revision) = false := by
    rw [List.any_eq_false]
    intro event hevent
    simpa using state.wf.eventRevisions event hevent
  have hload : loadMemoryState state.persisted =
      .ok ⟨state.revision, entities, requests, state.events, nodeEpochs⟩ := by
    simp [loadMemoryState, MemoryState.persisted, hentities, hrequests, hnodeEpochs, hevents, bind, Except.bind]
  refine ⟨⟨_, wellFormed_of_load hload⟩, ?_, rfl, hentity, hrequest, rfl, hnodeEpoch⟩
  unfold fromSnapshot
  split
  · next loaded hloaded =>
    cases hload.symm.trans hloaded
    rfl
  · next e herror => cases hload.symm.trans herror

end Afs
