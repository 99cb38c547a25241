import Afs.Meta.Store.Watch
import Mathlib.Data.String.Basic

/-!
# `Meta.Store.RoundTrip` — a state and its snapshot answer alike

A state that is loaded from a snapshot has the content of the state the snapshot was taken of (`SameContent`), but its
maps may be iterated in another order. Every operation of the store answers the same on both and leaves the same content
again, with two exceptions. The recovery scans list what they find in the order of iteration. And the check that a
directory is not moved below itself climbs to the first parent it meets, so its answer is determined by the content only
where every inode on the way has one parent; directories of the file system have.
-/

namespace Afs

variable {left right : List String × Bytes × VersionedEntity} {namespaceId : NamespaceId}

/-! ## The operations of the store -/

structure RecoveryScan where
  revision : StoreRevision
  homeNodeId : String
  roots : List RootRecord
  deriving DecidableEq

structure OwnerRootScan where
  revision : StoreRevision
  homeNodeId : String
  roots : List RootRecord
  reservations : List RootReservationRecord

/-- The root, if its home is the node. -/
def MetaEntity.rootOf (homeNodeId : String) : MetaEntity → Option RootRecord
  | .root record => if record.homeNodeId = homeNodeId then some record else none
  | _ => none

def MetaEntity.reservationOf (homeNodeId : String) : MetaEntity → Option RootReservationRecord
  | .rootReservation record => if record.homeNodeId = homeNodeId then some record else none
  | _ => none

/-- `MetaStore::scan_roots_for_recovery`. -/
def MemoryState.scanRootsForRecovery (state : MemoryState) (homeNodeId : String) : RecoveryScan where
  revision := state.revision
  homeNodeId := homeNodeId
  roots := state.values.filterMap (·.entity.rootOf homeNodeId)

/-- `MetaStore::scan_owner_roots_for_recovery`. -/
def MemoryState.scanOwnerRootsForRecovery (state : MemoryState) (homeNodeId : String) : OwnerRootScan where
  revision := state.revision
  homeNodeId := homeNodeId
  roots := state.values.filterMap (·.entity.rootOf homeNodeId)
  reservations := state.values.filterMap (·.entity.reservationOf homeNodeId)

/-- A call of the store. -/
inductive StoreCall
  | read (query : MetaRead)
  | mutate (mutation : Mutation)
  | watch (after : StoreRevision) (limit : Nat)
  | scanRootsForRecovery (homeNodeId : String)
  | scanOwnerRootsForRecovery (homeNodeId : String)

inductive StoreReply
  | read (snapshot : MetaSnapshot)
  | mutated (result : Result TxnOutcome)
  | watched (result : Result WatchBatch)
  | scannedRoots (scan : RecoveryScan)
  | scannedOwnerRoots (scan : OwnerRootScan)

/-- The reply to a call at a time, and the state it leaves. -/
def StoreCall.serve (now : UInt64) (state : StoreState) : StoreCall → StoreReply × StoreState
  | .read query => (.read (state.read now query), state)
  | .mutate mutation => (.mutated (mutation.execute now state).1, (mutation.execute now state).2)
  | .watch after limit => (.watched (state.watch after limit), state)
  | .scanRootsForRecovery homeNodeId => (.scannedRoots (state.scanRootsForRecovery homeNodeId), state)
  | .scanOwnerRootsForRecovery homeNodeId => (.scannedOwnerRoots (state.scanOwnerRootsForRecovery homeNodeId), state)

/-- The replies to calls one after the other. -/
def serveAll (state : StoreState) : List (UInt64 × StoreCall) → List StoreReply
  | [] => []
  | (now, call) :: rest => (call.serve now state).1 :: serveAll (call.serve now state).2 rest

/-- The replies are the same, where the lists of a scan may be in another order. -/
inductive StoreReply.Alike : StoreReply → StoreReply → Prop
  | same (reply : StoreReply) : Alike reply reply
  | scannedRoots (revision : StoreRevision) (homeNodeId : String) {roots roots' : List RootRecord}
      (h : roots.Perm roots') :
      Alike (.scannedRoots ⟨revision, homeNodeId, roots⟩) (.scannedRoots ⟨revision, homeNodeId, roots'⟩)
  | scannedOwnerRoots (revision : StoreRevision) (homeNodeId : String) {roots roots' : List RootRecord}
      {reservations reservations' : List RootReservationRecord} (hroots : roots.Perm roots')
      (hreservations : reservations.Perm reservations') :
      Alike (.scannedOwnerRoots ⟨revision, homeNodeId, roots, reservations⟩)
        (.scannedOwnerRoots ⟨revision, homeNodeId, roots', reservations'⟩)

/-! ## What a climb passes -/

/-- The names of the inode in the namespace all lie in one directory. -/
def MemoryState.OneParent (state : MemoryState) (namespaceId : NamespaceId) (id : InodeId) : Prop :=
  ∀ dentry ∈ state.dentries, ∀ other ∈ state.dentries,
    dentry.key.namespaceId = namespaceId → dentry.inodeId = id →
    other.key.namespaceId = namespaceId → other.inodeId = id → dentry.key.parentInodeId = other.key.parentInodeId

/-- Every inode that a climb from the given one passes has one parent. -/
def MemoryState.ClimbsAlone (state : MemoryState) (namespaceId : NamespaceId) (id : InodeId) : Prop :=
  ∀ above, Relation.ReflTransGen (fun child parent => state.dfsParentOf namespaceId child = some parent) id above →
    state.OneParent namespaceId above

/-- The checks of a call climb through inodes with one parent. -/
def StoreCall.ClimbsAlone (state : MemoryState) : StoreCall → Prop
  | .mutate (.transaction txn) => ∀ namespaceId ancestor child,
      .dfsNotDescendant namespaceId ancestor child ∈ txn.conditions → state.ClimbsAlone namespaceId child
  | _ => True

/-- So do those of all calls, each in the state it meets. -/
def AllClimbAlone (state : StoreState) : List (UInt64 × StoreCall) → Prop
  | [] => True
  | (now, call) :: rest => call.ClimbsAlone state.toMemoryState ∧ AllClimbAlone (call.serve now state).2 rest

/-! ## Reads -/

namespace MemoryState.SameContent

variable {s s' : MemoryState} (h : s.SameContent s')

include h

theorem entries : s'.entities.entries.Perm s.entities.entries := Pairs.perm_of_lookup h.entities

theorem values : s'.values.Perm s.values := h.entries.map _

theorem dentries : s'.dentries.Perm s.dentries := h.values.filterMap _

theorem get (key : MetaKey) : s'.get key = s.get key := by rw [MemoryState.get, MemoryState.get, h.entities]

theorem currentSessionMatches (now : UInt64) (nodeId sessionId : String) :
    s'.currentSessionMatches now nodeId sessionId = s.currentSessionMatches now nodeId sessionId := by
  rw [MemoryState.currentSessionMatches, MemoryState.currentSessionMatches, h.get]

theorem rootSessionMatches (now : UInt64) (rootId : String) (rootEpoch : UInt64) (homeSessionId : String) :
    s'.rootSessionMatches now rootId rootEpoch homeSessionId =
      s.rootSessionMatches now rootId rootEpoch homeSessionId := by
  simp only [MemoryState.rootSessionMatches, h.get, h.currentSessionMatches]

theorem hasPendingRootCommand (rootId : String) (rootEpoch accessGeneration : UInt64) :
    s'.hasPendingRootCommand rootId rootEpoch accessGeneration =
      s.hasPendingRootCommand rootId rootEpoch accessGeneration :=
  h.entries.any_eq

theorem dfsDirectoryIsEmpty (namespaceId : NamespaceId) (parentInodeId : InodeId) :
    s'.dfsDirectoryIsEmpty namespaceId parentInodeId = s.dfsDirectoryIsEmpty namespaceId parentInodeId :=
  congrArg (!·) h.values.any_eq

theorem readAdmits (now : UInt64) (query : MetaRead) (entity : MetaEntity) :
    s'.readAdmits now query entity = s.readAdmits now query entity := by
  simp only [MemoryState.readAdmits, h.currentSessionMatches, h.rootSessionMatches, h.hasPendingRootCommand]

end MemoryState.SameContent

/-! ## Listings

A listing is sorted by a part of the keys of its entries that tells them apart. -/

/-- The order of a listing. -/
def listingOrder (left right : List String × Bytes × VersionedEntity) : Prop :=
  left.1 < right.1 ∨ left.1 = right.1 ∧ left.2.1 ≤ right.2.1

instance : DecidableRel listingOrder := fun left right =>
  inferInstanceAs (Decidable (left.1 < right.1 ∨ left.1 = right.1 ∧ left.2.1 ≤ right.2.1))

instance : Std.Total listingOrder where
  total left right := by
    rcases lt_trichotomy left.1 right.1 with hlt | heq | hgt
    · exact .inl (.inl hlt)
    · exact (List.le_total left.2.1 right.2.1).imp (fun hle => .inr ⟨heq, hle⟩) fun hle => .inr ⟨heq.symm, hle⟩
    · exact .inr (.inl hgt)

instance : IsTrans _ listingOrder where
  trans left mid right h h' := by
    rcases h with hlt | ⟨heq, hle⟩ <;> rcases h' with hlt' | ⟨heq', hle'⟩
    · exact .inl (lt_trans hlt hlt')
    · exact .inl (heq' ▸ hlt)
    · exact .inl (heq ▸ hlt')
    · exact .inr ⟨heq.trans heq', List.le_trans hle hle'⟩

theorem listingOrder_antisymm (h : listingOrder left right) (h' : listingOrder right left) :
    left.1 = right.1 ∧ left.2.1 = right.2.1 := by
  rcases h with hlt | ⟨heq, hle⟩ <;> rcases h' with hlt' | ⟨heq', hle'⟩
  · exact absurd hlt' (lt_asymm hlt)
  · exact absurd hlt (heq' ▸ lt_irrefl _)
  · exact absurd hlt' (heq ▸ lt_irrefl _)
  · exact ⟨heq, List.le_antisymm hle hle'⟩

/-- The key of an entry of a listing, from what it is sorted by. -/
def listedKey (query : MetaRead) (texts : List String) (name : Bytes) : Option MetaKey :=
  match query, texts with
  | .dfsDirectory namespaceId parentInodeId, _ => some (.dfsDentry ⟨namespaceId, parentInodeId, name⟩)
  | .currentNodeSessions, nodeId :: _ => some (.currentNodeSession nodeId)
  | .dfsPlacements, chunkId :: _ => some (.dfsPlacement ⟨chunkId⟩)
  | .dfsReplicationTasks, id :: _ => some (.dfsReplicationTask ⟨id⟩)
  | _, _ => none

theorem entityKey_of_keyMatches {key entity} (h : keyMatches key entity)
    (hsession : ∀ session, entity ≠ .nodeSession session) : entityKey entity = key := by
  unfold keyMatches at h
  split at h
  · exact absurd rfl (hsession _)
  · simpa using h

/-- An entry of a listing is determined by what it is sorted by. -/
theorem MemoryState.WellFormed.listed_eq {s : MemoryState} (hwf : s.WellFormed) {query : MetaRead}
    (hleft : left ∈ s.listed query) (hright : right ∈ s.listed query) (htexts : left.1 = right.1)
    (hname : left.2.1 = right.2.1) : left = right := by
  have hentry : ∀ item ∈ s.listed query, ∃ entry ∈ s.entities.entries,
      listedKey query item.1 item.2.1 = some entry.1 ∧ item.2.2 = entry.2 := by
    intro item hitem
    obtain ⟨entry, hmem, hlisted⟩ := List.mem_filterMap.mp hitem
    have hmatches := hwf.keyed entry.1 entry.2 (AList.mem_lookup_iff.mpr hmem)
    refine ⟨entry, hmem, ?_⟩
    obtain ⟨key, revision, entity⟩ := entry
    dsimp only at hlisted hmatches ⊢
    split at hlisted
    · next namespaceId parentInodeId _ dentry =>
      split at hlisted
      · next hparent =>
        cases hlisted
        obtain ⟨rfl, rfl⟩ := hparent
        exact ⟨congrArg some (entityKey_of_keyMatches hmatches nofun), rfl⟩
      · cases hlisted
    · next nodeId session =>
      cases hlisted
      have hnode : nodeId = session.nodeId := by simpa [keyMatches, entityKey] using hmatches
      exact ⟨by rw [hnode]; rfl, rfl⟩
    · cases hlisted
      exact ⟨rfl, rfl⟩
    · cases hlisted
      exact ⟨rfl, rfl⟩
    · cases hlisted
  obtain ⟨entry, hmem, hkey, hvalue⟩ := hentry left hleft
  obtain ⟨entry', hmem', hkey', hvalue'⟩ := hentry right hright
  rw [htexts, hname, hkey', Option.some.injEq] at hkey
  have hsame := s.entities.nodupKeys.eq_of_fst_eq hmem hmem' hkey.symm
  exact Prod.ext htexts (Prod.ext hname (by rw [hvalue, hvalue', hsame]))

theorem MemoryState.SameContent.listing {s s' : MemoryState} (h : s.SameContent s') (hwf : s.WellFormed)
    (query : MetaRead) : s'.listing query = s.listing query := by
  have hperm : (s'.listed query).Perm (s.listed query) := h.entries.filterMap _
  have hsorted : (s'.listed query).insertionSort listingOrder = (s.listed query).insertionSort listingOrder := by
    refine Pairs.insertionSort_eq_of_perm hperm fun left hleft right hright hle hge => ?_
    obtain ⟨htexts, hname⟩ := listingOrder_antisymm hle hge
    exact hwf.listed_eq hleft hright htexts hname
  exact congrArg (List.map (·.2.2)) hsorted

theorem MemoryState.SameContent.read {s s' : MemoryState} (h : s.SameContent s') (hwf : s.WellFormed) (now : UInt64)
    (query : MetaRead) : s'.read now query = s.read now query := by
  have hadmits : (fun versioned : VersionedEntity => s'.readAdmits now query versioned.entity) =
      fun versioned => s.readAdmits now query versioned.entity := by
    funext versioned
    exact h.readAdmits now query versioned.entity
  have hlookup : s'.entities.lookup = s.entities.lookup := funext h.entities
  have houtcome : s'.outcome = s.outcome := funext h.requests
  simp only [MemoryState.read, hadmits, hlookup, houtcome, h.listing hwf, h.revision]

/-! ## Conditions -/

section

variable {s s' : MemoryState} (h : s.SameContent s')

include h

theorem MemoryState.OneParent.dfsParentOf {id}
    (hone : s.OneParent namespaceId id) : s'.dfsParentOf namespaceId id = s.dfsParentOf namespaceId id := by
  -- any parent that either state finds belongs to a name of the inode, and both have the same names
  have hfound : ∀ {state : MemoryState} {parent : InodeId}, state.dfsParentOf namespaceId id = some parent →
      ∃ dentry ∈ state.dentries, dentry.key.namespaceId = namespaceId ∧ dentry.inodeId = id ∧
        dentry.key.parentInodeId = parent := by
    intro state parent hparent
    obtain ⟨versioned, hmem, hfound⟩ := List.exists_of_findSome?_eq_some hparent
    split at hfound
    · next dentry he =>
      split at hfound
      · next hmatch =>
        exact ⟨dentry, MemoryState.mem_dentries.mpr ⟨versioned, hmem, he⟩, hmatch.1, hmatch.2, Option.some.inj hfound⟩
      · cases hfound
    · cases hfound
  have hnone : ∀ {state : MemoryState} {dentry : Dentry}, dentry ∈ state.dentries →
      dentry.key.namespaceId = namespaceId → dentry.inodeId = id → state.dfsParentOf namespaceId id ≠ none := by
    intro state dentry hdentry hnamespace hid hnone
    obtain ⟨versioned, hmem, he⟩ := MemoryState.mem_dentries.mp hdentry
    have hall := List.findSome?_eq_none_iff.mp hnone versioned hmem
    rw [he] at hall
    simp [hnamespace, hid] at hall
  cases hparent : s.dfsParentOf namespaceId id with
  | none =>
    by_contra hsome
    obtain ⟨parent, hparent'⟩ := Option.ne_none_iff_exists'.mp hsome
    obtain ⟨dentry, hdentry, hnamespace, hid, -⟩ := hfound hparent'
    exact hnone (h.dentries.mem_iff.mp hdentry) hnamespace hid hparent
  | some parent =>
    obtain ⟨dentry, hdentry, hnamespace, hid, hdirectory⟩ := hfound hparent
    obtain ⟨parent', hparent'⟩ :=
      Option.ne_none_iff_exists'.mp (hnone (h.dentries.mem_iff.mpr hdentry) hnamespace hid)
    obtain ⟨other, hother, hnamespace', hid', hdirectory'⟩ := hfound hparent'
    rw [hparent', ← hdirectory, ← hdirectory',
      hone dentry hdentry other (h.dentries.mem_iff.mp hother) hnamespace hid hnamespace' hid']

theorem MemoryState.ClimbsAlone.dfsAncestorWalk {ancestor}
    (fuel : Nat) {current seen} (halone : s.ClimbsAlone namespaceId current) :
    s'.dfsAncestorWalk namespaceId ancestor fuel current seen =
      s.dfsAncestorWalk namespaceId ancestor fuel current seen := by
  induction fuel generalizing current seen with
  | zero => rfl
  | succ fuel ih =>
    rw [MemoryState.dfsAncestorWalk, MemoryState.dfsAncestorWalk, (halone current .refl).dfsParentOf h]
    cases hparent : s.dfsParentOf namespaceId current with
    | none => rfl
    | some parent =>
      have habove : s.ClimbsAlone namespaceId parent := fun above hclimbs => halone above (.head hparent hclimbs)
      simp only [ih habove]

theorem MemoryState.ClimbsAlone.dfsIsDescendantOrSame {child}
    (halone : s.ClimbsAlone namespaceId child) (ancestor : InodeId) :
    s'.dfsIsDescendantOrSame namespaceId ancestor child = s.dfsIsDescendantOrSame namespaceId ancestor child := by
  rw [MemoryState.dfsIsDescendantOrSame, MemoryState.dfsIsDescendantOrSame, h.values.length_eq,
    halone.dfsAncestorWalk h]

/-- **A condition is answered alike**, if it climbs through inodes with one parent. -/
theorem MemoryState.SameContent.conditionMatches (now : UInt64)
    {condition} (halone : ∀ namespaceId ancestor child,
      condition = .dfsNotDescendant namespaceId ancestor child → s.ClimbsAlone namespaceId child) :
    s'.conditionMatches now condition = s.conditionMatches now condition := by
  cases condition with
  | dfsNotDescendant namespaceId ancestor child =>
    exact congrArg (!·) ((halone namespaceId ancestor child rfl).dfsIsDescendantOrSame h ancestor)
  | requestAbsent key => simp only [MemoryState.conditionMatches, h.outcome]
  | dfsDirectoryEmpty namespaceId parentInodeId => exact h.dfsDirectoryIsEmpty namespaceId parentInodeId
  | nodeSessionCurrent nodeId sessionId => exact h.currentSessionMatches now nodeId sessionId
  | _ => simp only [MemoryState.conditionMatches, h.get, h.entities]

end

/-! ## Updates keep the content the same -/

theorem lookup_insert_congr {α γ : Type} [DecidableEq α] {map map' : AList (fun _ : α => γ)}
    (h : ∀ key, map'.lookup key = map.lookup key) (key : α) (value : γ) (other : α) :
    (map'.insert key value).lookup other = (map.insert key value).lookup other := by
  by_cases hkey : other = key
  · subst hkey
    rw [AList.lookup_insert, AList.lookup_insert]
  · rw [AList.lookup_insert_ne hkey, AList.lookup_insert_ne hkey, h]

namespace MemoryState.SameContent

variable {s s' : MemoryState}

section

variable (h : s.SameContent s')

include h

theorem putAt (index : UInt32) (key : MetaKey) (entity : MetaEntity) :
    (s.putAt index key entity).SameContent (s'.putAt index key entity) where
  revision := h.revision
  entities other := by
    show (s'.entities.insert key ⟨s'.revision, entity⟩).lookup other = _
    rw [h.revision]
    exact lookup_insert_congr h.entities key _ other
  requests := h.requests
  events := by
    show s'.events ++ [⟨s'.revision, index, key, .put entity⟩] = _
    rw [h.events, h.revision]
    rfl
  nodeEpochs := h.nodeEpochs

/-- A session is put at the place its event has in the log. -/
theorem putAtEnd (key : MetaKey) (entity : MetaEntity) :
    (s.putAt (UInt32.ofNat s.events.length) key entity).SameContent
      (s'.putAt (UInt32.ofNat s'.events.length) key entity) := by
  rw [h.events]
  exact h.putAt _ key entity

theorem deleteAt (index : UInt32) (key : MetaKey) : (s.deleteAt index key).SameContent (s'.deleteAt index key) where
  revision := h.revision
  entities other := by
    show (s'.entities.erase key).lookup other = (s.entities.erase key).lookup other
    by_cases hkey : other = key
    · subst hkey
      rw [AList.lookup_erase, AList.lookup_erase]
    · rw [AList.lookup_erase_ne hkey, AList.lookup_erase_ne hkey, h.entities]
  requests := h.requests
  events := by
    show s'.events ++ [⟨s'.revision, index, key, .delete⟩] = _
    rw [h.events, h.revision]
    rfl
  nodeEpochs := h.nodeEpochs

theorem recordOutcome (outcome : RequestOutcome) : (s.recordOutcome outcome).SameContent (s'.recordOutcome outcome) :=
  ⟨h.revision, h.entities, lookup_insert_congr h.requests outcome.request outcome, h.events, h.nodeEpochs⟩

theorem foldl_applyMutation (mutations : List TxnMutation) (index : UInt32) :
    (mutations.foldl applyMutation (s, index)).1.SameContent (mutations.foldl applyMutation (s', index)).1 := by
  induction mutations generalizing s s' index with
  | nil => exact h
  | cons mutation rest ih =>
    cases mutation with
    | put entity => exact ih (h.putAt index _ entity) (index + 1)
    | delete key => exact ih (h.deleteAt index key) (index + 1)
    | recordRequestOutcome outcome => exact ih (h.recordOutcome outcome) index

theorem advance : { s with revision := s.revision.next }.SameContent { s' with revision := s'.revision.next } :=
  ⟨congrArg StoreRevision.next h.revision, h.entities, h.requests, h.events, h.nodeEpochs⟩

end

end MemoryState.SameContent

variable {s s' : StoreState}

section

variable (h : s.SameContent s'.toMemoryState)

include h

theorem sameContent_applyMutations (mutations : List TxnMutation) :
    (s.applyMutations mutations).SameContent (s'.applyMutations mutations).toMemoryState :=
  h.advance.foldl_applyMutation mutations 0

/-- **A transaction is answered alike** and leaves the same content, if it climbs through inodes with one parent. -/
theorem sameContent_compareAndCommit (now : UInt64) (txn : MetaTxn)
    (halone : ∀ namespaceId ancestor child, .dfsNotDescendant namespaceId ancestor child ∈ txn.conditions →
      s.ClimbsAlone namespaceId child) :
    (s'.compareAndCommit now txn).1 = (s.compareAndCommit now txn).1 ∧
      (s.compareAndCommit now txn).2.SameContent (s'.compareAndCommit now txn).2.toMemoryState := by
  have hconditions : txn.conditions.all (s'.conditionMatches now) = txn.conditions.all (s.conditionMatches now) := by
    rw [Bool.eq_iff_iff, List.all_eq_true, List.all_eq_true]
    refine forall₂_congr fun condition hmem => ?_
    rw [h.conditionMatches now fun namespaceId ancestor child hcondition =>
      halone namespaceId ancestor child (hcondition ▸ hmem)]
  unfold StoreState.compareAndCommit
  rw [h.outcome, hconditions, h.revision]
  cases txn.validate with
  | error e => exact ⟨rfl, h⟩
  | ok =>
    cases s.outcome txn.request with
    | some existing => exact ⟨rfl, h⟩
    | none =>
      dsimp only
      split
      · cases txn.recordedOutcome with
        | none => exact ⟨rfl, h⟩
        | some outcome => exact ⟨rfl, sameContent_applyMutations h txn.mutations⟩
      · exact ⟨rfl, h⟩

theorem registrationEpoch_congr (now : UInt64) (lease : NodeSessionLease) :
    (s'.registrationEpoch now lease).1 = (s.registrationEpoch now lease).1 ∧
      ∀ node, (s'.registrationEpoch now lease).2.lookup node = (s.registrationEpoch now lease).2.lookup node := by
  have hnew := lookup_insert_congr h.nodeEpochs lease.nodeId
    (((s.nodeEpochs.lookup lease.nodeId).getD 0).saturatingAdd 1)
  unfold StoreState.registrationEpoch
  rw [h.get, h.nodeEpochs]
  split
  · split
    · exact ⟨rfl, h.nodeEpochs⟩
    · exact ⟨rfl, hnew⟩
  · exact ⟨rfl, hnew⟩

theorem sameContent_applyRegistration (session : NodeSession) {nodeEpochs nodeEpochs'}
    (hepochs : ∀ node, nodeEpochs'.lookup node = nodeEpochs.lookup node) (outcome : RequestOutcome) :
    (s.applyRegistration session nodeEpochs outcome).SameContent
      (s'.applyRegistration session nodeEpochs' outcome).toMemoryState := by
  have hadvanced : { s.toMemoryState with revision := s.revision.next, nodeEpochs }.SameContent
      { s'.toMemoryState with revision := s'.revision.next, nodeEpochs := nodeEpochs' } :=
    ⟨congrArg StoreRevision.next h.revision, h.entities, h.requests, h.events, hepochs⟩
  have hown := hadvanced.putAtEnd (.nodeSession session.nodeId session.sessionId) (.nodeSession session)
  exact (hown.putAtEnd (.currentNodeSession session.nodeId) (.nodeSession session)).recordOutcome outcome

theorem sameContent_registerNodeSession (now : UInt64) (request : RequestKey) (lease : NodeSessionLease) :
    (s'.registerNodeSession now request lease).1 = (s.registerNodeSession now request lease).1 ∧
      (s.registerNodeSession now request lease).2.SameContent
        (s'.registerNodeSession now request lease).2.toMemoryState := by
  obtain ⟨hepoch, hepochs⟩ := registrationEpoch_congr h now lease
  have hrenews : s'.renewsExpired now lease = s.renewsExpired now lease := by
    rw [StoreState.renewsExpired, StoreState.renewsExpired, h.get]
  unfold StoreState.registerNodeSession
  rw [h.outcome, hrenews, h.revision]
  split
  · exact ⟨rfl, h⟩
  · cases s.outcome request with
    | some existing => exact ⟨rfl, h⟩
    | none =>
      dsimp only
      split
      · exact ⟨rfl, h⟩
      · split
        · exact ⟨rfl, h⟩
        · rw [hepoch]
          exact ⟨rfl, sameContent_applyRegistration h _ hepochs _⟩

end

/-! ## Round trip -/

/-- **A call is answered alike** and leaves the same content. -/
theorem StoreCall.serve_alike (h : s.SameContent s'.toMemoryState) (now : UInt64) {call : StoreCall}
    (halone : call.ClimbsAlone s.toMemoryState) :
    (call.serve now s).1.Alike (call.serve now s').1 ∧
      (call.serve now s).2.SameContent (call.serve now s').2.toMemoryState := by
  cases call with
  | read query =>
    refine ⟨?_, h⟩
    rw [serve, serve, h.read s.wf]
    exact .same _
  | mutate mutation =>
    have hexecute : (mutation.execute now s').1 = (mutation.execute now s).1 ∧
        (mutation.execute now s).2.SameContent (mutation.execute now s').2.toMemoryState := by
      cases mutation with
      | transaction txn => exact sameContent_compareAndCommit h now txn halone
      | registerNode request lease => exact sameContent_registerNodeSession h now request lease
    refine ⟨?_, hexecute.2⟩
    rw [serve, serve, hexecute.1]
    exact .same _
  | watch after limit =>
    have hwatch : s'.watch after limit = s.watch after limit := by
      rw [MemoryState.watch, MemoryState.watch, MemoryState.watchBatch, MemoryState.watchBatch,
        MemoryState.watchedEvents, MemoryState.watchedEvents, h.events]
    refine ⟨?_, h⟩
    rw [serve, serve, hwatch]
    exact .same _
  | scanRootsForRecovery =>
    refine ⟨?_, h⟩
    rw [serve, serve, MemoryState.scanRootsForRecovery, MemoryState.scanRootsForRecovery, h.revision]
    exact .scannedRoots _ _ (h.values.symm.filterMap _)
  | scanOwnerRootsForRecovery =>
    refine ⟨?_, h⟩
    rw [serve, serve, MemoryState.scanOwnerRootsForRecovery, MemoryState.scanOwnerRootsForRecovery, h.revision]
    exact .scannedOwnerRoots _ _ (h.values.symm.filterMap _) (h.values.symm.filterMap _)

/-- So are calls one after the other. -/
theorem serveAll_alike {calls} (h : s.SameContent s'.toMemoryState)
    (halone : AllClimbAlone s calls) : List.Forall₂ StoreReply.Alike (serveAll s calls) (serveAll s' calls) := by
  induction calls generalizing s s' with
  | nil => exact .nil
  | cons item rest ih =>
    obtain ⟨hreply, hsame⟩ := StoreCall.serve_alike h item.1 halone.1
    exact .cons hreply (ih hsame halone.2)

/-- **Snapshot round trip.** The snapshot of every state of the store loads, the loaded state has the same revision,
    entities, outcomes, events and node epochs, and it answers every later sequence of calls alike: the same replies,
    but for the order in which the recovery scans list what they find, as long as the descendant checks of transactions
    climb through inodes with one parent. -/
theorem snapshot_round_trip {β : Type} {codec : SnapshotCodec β} (hcodec : codec.Lossless) (s : StoreState) {bytes : β}
    (hbytes : codec.toVec s.persisted = some bytes) :
    ∃ loaded, codec.load bytes = .ok loaded ∧ s.SameContent loaded.toMemoryState ∧
      ∀ calls, AllClimbAlone s calls → List.Forall₂ StoreReply.Alike (serveAll s calls) (serveAll loaded calls) := by
  obtain ⟨loaded, hloaded, hsame⟩ := s.fromSnapshot_persisted
  refine ⟨loaded, ?_, hsame, fun calls halone => serveAll_alike hsame halone⟩
  rw [SnapshotCodec.load, hcodec _ _ hbytes]
  exact hloaded

/-! Two roots of one home, and a file with a name in each of two directories. A state lists them in the order of their
transactions, the loaded one in the order of their keys. -/

def sampleRoot (rootId : String) : MetaEntity := .root ⟨rootId, 1, "home", "session-1", "prepare-1", 1, 1⟩

def sampleEntry (parent : String) : MetaEntity := .dfsDentry ⟨⟨⟨"default"⟩, ⟨parent⟩, []⟩, ⟨"file"⟩⟩

/-- A transaction of a service that writes one entity. -/
def sampleTxn (requestId : String) (conditions : List TxnCondition) (entity : MetaEntity) : Mutation :=
  let request : RequestKey := ⟨"caller", requestId⟩
  .transaction ⟨request, .activateRoot, .requestAbsent request :: conditions,
    [.put entity, .recordRequestOutcome ⟨request, .activateRoot, .empty⟩]⟩

/-- Two entities, the one with the larger key first. -/
def writtenBackwards (first second : MetaEntity) : StoreState :=
  (oneByOne StoreState.new [(1000, sampleTxn "1" [] second), (1000, sampleTxn "2" [] first)]).2

/-- Asks that the file does not lie below the one directory. -/
def notBelowLeft : Mutation :=
  sampleTxn "3" [.dfsNotDescendant ⟨"default"⟩ ⟨"left"⟩ ⟨"file"⟩] (sampleRoot "c")

theorem sortedPairs_pair {α γ : Type} [Ord α] {map : AList (fun _ : α => γ)} {first second : Sigma fun _ : α => γ}
    (h : map.entries = [first, second]) :
    Pairs.sortedPairs map =
      if (compare first.1 second.1).isLE then [(first.1, first.2), (second.1, second.2)]
      else [(second.1, second.2), (first.1, first.2)] := by
  rw [Pairs.sortedPairs, h]
  simp [List.mergeSort, List.MergeSort.Internal.splitInTwo, List.merge]

/-- The snapshot has the smaller key first. -/
theorem persisted_writtenBackwards {first second : MetaEntity}
    (hentries : (writtenBackwards first second).entities.entries =
      [⟨entityKey first, ⟨2, first⟩⟩, ⟨entityKey second, ⟨1, second⟩⟩])
    (hrequests : (writtenBackwards first second).requests.entries =
      [⟨⟨"caller", "2"⟩, ⟨⟨"caller", "2"⟩, .activateRoot, .empty⟩⟩,
        ⟨⟨"caller", "1"⟩, ⟨⟨"caller", "1"⟩, .activateRoot, .empty⟩⟩])
    (hlt : (compare (entityKey first) (entityKey second)).isLE = true) :
    (writtenBackwards first second).persisted =
      { schemaVersion := 1, revision := (writtenBackwards first second).revision,
        entities := [(entityKey first, ⟨2, first⟩), (entityKey second, ⟨1, second⟩)],
        requests := [(⟨"caller", "1"⟩, ⟨⟨"caller", "1"⟩, .activateRoot, .empty⟩),
          (⟨"caller", "2"⟩, ⟨⟨"caller", "2"⟩, .activateRoot, .empty⟩)],
        events := (writtenBackwards first second).events,
        nodeEpochs := Pairs.sortedPairs (writtenBackwards first second).nodeEpochs } := by
  have horder : (compare (⟨"caller", "2"⟩ : RequestKey) ⟨"caller", "1"⟩).isLE = false := by decide +kernel
  rw [MemoryState.persisted, sortedPairs_pair hentries, sortedPairs_pair hrequests, if_pos hlt,
    if_neg (by simp [horder])]

/-- **The order of iteration shows** in the recovery scans, and in a check that climbs through an inode with two
    parents. -/
theorem snapshot_forgets_order :
    (writtenBackwards (sampleRoot "a") (sampleRoot "b")).scanRootsForRecovery "home" =
      ⟨2, "home", [sampleRoot "a", sampleRoot "b"].filterMap (·.rootOf "home")⟩ ∧
    (plainSnapshots.load (writtenBackwards (sampleRoot "a") (sampleRoot "b")).persisted).map
        (·.scanRootsForRecovery "home") =
      .ok ⟨2, "home", [sampleRoot "b", sampleRoot "a"].filterMap (·.rootOf "home")⟩ ∧
    (notBelowLeft.execute 1000 (writtenBackwards (sampleEntry "left") (sampleEntry "right"))).1 =
      .ok (.conditionFailed 2 none) ∧
    (plainSnapshots.load (writtenBackwards (sampleEntry "left") (sampleEntry "right")).persisted).map
        (fun loaded => (notBelowLeft.execute 1000 loaded).1) =
      .ok (.ok (.committed 3 ⟨⟨"caller", "3"⟩, .activateRoot, .empty⟩)) := by
  rw [persisted_writtenBackwards rfl rfl (by decide +kernel), persisted_writtenBackwards rfl rfl (by decide +kernel)]
  decide +kernel

/-- A registration, its snapshot, and a later read of the session. -/
theorem snapshot_round_trip_of_registration :
    ∃ loaded, plainSnapshots.load registeredProcess.committed.persisted = .ok loaded ∧
      List.Forall₂ StoreReply.Alike
        (serveAll registeredProcess.committed [(2000, .read (.currentNodeSession "a")),
          (2000, .mutate (registering "b"))])
        (serveAll loaded [(2000, .read (.currentNodeSession "a")), (2000, .mutate (registering "b"))]) := by
  obtain ⟨loaded, hloaded, -, hreplies⟩ :=
    snapshot_round_trip plainSnapshots_lossless registeredProcess.committed rfl
  exact ⟨loaded, hloaded, hreplies _ ⟨trivial, trivial, trivial⟩⟩

end Afs
