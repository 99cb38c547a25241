import Afs.Meta.Store.Commit

/-!
# `Meta.Store.Effect` — what a transaction and a registration do to the store

Later modules never unfold the store's update functions. They use the statements of this one: the entity under a
key after a transaction is the old one passed through the transaction's mutations (`get_applyMutations`), the
recorded outcomes only grow, and a call of `compareAndCommit` either leaves the state as it is or has applied a
transaction all of whose conditions held (`compareAndCommit_cases`).
-/

namespace Afs

open List MemoryState

variable {key : MetaKey} {mutations : List TxnMutation} {entity : MetaEntity} {q : MetaRead} {id : InodeId}
  {namespaceId : NamespaceId}

/-! ## Single mutations -/

/-- What a mutation leaves under a key that held `old`. -/
def TxnMutation.effect (key : MetaKey) (old : Option MetaEntity) : TxnMutation → Option MetaEntity
  | .put entity => if entityKey entity = key then some entity else old
  | .delete key' => if key' = key then none else old
  | .recordRequestOutcome _ => old

/-- The key a mutation writes. -/
def TxnMutation.target : TxnMutation → Option MetaKey
  | .put entity => some (entityKey entity)
  | .delete key => some key
  | .recordRequestOutcome _ => none

/-- What a mutation leaves as the outcome of a request. -/
def TxnMutation.outcomeEffect (request : RequestKey) (old : Option RequestOutcome) :
    TxnMutation → Option RequestOutcome
  | .recordRequestOutcome outcome => if outcome.request = request then some outcome else old
  | _ => old

theorem TxnMutation.effect_of_target_ne {mutation : TxnMutation} (old : Option MetaEntity)
    (h : mutation.target ≠ some key) : mutation.effect key old = old := by
  cases mutation with
  | put entity =>
    have hne : entityKey entity ≠ key := fun he => h (congrArg some he)
    exact if_neg hne
  | delete key' =>
    have hne : key' ≠ key := fun he => h (congrArg some he)
    exact if_neg hne
  | recordRequestOutcome outcome => rfl

namespace MemoryState

variable {state : MemoryState}

theorem get_putAt (eventIndex : UInt32) (key key' : MetaKey) (entity : MetaEntity) :
    (state.putAt eventIndex key entity).get key' = if key = key' then some entity else state.get key' := by
  by_cases hk : key = key'
  · subst hk
    simp [get, putAt]
  · simp [get, putAt, hk, AList.lookup_insert_ne (Ne.symm hk)]

theorem get_deleteAt (eventIndex : UInt32) (key key' : MetaKey) :
    (state.deleteAt eventIndex key).get key' = if key = key' then none else state.get key' := by
  by_cases hk : key = key'
  · subst hk
    simp [get, deleteAt]
  · simp [get, deleteAt, hk, AList.lookup_erase_ne (Ne.symm hk)]

theorem get_recordOutcome (outcome : RequestOutcome) (key : MetaKey) :
    (state.recordOutcome outcome).get key = state.get key := rfl

theorem outcome_recordOutcome (outcome : RequestOutcome) (request : RequestKey) :
    (state.recordOutcome outcome).outcome request =
      if outcome.request = request then some outcome else state.outcome request := by
  by_cases hk : outcome.request = request
  · subst hk
    simp [MemoryState.outcome, recordOutcome]
  · simp [MemoryState.outcome, recordOutcome, hk, AList.lookup_insert_ne (Ne.symm hk)]

theorem get_applyMutation (eventIndex : UInt32) (mutation : TxnMutation) (key : MetaKey) :
    (applyMutation (state, eventIndex) mutation).1.get key = mutation.effect key (state.get key) := by
  cases mutation with
  | put entity => exact get_putAt eventIndex _ key entity
  | delete key' => exact get_deleteAt eventIndex key' key
  | recordRequestOutcome outcome => rfl

theorem outcome_applyMutation (eventIndex : UInt32) (mutation : TxnMutation) (request : RequestKey) :
    (applyMutation (state, eventIndex) mutation).1.outcome request =
      mutation.outcomeEffect request (state.outcome request) := by
  cases mutation with
  | put entity => rfl
  | delete key' => rfl
  | recordRequestOutcome outcome => exact outcome_recordOutcome outcome request

/-! ## Transactions -/

/-- **The entity under a key after a transaction** is the old one passed through its mutations. -/
theorem get_applyMutations (mutations : List TxnMutation) (key : MetaKey) :
    (state.applyMutations mutations).get key =
      mutations.foldl (fun old mutation => mutation.effect key old) (state.get key) := by
  suffices h : ∀ start : MemoryState × UInt32, (mutations.foldl applyMutation start).1.get key =
      mutations.foldl (fun old mutation => mutation.effect key old) (start.1.get key) from h _
  induction mutations with
  | nil => exact fun _ => rfl
  | cons _ _ ih =>
    intro start
    rw [foldl_cons, foldl_cons, ih, get_applyMutation]

theorem outcome_applyMutations (mutations : List TxnMutation) (request : RequestKey) :
    (state.applyMutations mutations).outcome request =
      mutations.foldl (fun old mutation => mutation.outcomeEffect request old) (state.outcome request) := by
  suffices h : ∀ start : MemoryState × UInt32, (mutations.foldl applyMutation start).1.outcome request =
      mutations.foldl (fun old mutation => mutation.outcomeEffect request old) (start.1.outcome request) from h _
  induction mutations with
  | nil => exact fun _ => rfl
  | cons _ _ ih =>
    intro start
    rw [foldl_cons, foldl_cons, ih, outcome_applyMutation]

theorem foldl_effect_of_untouched (h : ∀ mutation ∈ mutations, mutation.target ≠ some key) (old : Option MetaEntity) :
    mutations.foldl (fun old mutation => mutation.effect key old) old = old := by
  induction mutations with
  | nil => rfl
  | cons mutation rest ih =>
    rw [foldl_cons, TxnMutation.effect_of_target_ne old (h mutation (mem_cons_self ..))]
    exact ih fun m hm => h m (mem_cons_of_mem _ hm)

/-- A key that no mutation writes keeps its entity. -/
theorem get_applyMutations_of_untouched (h : ∀ mutation ∈ mutations, mutation.target ≠ some key) :
    (state.applyMutations mutations).get key = state.get key := by
  rw [get_applyMutations, foldl_effect_of_untouched h]

/-- What a mutation list leaves under a key comes from one of its puts, or was there before. -/
theorem get_applyMutations_eq_some (h : (state.applyMutations mutations).get key = some entity) :
    state.get key = some entity ∨ (.put entity ∈ mutations ∧ entityKey entity = key) := by
  rw [get_applyMutations] at h
  generalize state.get key = old at h
  induction mutations generalizing old with
  | nil => exact .inl h
  | cons mutation rest ih =>
    rw [foldl_cons] at h
    rcases ih _ h with hold | ⟨hmem, hkey⟩
    · -- the value comes from this mutation or from before
      cases mutation with
      | put entity' =>
        rw [TxnMutation.effect] at hold
        split at hold
        · next hkey =>
          rw [Option.some.injEq] at hold
          exact .inr ⟨hold ▸ mem_cons_self .., hold ▸ hkey⟩
        · exact .inl hold
      | delete key' =>
        rw [TxnMutation.effect] at hold
        split at hold
        · cases hold
        · exact .inl hold
      | recordRequestOutcome outcome => exact .inl hold
    · exact .inr ⟨mem_cons_of_mem _ hmem, hkey⟩

/-- What no mutation deletes stays present. -/
theorem get_applyMutations_ne_none (hdelete : .delete key ∉ mutations) (h : state.get key ≠ none) :
    (state.applyMutations mutations).get key ≠ none := by
  rw [get_applyMutations]
  generalize state.get key = old at h
  induction mutations generalizing old with
  | nil => exact h
  | cons mutation rest ih =>
    refine ih (fun hm => hdelete (mem_cons_of_mem _ hm)) _ ?_
    cases mutation with
    | put entity =>
      simp only [TxnMutation.effect]
      split
      · exact nofun
      · exact h
    | delete key' =>
      have hne : key' ≠ key := fun he => hdelete (he ▸ mem_cons_self ..)
      simpa only [TxnMutation.effect, if_neg hne] using h
    | recordRequestOutcome outcome => exact h

variable (state) in
/-- A key that is written and not deleted holds what one of the writes put there. -/
theorem get_applyMutations_of_put {written} (hput : .put written ∈ mutations)
    (hkey : entityKey written = key) (hdelete : .delete key ∉ mutations) :
    ∃ entity, .put entity ∈ mutations ∧ entityKey entity = key ∧
      (state.applyMutations mutations).get key = some entity := by
  rw [get_applyMutations]
  generalize state.get key = old
  induction mutations generalizing old written with
  | nil => cases hput
  | cons mutation rest ih =>
    have hrest : .delete key ∉ rest := fun hm => hdelete (mem_cons_of_mem _ hm)
    by_cases hlater : ∃ entity, .put entity ∈ rest ∧ entityKey entity = key
    · obtain ⟨entity, hmem, hentity⟩ := hlater
      obtain ⟨last, hlast, hlastKey, hget⟩ := ih hmem hentity hrest (mutation.effect key old)
      exact ⟨last, mem_cons_of_mem _ hlast, hlastKey, hget⟩
    · -- the first mutation is the last one that writes the key
      have hhead : mutation = .put written := by
        rcases mem_cons.mp hput with he | hmem
        · exact he.symm
        · exact absurd ⟨written, hmem, hkey⟩ hlater
      refine ⟨written, hput, hkey, ?_⟩
      have huntouched : ∀ m ∈ rest, m.target ≠ some key := by
        intro m hm htarget
        cases m with
        | put entity => exact hlater ⟨entity, hm, Option.some.inj htarget⟩
        | delete key' => exact hrest (Option.some.inj htarget ▸ hm)
        | recordRequestOutcome outcome => cases htarget
      rw [foldl_cons, foldl_effect_of_untouched huntouched, hhead, TxnMutation.effect, if_pos hkey]

/-- The outcome of a request comes from one of the records, or was there before. -/
theorem outcome_applyMutations_cases {request} :
    (state.applyMutations mutations).outcome request = state.outcome request ∨
      ∃ outcome, .recordRequestOutcome outcome ∈ mutations ∧
        (state.applyMutations mutations).outcome request = some outcome := by
  rw [outcome_applyMutations]
  generalize state.outcome request = old
  induction mutations generalizing old with
  | nil => exact .inl rfl
  | cons mutation rest ih =>
    rw [foldl_cons]
    rcases ih (mutation.outcomeEffect request old) with hsame | ⟨outcome, hmem, hnew⟩
    · rw [hsame]
      cases mutation with
      | put entity => exact .inl rfl
      | delete key => exact .inl rfl
      | recordRequestOutcome outcome =>
        rw [TxnMutation.outcomeEffect]
        split
        · exact .inr ⟨outcome, mem_cons_self .., rfl⟩
        · exact .inl rfl
    · exact .inr ⟨outcome, mem_cons_of_mem _ hmem, hnew⟩

end MemoryState

namespace StoreState

variable {s : StoreState} {now : UInt64} {txn : MetaTxn}

@[simp] theorem get_applyMutations (mutations : List TxnMutation) (key : MetaKey) :
    (s.applyMutations mutations).get key =
      mutations.foldl (fun old mutation => mutation.effect key old) (s.get key) :=
  MemoryState.get_applyMutations mutations key

@[simp] theorem outcome_applyMutations (mutations : List TxnMutation) (request : RequestKey) :
    (s.applyMutations mutations).outcome request =
      mutations.foldl (fun old mutation => mutation.outcomeEffect request old) (s.outcome request) :=
  MemoryState.outcome_applyMutations mutations request

/-- An entity sits under a key it may be stored under. -/
theorem keyMatches_of_get (h : s.get key = some entity) : keyMatches key entity := by
  rw [MemoryState.get, Option.map_eq_some_iff] at h
  obtain ⟨versioned, hlookup, rfl⟩ := h
  exact s.wf.keyed key versioned hlookup

/-- Apart from current node sessions, an entity sits under its own key. -/
theorem entityKey_of_get (h : s.get key = some entity) (hkey : ∀ nodeId, key ≠ .currentNodeSession nodeId) :
    entityKey entity = key := by
  have hmatch := keyMatches_of_get h
  unfold keyMatches at hmatch
  split at hmatch
  · exact absurd rfl (hkey _)
  · simpa using hmatch

/-- A read of one entity shows what is stored under its key. -/
theorem get_of_read (hq : readKey q = some key) (h : (s.read now q).entity = some entity) :
    s.get key = some entity := by
  simp only [MemoryState.read, hq, Option.bind_some, Option.map_eq_some_iff, Option.filter_eq_some_iff] at h
  obtain ⟨versioned, ⟨hlookup, -⟩, rfl⟩ := h
  rw [MemoryState.get, hlookup]
  rfl

/-- A read that is not of an OwnerFs grant shows all that is stored under its key. -/
theorem entity_read (hq : MemoryState.readKey q = some key) (hadmits : ∀ entity, s.readAdmits now q entity = true) :
    (s.read now q).entity = s.get key := by
  simp only [MemoryState.read, hq, Option.bind_some, hadmits, MemoryState.get]
  cases s.entities.lookup key <;> rfl

theorem inode_of_get (h : s.get (.dfsInode id) = some entity) : ∃ inode, entity = .dfsInode inode := by
  have hkey := entityKey_of_get h nofun
  cases entity <;> cases hkey
  exact ⟨_, rfl⟩

theorem inodeId_of_get {inode} (h : s.get (.dfsInode id) = some (.dfsInode inode)) : inode.inodeId = id := by
  simpa [entityKey] using entityKey_of_get h nofun

theorem key_of_get {key dentry} (h : s.get (.dfsDentry key) = some (.dfsDentry dentry)) : dentry.key = key := by
  simpa [entityKey] using entityKey_of_get h nofun

theorem lease_of_get {lease} (h : s.get (.dfsWriteLease id) = some (.dfsWriteLease lease)) : lease.inodeId = id := by
  simpa [entityKey] using entityKey_of_get h nofun

/-- **The transaction is applied**: it meets the contract, its request is new, and all its conditions hold. -/
structure Applies (s : StoreState) (now : UInt64) (txn : MetaTxn) (outcome : RequestOutcome) : Prop where
  valid : txn.validate = .ok ()
  fresh : s.outcome txn.request = none
  conditions : ∀ condition ∈ txn.conditions, s.conditionMatches now condition
  recorded : txn.recordedOutcome = some outcome

/-- What a call of `compareAndCommit` replies and leaves. -/
inductive CommitCase (s : StoreState) (now : UInt64) (txn : MetaTxn) : Result TxnOutcome → StoreState → Prop
  | rejected (e : Error) : CommitCase s now txn (.error e) s
  | replayed (outcome : RequestOutcome) (h : s.outcome txn.request = some outcome) :
      CommitCase s now txn (.ok (.conditionFailed s.revision (some outcome))) s
  | failed (h : s.outcome txn.request = none) : CommitCase s now txn (.ok (.conditionFailed s.revision none)) s
  | applied (outcome : RequestOutcome) (h : Applies s now txn outcome) :
      CommitCase s now txn (.ok (.committed (StoreRevision.next s.revision) outcome))
        (s.applyMutations txn.mutations)

theorem compareAndCommit_cases (s : StoreState) (now : UInt64) (txn : MetaTxn) :
    CommitCase s now txn (s.compareAndCommit now txn).1 (s.compareAndCommit now txn).2 := by
  unfold compareAndCommit
  split
  · exact .rejected _
  · next hvalid =>
    split
    · next outcome hout => exact .replayed outcome hout
    · next hfresh =>
      split
      · next hall =>
        split
        · exact .rejected _
        · next outcome hrec =>
          exact .applied outcome ⟨hvalid, hfresh, fun c hc => all_eq_true.mp hall c hc, hrec⟩
      · exact .failed hfresh

/-- A commit leaves the state as it is or applies the transaction. -/
theorem compareAndCommit_eq (s : StoreState) (now : UInt64) (txn : MetaTxn) :
    (s.compareAndCommit now txn).2 = s ∨
      ∃ outcome, Applies s now txn outcome ∧ (s.compareAndCommit now txn).2 = s.applyMutations txn.mutations := by
  have hcases := s.compareAndCommit_cases now txn
  generalize (s.compareAndCommit now txn).1 = reply at hcases
  generalize (s.compareAndCommit now txn).2 = next at hcases ⊢
  cases hcases with
  | rejected | replayed | failed => exact .inl rfl
  | applied outcome h => exact .inr ⟨outcome, h, rfl⟩

/-- A transaction that applies is committed. -/
theorem Applies.compareAndCommit {txn outcome} (h : Applies s now txn outcome) :
    s.compareAndCommit now txn =
      (.ok (.committed (StoreRevision.next s.revision) outcome), s.applyMutations txn.mutations) := by
  have hall : txn.conditions.all (s.conditionMatches now) = true := all_eq_true.mpr h.conditions
  simp [StoreState.compareAndCommit, h.valid, h.fresh, hall, h.recorded]

namespace Applies

variable {outcome : RequestOutcome}

section

variable (h : Applies s now txn outcome)

include h

/-- The stored entity a condition of the transaction names. -/
theorem entityEquals (hmem : .entityEquals entity ∈ txn.conditions) : s.get (entityKey entity) = some entity := by
  simpa [conditionMatches] using h.conditions _ hmem

theorem placementEquals {placement} (hmem : .entityEquals (.dfsPlacement placement) ∈ txn.conditions) :
    s.get (.dfsPlacement placement.chunkId) = some (.dfsPlacement placement) := h.entityEquals hmem

theorem taskEquals {task} (hmem : .entityEquals (.dfsReplicationTask task) ∈ txn.conditions) :
    s.get (.dfsReplicationTask task.id) = some (.dfsReplicationTask task) := h.entityEquals hmem

theorem missing (hmem : .missing key ∈ txn.conditions) : s.get key = none := by
  have hcond := h.conditions _ hmem
  simp only [MemoryState.conditionMatches, Option.isNone_iff_eq_none] at hcond
  rw [MemoryState.get, hcond]
  rfl

theorem directoryEmpty {inodeId}
    (hmem : .dfsDirectoryEmpty namespaceId inodeId ∈ txn.conditions) : s.dfsDirectoryIsEmpty namespaceId inodeId :=
  h.conditions _ hmem

theorem notDescendant {ancestor child} (hmem : .dfsNotDescendant namespaceId ancestor child ∈ txn.conditions) :
    s.dfsIsDescendantOrSame namespaceId ancestor child = false := by
  simpa [conditionMatches] using h.conditions _ hmem

end

end Applies

/-! ## Registrations -/

/-- What a call of `registerNodeSession` replies and leaves. -/
inductive RegisterCase (s : StoreState) (request : RequestKey) (lease : NodeSessionLease) :
    Result TxnOutcome → StoreState → Prop
  | rejected (e : Error) : RegisterCase s request lease (.error e) s
  | replayed (outcome : RequestOutcome) (h : s.outcome request = some outcome) :
      RegisterCase s request lease (.ok (.conditionFailed s.revision (some outcome))) s
  | registered (session : NodeSession) (nodeEpochs : AList (fun _ : String => UInt64))
      (hfresh : s.outcome request = none) (hnode : session.nodeId = lease.nodeId)
      (hsession : session.sessionId = lease.sessionId) :
      RegisterCase s request lease
        (.ok (.committed (StoreRevision.next s.revision) ⟨request, .registerNode, .nodeSession session⟩))
        (s.applyRegistration session nodeEpochs ⟨request, .registerNode, .nodeSession session⟩)

theorem registerNodeSession_cases (s : StoreState) (now : UInt64) (request : RequestKey) (lease : NodeSessionLease) :
    RegisterCase s request lease (s.registerNodeSession now request lease).1
      (s.registerNodeSession now request lease).2 := by
  unfold registerNodeSession
  split
  · exact .rejected _
  · split
    · next outcome hout => exact .replayed outcome hout
    · next hfresh =>
      split
      · exact .rejected _
      · split
        · exact .rejected _
        · exact .registered (registeredSession now lease (s.registrationEpoch now lease).1) _ hfresh rfl rfl

section

variable (session : NodeSession) (nodeEpochs : AList (fun _ : String => UInt64)) (outcome : RequestOutcome)

/-- A registration writes the session under its own key and as the current one. -/
theorem get_applyRegistration (key : MetaKey) :
    (s.applyRegistration session nodeEpochs outcome).get key =
      if .currentNodeSession session.nodeId = key then some (.nodeSession session)
      else if .nodeSession session.nodeId session.sessionId = key then some (.nodeSession session)
      else s.get key := by
  show (recordOutcome _ _).get key = _
  rw [get_recordOutcome, get_putAt, get_putAt]
  rfl

theorem outcome_applyRegistration (request : RequestKey) :
    (s.applyRegistration session nodeEpochs outcome).outcome request =
      if outcome.request = request then some outcome else s.outcome request := by
  show (recordOutcome _ _).outcome request = _
  rw [outcome_recordOutcome]
  rfl

end

end StoreState

end Afs
