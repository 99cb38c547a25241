import Afs.Meta.Dfs.RepairRuns

/-!
# `Meta.Dfs.RepairEffects` — what a transaction leaves of the records of repair

Chunks, copies, placements and repair tasks are written by commits, claims and reports only. A claim or a report writes
some copies, at most one placement and at most one task (`RepairWrite`); a commit writes a chunk, its copies, its
placement and perhaps a task for each of its receipts, and the receipts are about different chunks.
-/

namespace Afs

open Interaction Relation List TxnMutation

variable {service : DfsService} {tick : Tick} {s : System} {r : Request} {txn : MetaTxn}

variable {key : MetaKey} {outcome : RequestOutcome} {entity : MetaEntity} {copy : CopyRecord} {item : AcceptedReceipt}
  {chunkId : ChunkId}

/-! ## Puts -/

/-- What all puts under a key agree on is stored afterwards. -/
theorem get_committed_of_put (written : MetaEntity) (hput : .put written ∈ txn.mutations)
    (hunique : ∀ entity, .put entity ∈ txn.mutations → entityKey entity = entityKey written → entity = written)
    (hdelete : .delete (entityKey written) ∉ txn.mutations) :
    (committed s txn).store.get (entityKey written) = some written := by
  obtain ⟨entity, hmem, hkey, hget⟩ := MemoryState.get_applyMutations_of_put s.store.toMemoryState hput rfl hdelete
  rw [hunique entity hmem hkey] at hget
  exact hget

/-- What nobody puts stays. -/
theorem get_committed_of_no_put (hput : ∀ entity, .put entity ∈ txn.mutations → entityKey entity ≠ key)
    (hdelete : .delete key ∉ txn.mutations) : (committed s txn).store.get key = s.store.get key := by
  refine MemoryState.get_applyMutations_of_untouched fun mutation hmem htarget => ?_
  cases mutation with
  | put entity => exact hput entity hmem (Option.some.inj htarget)
  | delete key' =>
    cases htarget
    exact hdelete hmem
  | recordRequestOutcome outcome => cases htarget

/-- The keys of the records of repair. -/
def MetaKey.ofRepair : MetaKey → Bool
  | .dfsChunk _ | .dfsCopy _ | .dfsPlacement _ | .dfsReplicationTask _ => true
  | _ => false

theorem Aside.get_ofRepair {s'} (h : Aside s s') (hkey : key.ofRepair = true) :
    s'.store.get key = s.store.get key := by
  apply h.get key
  cases key <;> first | rfl | cases hkey

theorem Issued.no_delete (h : Issued service tick s r txn) (hkey : key.ofRepair = true) :
    .delete key ∉ txn.mutations := by
  intro hm
  cases h.writes hm
  cases hkey

theorem ofRepair_put_renameEntries {key oldKey newKey dentry inode replaced now} :
    ∀ entity, .put entity ∈ (renameEntriesTxn key oldKey newKey dentry inode replaced now).mutations →
      (entityKey entity).ofRepair = false := by
  cases replaced <;> simp [renameEntriesTxn, or_imp, forall_and, entityKey, MetaKey.ofRepair]

/-- The other requests put no records of repair. -/
theorem Issued.ofRepair_put (h : Issued service tick s r txn) (hr : r.repairs = false) :
    ∀ entity, .put entity ∈ txn.mutations → (entityKey entity).ofRepair = false := by
  cases h with
  | namespaceRoot => simp [initializeNamespaceTxn, entityKey, MetaKey.ofRepair]
  | replicationConfig => simp [replicationConfigTxn, entityKey, MetaKey.ofRepair]
  | create | newEntry | link | remove =>
    simp [createTxn, newEntryTxn, linkTxn, removeTxn, pushParentNamespaceChange, or_imp, forall_and, entityKey,
      MetaKey.ofRepair]
  | renameNoop => simp [renameNoopTxn]
  | rename =>
    intro entity hm
    simp only [renameTxn, mem_append, mem_singleton, reduceCtorEq, or_false] at hm
    rcases mem_mutations_renameParents hm with hentry | ⟨parent, delta, now, he, -⟩
    · exact ofRepair_put_renameEntries entity hentry
    · cases he
      rfl
  | metadata => simp [inodeMetadataTxn, entityKey, MetaKey.ofRepair]
  | acquire | renew => simp [leaseTxn, entityKey, MetaKey.ofRepair]
  | sync => simp [syncTxn, entityKey, MetaKey.ofRepair]
  | _ => cases hr

theorem Issued.leaves_repair (h : Issued service tick s r txn)
    (hputs : ∀ entity, .put entity ∈ txn.mutations → (entityKey entity).ofRepair = false) (hkey : key.ofRepair = true) :
    (committed s txn).store.get key = s.store.get key := by
  refine get_committed_of_no_put (fun entity hput he => ?_) (h.no_delete hkey)
  subst he
  rw [hputs entity hput] at hkey
  cases hkey

/-! ## Claims and reports -/

/-- The records that a claim or a report writes. -/
structure RepairWrite where
  copies : List CopyRecord
  placement : Option PlacementRecord
  task : Option ReplicationTask

/-- The transaction writes these records and an outcome. -/
def RepairWrite.IsOf (w : RepairWrite) (txn : MetaTxn) : Prop :=
  ∃ outcome, txn.mutations = w.copies.map (fun copy => .put (.dfsCopy copy)) ++
    (w.placement.map fun placement => TxnMutation.put (.dfsPlacement placement)).toList ++
    (w.task.map fun task => TxnMutation.put (.dfsReplicationTask task)).toList ++ [.recordRequestOutcome outcome]

theorem RepairWrite.IsOf.of_append {w : RepairWrite}
    (h : txn.mutations = w.copies.map (fun copy => .put (.dfsCopy copy)) ++
      ((w.placement.map fun placement => put (.dfsPlacement placement)).toList ++
        ((w.task.map fun task => put (.dfsReplicationTask task)).toList ++
          [.recordRequestOutcome outcome]))) : w.IsOf txn :=
  ⟨outcome, by rw [h, append_assoc, append_assoc]⟩

namespace RepairWrite.IsOf

variable {w : RepairWrite} (h : w.IsOf txn)

include h

theorem get_placement (chunkId : ChunkId) :
    (committed s txn).store.get (.dfsPlacement chunkId) =
      if w.placement.map (·.chunkId) = some chunkId then w.placement.map .dfsPlacement
      else s.store.get (.dfsPlacement chunkId) := by
  obtain ⟨outcome, he⟩ := h
  have hcopies : ∀ mutation ∈ w.copies.map (fun copy => put (.dfsCopy copy)),
      mutation.target ≠ some (.dfsPlacement chunkId) := by simp [target, entityKey]
  rw [committed, StoreState.get_applyMutations, he, foldl_append, foldl_append, foldl_append,
    MemoryState.foldl_effect_of_untouched hcopies]
  cases w.placement <;> cases w.task <;> simp [effect, entityKey]

theorem get_task (id : ReplicationTaskId) :
    (committed s txn).store.get (.dfsReplicationTask id) =
      if w.task.map (·.id) = some id then w.task.map .dfsReplicationTask
      else s.store.get (.dfsReplicationTask id) := by
  obtain ⟨outcome, he⟩ := h
  have hcopies : ∀ mutation ∈ w.copies.map (fun copy => put (.dfsCopy copy)),
      mutation.target ≠ some (.dfsReplicationTask id) := by simp [target, entityKey]
  rw [committed, StoreState.get_applyMutations, he, foldl_append, foldl_append, foldl_append,
    MemoryState.foldl_effect_of_untouched hcopies]
  cases w.placement <;> cases w.task <;> simp [effect, entityKey]

theorem put_mem :
    .put entity ∈ txn.mutations ↔ (∃ copy ∈ w.copies, entity = .dfsCopy copy) ∨
      (∃ placement, w.placement = some placement ∧ entity = .dfsPlacement placement) ∨
      ∃ task, w.task = some task ∧ entity = .dfsReplicationTask task := by
  obtain ⟨outcome, he⟩ := h
  rw [he]
  cases w.placement <;> cases w.task <;> simp [eq_comm]

theorem no_delete (key : MetaKey) : .delete key ∉ txn.mutations := by
  obtain ⟨outcome, he⟩ := h
  rw [he]
  cases w.placement <;> cases w.task <;> simp

theorem get_chunk (chunkId : ChunkId) :
    (committed s txn).store.get (.dfsChunk chunkId) = s.store.get (.dfsChunk chunkId) := by
  refine get_committed_of_no_put (fun entity hput => ?_) (h.no_delete _)
  rcases h.put_mem.mp hput with ⟨copy, -, rfl⟩ | ⟨placement, -, rfl⟩ | ⟨task, -, rfl⟩ <;> simp [entityKey]

theorem get_copy_of_mem (hids : (w.copies.map (·.id)).Nodup) (hmem : copy ∈ w.copies) :
    (committed s txn).store.get (.dfsCopy copy.id) = some (.dfsCopy copy) := by
  refine get_committed_of_put (.dfsCopy copy) (h.put_mem.mpr (.inl ⟨copy, hmem, rfl⟩)) ?_ (h.no_delete _)
  intro entity hput hkey
  rcases h.put_mem.mp hput with ⟨other, hother, rfl⟩ | ⟨placement, -, rfl⟩ | ⟨task, -, rfl⟩
  · rw [inj_on_of_nodup_map hids hother hmem (MetaKey.dfsCopy.inj hkey)]
  · cases hkey
  · cases hkey

end RepairWrite.IsOf

/-! ## Commits -/

namespace AcceptedReceipt

section

variable (item : AcceptedReceipt) (replication : ReplicationConfig)

/-- As many copies are acknowledged as are desired. -/
def full : Bool :=
  item.copies.length ≥ replication.desiredCopies.toNat

/-- The placement that the receipt leaves. -/
def placement : PlacementRecord where
  chunkId := item.receipt.chunk.id
  replicaGroupId := item.receipt.replicaGroupId
  placementEpoch := item.receipt.placementEpoch
  desiredCopies := replication.desiredCopies
  copies := item.copies.map (·.id)
  health := if item.full replication then .satisfied else .underReplicated

/-- The task that the receipt leaves when copies are missing. -/
def task : ReplicationTask where
  id := repairTaskId item.receipt.chunk.id
  chunkId := item.receipt.chunk.id
  placementEpoch := item.receipt.placementEpoch
  desiredCopies := replication.desiredCopies
  existingCopies := item.copies.map (·.id)
  state := .pending
  attempt := 0
  nextRetryUnixMs := item.now
  lastError := none
  claim := none

end

end AcceptedReceipt

theorem repairTaskId_injective {a b} (h : repairTaskId a = repairTaskId b) : a = b := by
  obtain ⟨a⟩ := a
  obtain ⟨b⟩ := b
  simpa [repairTaskId] using h

theorem put_mem_receiptMutations {replication} :
    .put entity ∈ receiptMutations replication item.receipt item.copies item.now ↔
      entity = .dfsChunk item.receipt.chunk ∨ (∃ copy ∈ item.copies, entity = .dfsCopy copy) ∨
      entity = .dfsPlacement (item.placement replication) ∨
      item.full replication = false ∧ entity = .dfsReplicationTask (item.task replication) := by
  by_cases hfull : item.copies.length ≥ replication.desiredCopies.toNat <;>
    simp [receiptMutations, AcceptedReceipt.full, AcceptedReceipt.placement, AcceptedReceipt.task, hfull, eq_comm]

/-- As many copies are acknowledged as the stored config desires. -/
def receiptFull (s : System) (receipt : ChunkReceipt) : Bool :=
  match s.store.get .dfsReplicationConfig with
  | some (.dfsReplicationConfig config) => receipt.durableAcks.length ≥ config.desiredCopies.toNat
  | _ => false

namespace IsCommit

variable {parts : CommitParts} (h : IsCommit s r txn parts)

include h

/-- The records of repair that a commit puts. -/
theorem put_mem (hkey : (entityKey entity).ofRepair = true) :
    .put entity ∈ txn.mutations ↔ ∃ item ∈ parts.accepted, entity = .dfsChunk item.receipt.chunk ∨
      (∃ copy ∈ item.copies, entity = .dfsCopy copy) ∨ entity = .dfsPlacement (item.placement parts.replication) ∨
      item.full parts.replication = false ∧ entity = .dfsReplicationTask (item.task parts.replication) := by
  rw [h.txn, CommitParts.txn, commitTxn, mem_append, mem_flatMap]
  simp only [put_mem_receiptMutations]
  apply or_iff_left
  simp only [mem_cons, put.injEq, reduceCtorEq, not_mem_nil, or_false]
  rintro (rfl | rfl | rfl) <;> cases hkey

theorem no_delete (key : MetaKey) : .delete key ∉ txn.mutations := by
  rw [h.txn, CommitParts.txn, commitTxn, mem_append, mem_flatMap]
  rintro (⟨item, -, hm⟩ | hm)
  · cases receiptWrite_of_mem hm
  · simp at hm

section

variable (hitem : item ∈ parts.accepted)

include hitem

/-- Different receipts are about different chunks. -/
theorem item_eq {other} (hother : other ∈ parts.accepted)
    (hid : item.receipt.chunk.id = other.receipt.chunk.id) : item = other :=
  inj_on_of_nodup_map h.checked.accepted.distinct hitem hother hid

theorem get_chunk :
    (committed s txn).store.get (.dfsChunk item.receipt.chunk.id) = some (.dfsChunk item.receipt.chunk) := by
  refine get_committed_of_put (.dfsChunk item.receipt.chunk) ((h.put_mem rfl).mpr ⟨item, hitem, .inl rfl⟩) ?_
    (h.no_delete _)
  intro entity hput hkey
  obtain ⟨other, hother, hcase⟩ := (h.put_mem (by rw [hkey]; rfl)).mp hput
  rcases hcase with rfl | ⟨copy, -, rfl⟩ | rfl | ⟨-, rfl⟩
  · rw [h.item_eq hother hitem (MetaKey.dfsChunk.inj hkey)]
  all_goals cases hkey

theorem get_placement :
    (committed s txn).store.get (.dfsPlacement item.receipt.chunk.id) =
      some (.dfsPlacement (item.placement parts.replication)) := by
  refine get_committed_of_put (.dfsPlacement (item.placement parts.replication))
    ((h.put_mem rfl).mpr ⟨item, hitem, .inr (.inr (.inl rfl))⟩) ?_ (h.no_delete _)
  intro entity hput hkey
  obtain ⟨other, hother, hcase⟩ := (h.put_mem (by rw [hkey]; rfl)).mp hput
  rcases hcase with rfl | ⟨copy, -, rfl⟩ | rfl | ⟨-, rfl⟩
  · cases hkey
  · cases hkey
  · rw [h.item_eq hother hitem (MetaKey.dfsPlacement.inj hkey)]
  · cases hkey

theorem get_task :
    (committed s txn).store.get (.dfsReplicationTask (repairTaskId item.receipt.chunk.id)) =
      if item.full parts.replication then s.store.get (.dfsReplicationTask (repairTaskId item.receipt.chunk.id))
      else some (.dfsReplicationTask (item.task parts.replication)) := by
  have hsame {entity : MetaEntity} (hput : .put entity ∈ txn.mutations)
      (hkey : entityKey entity = .dfsReplicationTask (repairTaskId item.receipt.chunk.id)) :
      item.full parts.replication = false ∧ entity = .dfsReplicationTask (item.task parts.replication) := by
    obtain ⟨other, hother, hcase⟩ := (h.put_mem (by rw [hkey]; rfl)).mp hput
    rcases hcase with rfl | ⟨copy, -, rfl⟩ | rfl | ⟨hfull, rfl⟩
    · cases hkey
    · cases hkey
    · cases hkey
    · have hchunk := repairTaskId_injective (MetaKey.dfsReplicationTask.inj hkey)
      rw [h.item_eq hother hitem hchunk] at hfull ⊢
      exact ⟨hfull, rfl⟩
  split
  · next hfull =>
    refine get_committed_of_no_put (fun entity hput hkey => ?_) (h.no_delete _)
    rw [(hsame hput hkey).1] at hfull
    cases hfull
  · next hfull =>
    have hput := (h.put_mem rfl).mpr ⟨item, hitem, .inr (.inr (.inr ⟨by simpa using hfull, rfl⟩))⟩
    exact get_committed_of_put (.dfsReplicationTask (item.task parts.replication)) hput
      (fun entity hput hkey => (hsame hput hkey).2) (h.no_delete _)

end

/-- Placements of other chunks stay. -/
theorem get_placement_of_other (hother : ∀ item ∈ parts.accepted, item.receipt.chunk.id ≠ chunkId) :
    (committed s txn).store.get (.dfsPlacement chunkId) = s.store.get (.dfsPlacement chunkId) := by
  refine get_committed_of_no_put (fun entity hput hkey => ?_) (h.no_delete _)
  obtain ⟨item, hitem, hcase⟩ := (h.put_mem (by rw [hkey]; rfl)).mp hput
  rcases hcase with rfl | ⟨copy, -, rfl⟩ | rfl | ⟨-, rfl⟩ <;> cases hkey
  exact hother item hitem rfl

theorem get_chunk_of_other (hother : ∀ item ∈ parts.accepted, item.receipt.chunk.id ≠ chunkId) :
    (committed s txn).store.get (.dfsChunk chunkId) = s.store.get (.dfsChunk chunkId) := by
  refine get_committed_of_no_put (fun entity hput hkey => ?_) (h.no_delete _)
  obtain ⟨item, hitem, hcase⟩ := (h.put_mem (by rw [hkey]; rfl)).mp hput
  rcases hcase with rfl | ⟨copy, -, rfl⟩ | rfl | ⟨-, rfl⟩ <;> cases hkey
  exact hother item hitem rfl

/-- A task is left as it is or made anew for a receipt. -/
theorem task_cases (id : ReplicationTaskId) :
    (committed s txn).store.get (.dfsReplicationTask id) = s.store.get (.dfsReplicationTask id) ∨
      ∃ item ∈ parts.accepted, item.full parts.replication = false ∧ id = repairTaskId item.receipt.chunk.id ∧
        (committed s txn).store.get (.dfsReplicationTask id) =
          some (.dfsReplicationTask (item.task parts.replication)) := by
  by_cases hitem : ∃ item ∈ parts.accepted, repairTaskId item.receipt.chunk.id = id
  · obtain ⟨item, hitem, rfl⟩ := hitem
    rw [h.get_task hitem]
    by_cases hfull : item.full parts.replication = true
    · exact .inl (if_pos hfull)
    · exact .inr ⟨item, hitem, by simpa using hfull, rfl, if_neg hfull⟩
  · refine .inl (get_committed_of_no_put (fun entity hput hkey => ?_) (h.no_delete _))
    obtain ⟨item, hmem, hcase⟩ := (h.put_mem (by rw [hkey]; rfl)).mp hput
    rcases hcase with rfl | ⟨copy, -, rfl⟩ | rfl | ⟨-, rfl⟩
    · cases hkey
    · cases hkey
    · cases hkey
    · exact hitem ⟨item, hmem, MetaKey.dfsReplicationTask.inj hkey⟩

theorem receipt_full (happlies : s.Applies txn outcome) (hitem : item ∈ parts.accepted) :
    receiptFull s item.receipt = item.full parts.replication := by
  have hmem : .entityEquals (.dfsReplicationConfig parts.replication) ∈ txn.conditions := by
    simp [h.txn, CommitParts.txn, commitTxn]
  have hconfig : s.store.get .dfsReplicationConfig = some (.dfsReplicationConfig parts.replication) :=
    happlies.entityEquals hmem
  simp [receiptFull, hconfig, AcceptedReceipt.full, h.checked.accepted.copies item hitem]

theorem all_receipts {check} (hall : parts.commit.chunkReceipts.all check = true)
    (hitem : item ∈ parts.accepted) : check item.receipt = true := by
  apply all_eq_true.mp hall _
  rw [← h.checked.accepted.receipts]
  exact mem_map_of_mem hitem

end IsCommit

/-! ## What a transaction does -/

/-- The task is open again, or still, and nobody works on it. -/
structure Reopens (task updated : ReplicationTask) : Prop where
  id : updated.id = task.id
  chunkId : updated.chunkId = task.chunkId
  placementEpoch : updated.placementEpoch = task.placementEpoch
  attempt : updated.attempt = task.attempt
  notCompleted : updated.state ≠ .completed
  notRunning : updated.state ≠ .running

/-- **What a transaction of the service does to the records of repair**, with the conditions it does so under. -/
inductive RepairCase (rely : Rely) (s : System) (txn : MetaTxn) : Request → Prop
  | untouched {r : Request}
      (h : ∀ key : MetaKey, key.ofRepair = true → (committed s txn).store.get key = s.store.get key) :
      RepairCase rely s txn r
  | commit {parts} {r : Request} (h : IsCommit s r txn parts)
      (hreceipts : ∀ receipt ∈ parts.commit.chunkReceipts, ReceiptChecked receipt) : RepairCase rely s txn r
  | setAside {request task updated condition placement health} (hlisted : ListedCandidate rely s task)
      (hcondition : TaskCondition task condition) (hstored : condition ∈ txn.conditions)
      (hplacement : .entityEquals (.dfsPlacement placement) ∈ txn.conditions)
      (hchunk : placement.chunkId = task.chunkId) (hupdated : Reopens task updated) (hhealth : health ≠ .satisfied)
      (hwrite : RepairWrite.IsOf ⟨[], some { placement with health }, some updated⟩ txn) :
      RepairCase rely s txn (.claimReplicationTask request)
  | claimed {request task selection}
      (hlisted : ListedCandidate rely s task) (hselected : Selected request task selection)
      (hconditions : ∀ condition ∈ selection.conditions, condition ∈ txn.conditions)
      (hrequest : txn.request = ⟨request.callerId, request.operationId.value⟩)
      (hwrite : RepairWrite.IsOf ⟨[], none, some selection.updated⟩ txn) :
      RepairCase rely s txn (.claimReplicationTask request)
  | sourceInvalid {request task updated placement source chunk health}
      (hchecked : ReportChecked request task placement chunk)
      (htask : .entityEquals (.dfsReplicationTask task) ∈ txn.conditions)
      (hplacement : .entityEquals (.dfsPlacement placement) ∈ txn.conditions)
      (hsource : .entityEquals (.dfsCopy source) ∈ txn.conditions) (hcopy : source.chunkId = request.claim.chunk.id)
      (hupdated : Reopens task updated) (hhealth : health ≠ .satisfied)
      (hwrite : RepairWrite.IsOf ⟨[{ source with state := .corrupt }], some { placement with health }, some updated⟩
        txn) : RepairCase rely s txn (.reportReplicationTask request)
  | retried {request task updated placement chunk} (hchecked : ReportChecked request task placement chunk)
      (htask : .entityEquals (.dfsReplicationTask task) ∈ txn.conditions) (hupdated : Reopens task updated)
      (hwrite : RepairWrite.IsOf ⟨[], none, some updated⟩ txn) : RepairCase rely s txn (.reportReplicationTask request)
  | completed {request task placement chunk} (hchecked : ReportChecked request task placement chunk)
      (htask : .entityEquals (.dfsReplicationTask task) ∈ txn.conditions)
      (hplacement : .entityEquals (.dfsPlacement placement) ∈ txn.conditions)
      (hchunk : .entityEquals (.dfsChunk chunk) ∈ txn.conditions) (hacks : RepairAcksChecked request)
      (hwrite : RepairWrite.IsOf ⟨repairedCopies request, some (repairedPlacement request placement),
        some (repairedTask request task placement)⟩ txn) : RepairCase rely s txn (.reportReplicationTask request)
  | corrupted {request placement} {observed : Option ReplicationTask} {copies : List CopyRecord} {health blocked now}
      (hchunk : placement.chunkId = request.chunkId)
      (hplacement : .entityEquals (.dfsPlacement placement) ∈ txn.conditions)
      (hobserved : (match observed with
        | some task => .entityEquals (.dfsReplicationTask task)
        | none => .missing (.dfsReplicationTask (repairTaskId request.chunkId))) ∈ txn.conditions)
      (hid : ∀ task, observed = some task → task.id = repairTaskId request.chunkId)
      (hcopies : ∀ copy ∈ copies, .entityEquals (.dfsCopy copy) ∈ txn.conditions ∧ copy.chunkId = request.chunkId)
      (hhealth : health ≠ .satisfied)
      (hwrite : RepairWrite.IsOf
        ⟨copies.map fun copy => { copy with state := .corrupt }, some { placement with health },
        some (corruptionTask request placement observed blocked now)⟩ txn) :
      RepairCase rely s txn (.reportChunkCorruption request)

variable {rely : Rely}

/-- A commit submits its own transaction or one that initializes the cluster. -/
theorem Issued.commit_case {callerId commit} (h : Issued service tick s (.commitFileVersion callerId commit) txn)
    (hreceipts : ∀ receipt ∈ commit.chunkReceipts, ReceiptChecked receipt) :
    RepairCase rely s txn (.commitFileVersion callerId commit) := by
  have hcase := h
  cases h with
  | namespaceRoot | replicationConfig =>
    exact .untouched fun _ => hcase.leaves_repair
      (by simp [initializeNamespaceTxn, replicationConfigTxn, entityKey, MetaKey.ofRepair])
  | @commit _ _ digest current lease replication accepted attributes hdigest hchecked =>
    have hcommit : IsCommit s (.commitFileVersion callerId commit) _
        ⟨callerId, commit, digest, current, lease, replication, accepted, attributes⟩ := ⟨rfl, rfl, hchecked⟩
    exact .commit hcommit hreceipts
  | newEntry hop | metadata hop => simp [Request.operation] at hop
  | remove hop => split at hop <;> cases hop
  | acquire hr => cases hr

theorem reportedCopy_chunk {request chunk}
    (h : isReportedCorrupt request chunk copy = true) : copy.chunkId = chunk.id := by
  unfold isReportedCorrupt reportedDeviceCopy at h
  split at h
  · split at h
    · next hcopy =>
      simp only [copyMatchesChunk, Bool.and_eq_true, decide_eq_true_eq] at hcopy
      exact hcopy.1.1.1.1.1.1
    · cases h
  · cases h

/-- The conditions and effects of what a claim or a report submits. -/
theorem RepairIssued.case (h : RepairIssued rely s r txn) (hissued : Issued service tick s r txn) :
    RepairCase rely s txn r := by
  cases h with
  | config r config =>
    exact .untouched fun _ => hissued.leaves_repair (by simp [replicationConfigTxn, entityKey, MetaKey.ofRepair])
  | commit hreceipts => exact hissued.commit_case hreceipts
  | blocked hlisted hplacement hcondition =>
    refine .setAside hlisted hcondition ?_ ?_ hplacement ?_ ?_ ⟨_, rfl⟩
    · simp [blockedTxn]
    · simp [blockedTxn]
    · exact ⟨rfl, rfl, rfl, rfl, by simp, by simp⟩
    · simp
  | waiting hlisted hplacement hstate hcondition =>
    refine .setAside hlisted hcondition ?_ ?_ hplacement ?_ ?_ ⟨_, rfl⟩
    · simp [waitingTxn]
    · simp [waitingTxn]
    · exact ⟨rfl, rfl, rfl, rfl, by simp [hstate], by simp [hstate]⟩
    · simp
  | claimed hlisted hselected =>
    refine .claimed hlisted hselected (fun condition hmem => ?_) rfl ⟨_, rfl⟩
    simp [claimTxn, hmem]
  | @report request digest task placement chunk source replication decision hchecked hdecision =>
    have htask : .entityEquals (.dfsReplicationTask task) ∈
        (reportTxn request digest task placement chunk source replication decision).conditions := by simp [reportTxn]
    have hplacement : .entityEquals (.dfsPlacement placement) ∈
        (reportTxn request digest task placement chunk source replication decision).conditions := by simp [reportTxn]
    cases hdecision with
    | sourceInvalid hsource hhealth hstate =>
      simp only [copyMatchesChunk, Bool.and_eq_true, decide_eq_true_eq] at hsource
      refine .sourceInvalid hchecked htask hplacement ?_ hsource.1.1 ?_ hhealth ⟨_, rfl⟩
      · simp [reportTxn]
      · refine ⟨rfl, rfl, rfl, rfl, ?_, ?_⟩ <;> rcases hstate with rfl | rfl <;> simp
    | retry error now =>
      refine .retried hchecked htask ?_ ⟨_, rfl⟩
      exact ⟨rfl, rfl, rfl, rfl, by simp [decideRetry], by simp [decideRetry]⟩
    | completed hacks =>
      exact .completed hchecked htask hplacement (by simp [reportTxn]) hacks
        (.of_append (append_assoc _ _ _))
  | @corruption request digest session chunk placement replication observed copies health blocked now hread hsome
      hhealth =>
    refine .corrupted hread.placementId (by simp [corruptionTxn, corruptionConditions]) ?_ hread.taskId
      (fun copy hmem => ?_) hhealth (.of_append rfl)
    · cases observed <;> simp [corruptionTxn, corruptionConditions]
    · obtain ⟨hcopy, hreported⟩ := mem_filter.mp hmem
      exact ⟨by simp [corruptionTxn, corruptionConditions, hcopy], hread.chunkId ▸ reportedCopy_chunk hreported⟩
  | corruptionEmpty =>
    exact .untouched fun _ => hissued.leaves_repair (by simp [emptyNamespaceTxn])

theorem Issued.repair_case (h : Issued service tick s r txn) (hrepair : r.repairs = true → RepairIssued rely s r txn) :
    RepairCase rely s txn r := by
  by_cases hr : r.repairs = true
  · exact (hrepair hr).case h
  · exact .untouched fun _ => h.leaves_repair (h.ofRepair_put (by simpa using hr))

end Afs
