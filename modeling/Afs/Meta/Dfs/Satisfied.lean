import Afs.Lib.Format
import Afs.Meta.Dfs.RepairEffects
import Afs.Meta.Dfs.Replicas

/-!
# `Meta.Dfs.Satisfied` — satisfied placements are really replicated

A placement that is `satisfied` lists enough ready replicas on different nodes. Commits and finished repairs write such
a placement together with the copies that were acknowledged; whoever marks a copy corrupt takes the `satisfied` away in
the same transaction. The records of copies are found by their ids alone, and an id is made of node, epoch, device and
chunk with colons between them, so copies of different chunks can get the same id. The condition `copiesApart` of a run
is that this does not happen.
-/

namespace Afs

open Interaction Relation List Cluster

variable {service : DfsService} {tick : Tick} {c : ServicePool} {s : System} {r : Request}
  {txn : MetaTxn} {outcome : RequestOutcome} {rely : Rely}

variable {copy : CopyRecord} {placement : PlacementRecord} {chunk : ChunkObject} {store : StoreState}
  {parts : CommitParts} {item : AcceptedReceipt}

/-- **Ready durable replicas of a chunk**, as many as the placement desires, on different nodes. -/
structure ReplicaSet (store : StoreState) (placement : PlacementRecord) (chunk : ChunkObject)
    (copies : List CopyRecord) : Prop where
  enough : placement.desiredCopies.toNat ≤ copies.length
  listed : ∀ copy ∈ copies, copy.id ∈ placement.copies
  stored : ∀ copy ∈ copies, store.get (.dfsCopy copy.id) = some (.dfsCopy copy)
  durable : ∀ copy ∈ copies, copy.role = .durableReplica ∧ copy.state = .ready
  replicas : ∀ copy ∈ copies, copyMatchesChunk copy chunk = true
  nodes : ∃ nodes : List String, nodes.Nodup ∧ copies.map (·.location.nodeId?) = nodes.map some

/-- Every satisfied placement has them. -/
def SatisfiedReplicated (store : StoreState) : Prop :=
  ∀ chunkId placement, store.get (.dfsPlacement chunkId) = some (.dfsPlacement placement) →
    placement.health = .satisfied →
    ∃ chunk copies, store.get (.dfsChunk chunkId) = some (.dfsChunk chunk) ∧ ReplicaSet store placement chunk copies

/-! ## The condition -/

/-- The copies that the receipt acknowledges. -/
def receiptCopies (receipt : ChunkReceipt) : List CopyRecord :=
  receipt.durableAcks.map (replicaAckCopyRecord · receipt.chunk)

/-- The copies that a request acknowledges. -/
def Request.acknowledged : Request → List CopyRecord
  | .commitFileVersion _ commit => commit.chunkReceipts.flatMap receiptCopies
  | .reportReplicationTask request => if request.finished then repairedCopies request else []
  | _ => []

/-- The acknowledged copies have different ids, and none of them has the id of a stored copy of another chunk. -/
def copiesApart (s : System) (r : Request) : Bool :=
  decide (r.acknowledged.map (·.id)).Nodup && r.acknowledged.all fun copy =>
    match s.store.get (.dfsCopy copy.id) with
    | some (.dfsCopy stored) => stored.chunkId = copy.chunkId
    | _ => true

/-- **The condition of a run**: so it is whenever a transaction of the request takes effect. -/
def keepsCopiesApart : StepCondition := onEffect fun c r _ => copiesApart c.state r = true

theorem chunkId_of_apart (h : copiesApart s r = true) {stored} (hcopy : copy ∈ r.acknowledged)
    (hstored : s.store.get (.dfsCopy copy.id) = some (.dfsCopy stored)) : stored.chunkId = copy.chunkId := by
  simp only [copiesApart, Bool.and_eq_true, all_eq_true] at h
  have hall := h.2 copy hcopy
  rw [hstored] at hall
  exact of_decide_eq_true hall

theorem nodup_of_apart (h : copiesApart s r = true) : (r.acknowledged.map (·.id)).Nodup := by
  simp only [copiesApart, Bool.and_eq_true, decide_eq_true_eq] at h
  exact h.1

/-! ## Replicas that stay -/

theorem SatisfiedReplicated.of_same {s' : System} (h : SatisfiedReplicated s.store)
    (hsame : ∀ key : MetaKey, key.ofRepair = true → s'.store.get key = s.store.get key) :
    SatisfiedReplicated s'.store := by
  intro chunkId placement hget hsatisfied
  rw [hsame _ rfl] at hget
  obtain ⟨chunk, copies, hchunk, hset⟩ := h chunkId placement hget hsatisfied
  exact ⟨chunk, copies, by rw [hsame _ rfl, hchunk],
    { hset with stored := fun copy hcopy => by rw [hsame _ rfl, hset.stored copy hcopy] }⟩

/-- The copies of a chunk stay if only copies of other chunks are written. -/
theorem ReplicaSet.keep {copies} (h : ReplicaSet s.store placement chunk copies)
    (hputs : ∀ copy stored, .put (.dfsCopy copy) ∈ txn.mutations →
      s.store.get (.dfsCopy copy.id) = some (.dfsCopy stored) → stored.chunkId ≠ chunk.id)
    (hdelete : ∀ key, .delete key ∉ txn.mutations) : ReplicaSet (committed s txn).store placement chunk copies := by
  refine { h with stored := fun copy hcopy => ?_ }
  rw [← h.stored copy hcopy]
  refine get_committed_of_no_put (fun entity hput hkey => ?_) (hdelete _)
  cases entity with
  | dfsCopy written =>
    have hid : written.id = copy.id := MetaKey.dfsCopy.inj hkey
    have hchunk := h.replicas copy hcopy
    simp only [copyMatchesChunk, Bool.and_eq_true, decide_eq_true_eq] at hchunk
    exact hputs written copy hput (by rw [hid, h.stored copy hcopy]) hchunk.1.1
  | _ => cases hkey

/-- A claim or a report that leaves no satisfied placement, and writes copies of its own chunk only. -/
theorem SatisfiedReplicated.write (h : SatisfiedReplicated s.store) {w : RepairWrite} (hwrite : w.IsOf txn)
    (hhealth : ∀ placement, w.placement = some placement → placement.health ≠ .satisfied)
    (hcopies : ∀ copy ∈ w.copies, ∃ stored placement, s.store.get (.dfsCopy copy.id) = some (.dfsCopy stored) ∧
      w.placement = some placement ∧ stored.chunkId = placement.chunkId) :
    SatisfiedReplicated (committed s txn).store := by
  intro chunkId placement hget hsatisfied
  rw [hwrite.get_placement] at hget
  split at hget
  · obtain ⟨written, hwritten, he⟩ := Option.map_eq_some_iff.mp hget
    cases he
    exact absurd hsatisfied (hhealth _ hwritten)
  · next hne =>
    obtain ⟨chunk, copies, hchunk, hset⟩ := h chunkId placement hget hsatisfied
    refine ⟨chunk, copies, by rw [hwrite.get_chunk, hchunk], hset.keep ?_ hwrite.no_delete⟩
    intro copy stored hput hstored he
    rcases hwrite.put_mem.mp hput with ⟨copy', hcopy, hce⟩ | ⟨_, -, hce⟩ | ⟨_, -, hce⟩ <;> cases hce
    obtain ⟨stored', written, hstored', hwritten, hid⟩ := hcopies copy hcopy
    cases hstored.symm.trans hstored'
    have hown : chunk.id = chunkId := by simpa [entityKey] using StoreState.entityKey_of_get hchunk nofun
    exact hne (by rw [hwritten, Option.map_some, ← hid, he, hown])

/-! ## New replicas -/

/-- Acknowledgements of a chunk by different nodes are a replica set once their copies are stored. -/
theorem replicaSet_of_acks {acks : List ReplicaAck} (henough : placement.desiredCopies.toNat ≤ acks.length)
    (hproves : ∀ ack ∈ acks, ack.persistedBytes = chunk.length ∧ ack.verifiedDigest = chunk.contentDigest)
    (hnodes : (acks.map (·.nodeId)).Nodup)
    (hlisted : ∀ copy ∈ acks.map (replicaAckCopyRecord · chunk), copy.id ∈ placement.copies)
    (hstored : ∀ copy ∈ acks.map (replicaAckCopyRecord · chunk),
      store.get (.dfsCopy copy.id) = some (.dfsCopy copy)) :
    ReplicaSet store placement chunk (acks.map (replicaAckCopyRecord · chunk)) where
  enough := by rwa [length_map]
  listed := hlisted
  stored := hstored
  durable copy hcopy := by
    obtain ⟨ack, -, rfl⟩ := mem_map.mp hcopy
    exact ⟨rfl, rfl⟩
  replicas copy hcopy := by
    obtain ⟨ack, hack, rfl⟩ := mem_map.mp hcopy
    simp [copyMatchesChunk, replicaAckCopyRecord, hproves ack hack]
  nodes := ⟨acks.map (·.nodeId), hnodes, by simp [replicaAckCopyRecord, CopyLocation.nodeId?]⟩

/-- The copies of an accepted receipt are among those the request acknowledges. -/
theorem IsCommit.copy_acknowledged (h : IsCommit s r txn parts) (hitem : item ∈ parts.accepted)
    (hcopy : copy ∈ item.copies) : copy ∈ r.acknowledged := by
  rw [h.request, Request.acknowledged, mem_flatMap]
  refine ⟨item.receipt, ?_, ?_⟩
  · rw [← h.checked.accepted.receipts]
    exact mem_map_of_mem hitem
  · rw [h.checked.accepted.copies item hitem] at hcopy
    exact hcopy

theorem IsCommit.copy_chunkId (h : IsCommit s r txn parts) (hitem : item ∈ parts.accepted)
    (hcopy : copy ∈ item.copies) : copy.chunkId = item.receipt.chunk.id := by
  rw [h.checked.accepted.copies item hitem] at hcopy
  obtain ⟨ack, -, rfl⟩ := mem_map.mp hcopy
  rfl

/-- The acknowledged copies are stored as they are acknowledged. -/
theorem IsCommit.get_copy (h : IsCommit s r txn parts) (hapart : copiesApart s r = true) (hitem : item ∈ parts.accepted)
    (hcopy : copy ∈ item.copies) : (committed s txn).store.get (.dfsCopy copy.id) = some (.dfsCopy copy) := by
  refine get_committed_of_put (.dfsCopy copy)
    ((h.put_mem rfl).mpr ⟨item, hitem, .inr (.inl ⟨copy, hcopy, rfl⟩)⟩) ?_ (h.no_delete _)
  intro entity hput hkey
  obtain ⟨other, hother, hcase⟩ := (h.put_mem (by rw [hkey]; rfl)).mp hput
  rcases hcase with rfl | ⟨written, hwritten, rfl⟩ | rfl | ⟨-, rfl⟩
  · cases hkey
  · have hsame := inj_on_of_nodup_map (nodup_of_apart hapart) (h.copy_acknowledged hother hwritten)
      (h.copy_acknowledged hitem hcopy) (MetaKey.dfsCopy.inj hkey)
    rw [hsame]
  · cases hkey
  · cases hkey

theorem SatisfiedReplicated.commit (h : SatisfiedReplicated s.store) {parts : CommitParts}
    (hcommit : IsCommit s r txn parts) (hreceipts : ∀ receipt ∈ parts.commit.chunkReceipts, ReceiptChecked receipt)
    (hapart : copiesApart s r = true) : SatisfiedReplicated (committed s txn).store := by
  intro chunkId placement hget hsatisfied
  by_cases hitem : ∃ item ∈ parts.accepted, item.receipt.chunk.id = chunkId
  · -- the placement is new, and so are its copies
    obtain ⟨item, hitem, rfl⟩ := hitem
    rw [hcommit.get_placement hitem, Option.some.injEq, MetaEntity.dfsPlacement.injEq] at hget
    subst hget
    have hfull : item.full parts.replication = true := by
      by_contra hnot
      simp [AcceptedReceipt.placement, hnot] at hsatisfied
    have hcopies := hcommit.checked.accepted.copies item hitem
    have hchecked : ReceiptChecked item.receipt := by
      apply hreceipts _
      rw [← hcommit.checked.accepted.receipts]
      exact mem_map_of_mem hitem
    refine ⟨item.receipt.chunk, _, hcommit.get_chunk hitem,
      replicaSet_of_acks ?_ ?_ hchecked.nodes ?_ ?_⟩
    · simpa [AcceptedReceipt.full, AcceptedReceipt.placement, hcopies] using hfull
    · intro ack hack
      have hproves := hchecked.proves ack hack
      simp only [ackProves, Bool.and_eq_true, decide_eq_true_eq] at hproves
      exact ⟨hproves.1.2, hproves.2⟩
    · rw [← hcopies]
      exact fun copy hcopy => mem_map_of_mem hcopy
    · rw [← hcopies]
      exact fun copy hcopy => hcommit.get_copy hapart hitem hcopy
  · have hother : ∀ item ∈ parts.accepted, item.receipt.chunk.id ≠ chunkId := fun item hmem he => hitem ⟨item, hmem, he⟩
    rw [hcommit.get_placement_of_other hother] at hget
    obtain ⟨chunk, copies, hchunk, hset⟩ := h chunkId placement hget hsatisfied
    have hown : chunk.id = chunkId := by simpa [entityKey] using StoreState.entityKey_of_get hchunk (by simp)
    refine ⟨chunk, copies, by rw [hcommit.get_chunk_of_other hother, hchunk], hset.keep ?_ hcommit.no_delete⟩
    intro copy stored hput hstored he
    obtain ⟨item, hmem, hcase⟩ := (hcommit.put_mem rfl).mp hput
    rcases hcase with hce | ⟨copy', hcopy, hce⟩ | hce | ⟨-, hce⟩ <;> cases hce
    have hchunk := chunkId_of_apart hapart (hcommit.copy_acknowledged hmem hcopy) hstored
    exact hother item hmem (by rw [← hcommit.copy_chunkId hmem hcopy, ← hchunk, he, hown])

theorem mem_mergeCopies {copies accepted} (h : copy ∈ accepted) : copy.id ∈ mergeCopies copies accepted := by
  unfold mergeCopies
  induction accepted generalizing copies with
  | nil => cases h
  | cons first rest ih =>
    rw [foldl_cons]
    rcases mem_cons.mp h with rfl | hrest
    · apply subset_mergeCopies _ rest
      split
      · next hmem => exact hmem
      · exact mem_append_right _ (mem_singleton_self _)
    · exact ih hrest

theorem SatisfiedReplicated.completed (h : SatisfiedReplicated s.store) {request : ReportReplicationTask}
    {task : ReplicationTask} {placement : PlacementRecord} {chunk : ChunkObject}
    (hchecked : ReportChecked request task placement chunk)
    (hchunk : s.store.get (.dfsChunk chunk.id) = some (.dfsChunk chunk)) (hacks : RepairAcksChecked request)
    (hwrite : RepairWrite.IsOf ⟨repairedCopies request, some (repairedPlacement request placement),
      some (repairedTask request task placement)⟩ txn)
    (hapart : copiesApart s (.reportReplicationTask request) = true) :
    SatisfiedReplicated (committed s txn).store := by
  have hacknowledged : (Request.reportReplicationTask request).acknowledged = repairedCopies request := by
    simp [Request.acknowledged, hacks.finished]
  have hids := nodup_of_apart hapart
  rw [hacknowledged] at hids
  intro chunkId found hget hsatisfied
  rw [hwrite.get_placement] at hget
  simp only [Option.map_some, Option.some.injEq] at hget
  split at hget
  · next hid =>
    obtain rfl := MetaEntity.dfsPlacement.inj (Option.some.inj hget)
    have hown : chunkId = chunk.id := by rw [← hid, hchecked.chunk, ← hchecked.placement]; rfl
    subst hown
    refine ⟨chunk, repairedCopies request, by rw [hwrite.get_chunk, hchunk], ?_⟩
    rw [hchecked.chunk]
    refine replicaSet_of_acks hacks.enough ?_ hacks.nodes ?_ ?_
    · intro ack hack
      have hproves := hacks.proves ack hack
      simp only [ackProvesClaim, Bool.and_eq_true, decide_eq_true_eq] at hproves
      exact ⟨hproves.1.2, hproves.2⟩
    · exact fun copy hcopy => mem_mergeCopies hcopy
    · exact fun copy hcopy => hwrite.get_copy_of_mem hids hcopy
  · next hne =>
    obtain ⟨chunk', copies, hchunk', hset⟩ := h chunkId found hget hsatisfied
    refine ⟨chunk', copies, by rw [hwrite.get_chunk, hchunk'], hset.keep ?_ hwrite.no_delete⟩
    intro copy stored hput hstored he
    rcases hwrite.put_mem.mp hput with ⟨copy', hcopy, hce⟩ | ⟨_, -, hce⟩ | ⟨_, -, hce⟩ <;> cases hce
    have hsame := chunkId_of_apart hapart (hacknowledged ▸ hcopy) hstored
    obtain ⟨ack, -, rfl⟩ := mem_map.mp hcopy
    have hown : chunk'.id = chunkId := by simpa [entityKey] using StoreState.entityKey_of_get hchunk' nofun
    exact hne (by rw [← hown, ← he, hsame, replicaAckCopyRecord, ← hchecked.placement]; rfl)

/-- **One transaction.** -/
theorem RepairCase.satisfiedReplicated (hcase : RepairCase rely s txn r)
    (happlies : s.Applies txn outcome) (hapart : copiesApart s r = true)
    (h : SatisfiedReplicated s.store) : SatisfiedReplicated (committed s txn).store := by
  cases hcase with
  | untouched hsame => exact h.of_same hsame
  | commit hcommit hreceipts => exact h.commit hcommit hreceipts hapart
  | setAside _ _ _ _ _ _ hhealth hwrite =>
    exact h.write hwrite (by simpa using hhealth) (by simp)
  | claimed _ _ _ _ hwrite => exact h.write hwrite (by simp) (by simp)
  | @sourceInvalid request task updated placement source chunk health hchecked htask hplacement hsource hcopy hupdated
      hhealth hwrite =>
    refine h.write hwrite (by simpa using hhealth) fun copy hmem => ?_
    rw [mem_singleton] at hmem
    subst hmem
    exact ⟨source, _, happlies.entityEquals hsource, rfl, hcopy.trans hchecked.placement.symm⟩
  | retried _ _ _ hwrite => exact h.write hwrite (by simp) (by simp)
  | completed hchecked _ _ hchunk hacks hwrite =>
    exact h.completed hchecked (happlies.entityEquals hchunk) hacks hwrite hapart
  | corrupted hchunk _ _ _ hcopies hhealth hwrite =>
    refine h.write hwrite (by simpa using hhealth) fun copy hmem => ?_
    obtain ⟨original, horiginal, rfl⟩ := mem_map.mp hmem
    obtain ⟨hequals, hcopy⟩ := hcopies original horiginal
    exact ⟨original, _, happlies.entityEquals hequals, rfl, hcopy.trans hchunk.symm⟩

/-! ## Runs -/

/-- **Satisfied placements are really replicated.** In every run in which no acknowledged copy has the id of another
    acknowledged copy or of a stored copy of another chunk, a satisfied placement lists at least the desired number of
    copies that are stored, ready, durable replicas of its chunk on pairwise different nodes. -/
theorem satisfied_placements_replicated (h : ReachableUnder service tick keepsCopiesApart c) :
    SatisfiedReplicated c.state.store := by
  refine (h.invariant (I := fun s => SatisfiedReplicated s.store) reliable_trivial ?_ ?_ ?_).2
  · intro clock chunkId placement hget
    cases hget
  · exact fun s s' haside hi => hi.of_same fun _ => haside.get_ofRepair
  · intro c c' i r txn hcondition hi heffect hissued hrepair
    obtain ⟨outcome, happlies⟩ := heffect.applies
    rw [heffect.state]
    exact ⟨(hissued.repair_case hrepair).satisfiedReplicated happlies (hcondition i r txn heffect) hi, fun _ => trivial⟩

/-- A file is committed with a copy on each of two nodes. -/
def Pair.twoCopies : List Event :=
  [register "a", register "b", .request .initializeReplicationConfig, Pair.creating "a",
    Pair.committing "a" ["a", "b"] ["a", "b"]]

/-- The placement of its chunk is satisfied, and rightly so. -/
theorem satisfied_placements_replicated_one_file :
    (∃ placement, (playAll pairService Pair.twoCopies).state.store.get (.dfsPlacement ⟨"chunk"⟩) =
      some (.dfsPlacement placement) ∧ placement.health = .satisfied ∧ placement.desiredCopies = 2) ∧
      SatisfiedReplicated (playAll pairService Pair.twoCopies).state.store := by
  have hreachable : ReachableUnder pairService (fun _ _ => True) keepsCopiesApart
      (playAll pairService Pair.twoCopies) :=
    reachableUnder_playAll (Q := fun r s _ => copiesApart s r = true) (fun _ _ _ _ _ _ _ h => h)
      (fun _ _ _ => trivial) (by decide +kernel)
  refine ⟨⟨⟨⟨"chunk"⟩, ⟨"group:" ++ hex16 (Pair.placementEpoch ["a", "b"])⟩, Pair.placementEpoch ["a", "b"], 2,
    [(copy "a").id, (copy "b").id], .satisfied⟩, by decide +kernel, rfl, rfl⟩, ?_⟩
  exact satisfied_placements_replicated hreachable

/-! ## Ids that clash -/

/-- The first commit of the node's file, with a chunk of another name. -/
def Cluster.commitOf (node : String) (chunkId : ChunkId) : CommitFileVersion :=
  let commit := Cluster.commit node 8
  { commit with
    layoutRoot := { commit.layoutRoot with inlineExtents := [⟨0, 8, chunkId, 0⟩] }
    chunkReceipts := commit.chunkReceipts.map fun receipt =>
      { receipt with
        chunk := { receipt.chunk with id := chunkId }
        durableAcks := receipt.durableAcks.map fun ack => { ack with chunkId } } }

/-- Two nodes commit a chunk each, and the copies get the same id: `a:1:disk:1:disk:chunk`. -/
def Cluster.sameCopyId : List Event :=
  [register "a", register "a:1:disk", .request .initializeReplicationConfig, .request (.create (create "a" 1)),
    .request (.create (create "a:1:disk" 1)), .request (.commitFileVersion "a" (commitOf "a" ⟨"1:disk:chunk"⟩)),
    .request (.commitFileVersion "a:1:disk" (commitOf "a:1:disk" ⟨"chunk"⟩))]

/-- The placement of the chunk is satisfied, and all the copies it lists are of other chunks. -/
def listsForeignCopies (store : StoreState) (chunkId : ChunkId) : Bool :=
  match store.get (.dfsPlacement chunkId) with
  | some (.dfsPlacement placement) =>
    placement.health = .satisfied && placement.desiredCopies ≠ 0 && placement.copies.all fun id =>
      match store.get (.dfsCopy id) with
      | some (.dfsCopy copy) => copy.chunkId ≠ chunkId
      | _ => false
  | _ => false

theorem not_replicated_of_foreign {chunkId} (h : listsForeignCopies store chunkId = true) :
    ¬SatisfiedReplicated store := by
  intro hreplicated
  unfold listsForeignCopies at h
  split at h
  · next placement hget =>
    simp only [ne_eq, decide_not, Bool.and_eq_true, decide_eq_true_eq, Bool.not_eq_true', decide_eq_false_iff_not,
      all_eq_true] at h
    obtain ⟨⟨hsatisfied, hdesired⟩, hforeign⟩ := h
    obtain ⟨chunk, copies, hchunk, hset⟩ := hreplicated chunkId placement hget hsatisfied
    have hown : chunk.id = chunkId := by simpa [entityKey] using StoreState.entityKey_of_get hchunk nofun
    have hpos : 0 < copies.length := by
      refine Nat.lt_of_lt_of_le (Nat.pos_of_ne_zero fun hzero => hdesired ?_) hset.enough
      exact UInt16.toNat_inj.mp hzero
    obtain ⟨copy, hcopy⟩ := exists_mem_of_length_pos hpos
    have hother := hforeign copy.id (hset.listed copy hcopy)
    rw [hset.stored copy hcopy] at hother
    have hmatches := hset.replicas copy hcopy
    simp only [copyMatchesChunk, Bool.and_eq_true, decide_eq_true_eq] at hmatches
    simp [hmatches.1.1, hown] at hother
  · cases h

/-- **Copies of two chunks with one id.** Each chunk has a single copy, acknowledged by one node; the second commit
    overwrites the record of the first chunk's copy, and the placement of the first chunk stays satisfied. -/
theorem same_copy_id_overwrites_replica :
    Reachable plainService (fun _ _ => True) anyRun (playAll plainService Cluster.sameCopyId) ∧
      copyId "a" 1 "disk" ⟨"1:disk:chunk"⟩ = copyId "a:1:disk" 1 "disk" ⟨"chunk"⟩ ∧
      listsForeignCopies (playAll plainService Cluster.sameCopyId).state.store ⟨"1:disk:chunk"⟩ = true ∧
      ¬SatisfiedReplicated (playAll plainService Cluster.sameCopyId).state.store := by
  have hforeign : listsForeignCopies (playAll plainService sameCopyId).state.store ⟨"1:disk:chunk"⟩ = true := by
    decide +kernel
  refine ⟨?_, by decide +kernel, hforeign, not_replicated_of_foreign hforeign⟩
  exact reachable_playAll (fun _ _ _ => trivial) (scriptMeets_any _)

/-! ## Identities of copies -/

/-- The number of colons in an identifier. -/
def colons (id : String) : Nat := id.toList.count ':'

/-- Two tuples with equally many colons in their nodes and in their devices have different identities if they differ. -/
theorem copyId_inj {nodeId nodeId' deviceId deviceId' epoch epoch' chunkId chunkId'}
    (hnode : colons nodeId = colons nodeId') (hdevice : colons deviceId = colons deviceId')
    (hid : copyId nodeId epoch deviceId chunkId = copyId nodeId' epoch' deviceId' chunkId') :
    nodeId = nodeId' ∧ epoch = epoch' ∧ deviceId = deviceId' ∧ chunkId = chunkId' := by
  have hlist := congrArg (fun id => String.toList id.value) hid
  simp only [copyId, String.toList_append, append_assoc] at hlist
  -- the parts are split off one after the other, each at the colon that its own colons leave
  obtain ⟨hnode, hlist⟩ := Format.append_cons_inj hnode hlist
  have hdigits (n : Nat) : (toString n).toList.count ':' = 0 := Format.count_toString rfl n
  obtain ⟨hepoch, hlist⟩ := Format.append_cons_inj ((hdigits _).trans (hdigits _).symm) hlist
  obtain ⟨hdevice, hchunk⟩ := Format.append_cons_inj hdevice hlist
  refine ⟨String.toList_injective hnode,
    UInt64.toNat_inj.mp (Format.toString_injective (String.toList_injective hepoch)),
    String.toList_injective hdevice, ?_⟩
  cases chunkId
  cases chunkId'
  exact congrArg _ (String.toList_injective hchunk)

/-- An identifier with the given number of colons: ones with a colon between each two. -/
def ones : Nat → List Char
  | 0 => ['1']
  | n + 1 => '1' :: ':' :: ones n

theorem ones_append (n k : Nat) : ones n ++ ':' :: ones k = ones (n + k + 1) := by
  induction n with
  | zero =>
    rw [Nat.zero_add]
    rfl
  | succ n ih =>
    rw [Nat.add_right_comm n 1 k]
    exact congrArg (fun rest => '1' :: ':' :: rest) ih

theorem colons_ones (n : Nat) : colons (String.ofList (ones n)) = n := by
  rw [colons, String.toList_ofList]
  induction n with
  | zero => rfl
  | succ n ih => simp [ones, ih]

/-- An identity made of ones has many readings. -/
theorem copyId_ones (node device chunk : Nat) :
    copyId (String.ofList (ones node)) 1 (String.ofList (ones device)) ⟨String.ofList (ones chunk)⟩ =
      ⟨String.ofList (ones (node + device + chunk + 3))⟩ := by
  have hlist : ones node ++ ':' :: (ones 0 ++ ':' :: (ones device ++ ':' :: ones chunk)) =
      ones (node + device + chunk + 3) := by
    rw [ones_append, ones_append, ones_append]
    congr 1
    omega
  refine congrArg CopyId.mk (String.toList_injective ?_)
  rw [String.toList_ofList, ← hlist]
  simp only [String.toList_append, String.toList_ofList, append_assoc]
  rfl

/-- **The identity of a copy determines its node, epoch, device and chunk** among tuples with given numbers of colons in
    nodes and devices exactly if the numbers are the same. -/
theorem copyId_injective_iff (inNode inDevice inNode' inDevice' : Nat) :
    (∀ nodeId nodeId' deviceId deviceId' : String, ∀ epoch epoch' : UInt64, ∀ chunkId chunkId' : ChunkId,
      colons nodeId = inNode → colons deviceId = inDevice → colons nodeId' = inNode' → colons deviceId' = inDevice' →
      copyId nodeId epoch deviceId chunkId = copyId nodeId' epoch' deviceId' chunkId' →
      nodeId = nodeId' ∧ epoch = epoch' ∧ deviceId = deviceId' ∧ chunkId = chunkId') ↔
    inNode = inNode' ∧ inDevice = inDevice' := by
  constructor
  · intro hinj
    have hid : copyId (String.ofList (ones inNode)) 1 (String.ofList (ones inDevice))
          ⟨String.ofList (ones (inNode' + inDevice'))⟩ =
        copyId (String.ofList (ones inNode')) 1 (String.ofList (ones inDevice'))
          ⟨String.ofList (ones (inNode + inDevice))⟩ := by
      rw [copyId_ones, copyId_ones, Nat.add_comm (inNode + inDevice)]
    obtain ⟨hnode, -, hdevice, -⟩ := hinj _ _ _ _ _ _ _ _ (colons_ones _) (colons_ones _) (colons_ones _)
      (colons_ones _) hid
    constructor
    · rw [← colons_ones inNode, hnode, colons_ones]
    · rw [← colons_ones inDevice, hdevice, colons_ones]
  · rintro ⟨rfl, rfl⟩ nodeId nodeId' deviceId deviceId' epoch epoch' chunkId chunkId' hnode hdevice hnode' hdevice' hid
    exact copyId_inj (hnode.trans hnode'.symm) (hdevice.trans hdevice'.symm) hid

/-- The node that the record of a copy names. -/
def holder (store : StoreState) (id : CopyId) : Option String :=
  match store.get (.dfsCopy id) with
  | some (.dfsCopy { location := .node nodeId _ _ _ _, .. }) => some nodeId
  | _ => none

/-- The commit of the second node takes the record of the copy of the first. -/
theorem copy_record_taken_over :
    let id := copyId "a" 1 "disk" ⟨"1:disk:chunk"⟩
    id = copyId "a:1:disk" 1 "disk" ⟨"chunk"⟩ ∧
      holder (playAll plainService (Cluster.sameCopyId.take 6)).state.store id = some "a" ∧
      holder (playAll plainService Cluster.sameCopyId).state.store id = some "a:1:disk" := by
  decide +kernel

end Afs
