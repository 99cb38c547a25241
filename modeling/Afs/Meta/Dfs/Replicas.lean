import Afs.Meta.Dfs.Layouts

/-!
# `Meta.Dfs.Replicas` — durable replicas and the placements that list them

The placement of a chunk lists its copies, and readers and repair find the copies through it. Claims, reports and
corruption reports compare the placement they change and keep its list. A commit does not: chunk ids come from the
content, so two files can have the same chunk, and the second commit writes a placement with the copies of its own
receipt only.

The record of a copy is put under its id whatever is stored there. An acknowledgement that arrives late overwrites the
record of a newer one, or brings back a copy that was found to be corrupt; and since the id is a text with colons
between its parts, it can be the id of another copy.

Under the condition `replicasCovered` of a run, that every commit acknowledges the copies already listed and that an
acknowledgement meets no record but that of an older one of the same copy, no copy is ever dropped, and its record
changes only as it should.
-/

namespace Afs

open Interaction Relation Cluster

variable {service : DfsService} {tick : Tick} {c c' : ServicePool}
  {s : System} {r : Request} {txn : MetaTxn} {outcome : RequestOutcome} {parts : CommitParts}

/-- The placement of the chunk lists the copy. -/
def Listed (store : StoreState) (chunkId : ChunkId) (copyId : CopyId) : Prop :=
  ∃ placement, store.get (.dfsPlacement chunkId) = some (.dfsPlacement placement) ∧ copyId ∈ placement.copies

/-- **The acknowledgement is a newer one of the same copy**: it is of the chunk, the node, its epoch, the device and its
    epoch that the record names, and has a later revision of the catalog of the device. -/
def CopyRecord.olderThan (copy : CopyRecord) (ack : ReplicaAck) (chunk : ChunkObject) : Bool :=
  match copy.location with
  | .node nodeId nodeEpoch deviceId deviceEpoch catalogRevision =>
    copy.chunkId = chunk.id && nodeId = ack.nodeId && nodeEpoch = ack.nodeEpoch && deviceId = ack.deviceId
      && deviceEpoch = ack.deviceEpoch && catalogRevision < ack.catalogRevision
  | .external .. => false

/-- How the record of a copy may change in one step: it becomes corrupt, or a newer acknowledgement of the same copy
    refreshes it. -/
inductive CopyChange (copy : CopyRecord) : CopyRecord → Prop
  | corrupt : CopyChange copy { copy with state := .corrupt }
  | refreshed (ack : ReplicaAck) (chunk : ChunkObject) (hnewer : copy.olderThan ack chunk = true) :
      CopyChange copy (replicaAckCopyRecord ack chunk)

/-- The copies that a receipt acknowledges. -/
def acknowledgedCopies (receipt : ChunkReceipt) : List CopyId :=
  receipt.durableAcks.map fun ack => (replicaAckCopyRecord ack receipt.chunk).id

/-- A commit is submitted only when each of its receipts acknowledges every copy that the placement of the chunk lists
    already. -/
def placementsCovered : RunCondition := fun r s op =>
  (match r, op with
    | .commitFileVersion _ commit, .commit _ =>
      commit.chunkReceipts.all fun receipt =>
        match s.store.get (.dfsPlacement receipt.chunk.id) with
        | some (.dfsPlacement placement) => placement.copies.all (· ∈ acknowledgedCopies receipt)
        | _ => true
    | _, _ => true) = true

instance (r : Request) (s : System) (op : StoreOp) : Decidable (placementsCovered r s op) :=
  inferInstanceAs (Decidable (_ = true))

/-- The acknowledgements that a request brings, each with its chunk. -/
def Request.acks : Request → List (ReplicaAck × ChunkObject)
  | .commitFileVersion _ commit => commit.chunkReceipts.flatMap fun receipt =>
    receipt.durableAcks.map (·, receipt.chunk)
  | .reportReplicationTask request => request.durableAcks.map (·, request.claim.chunk)
  | _ => []

/-- A request with acknowledgements is submitted only when the record stored under the id of each is the very record it
    makes, or that of an older acknowledgement of the same copy. -/
def copiesAdvance : RunCondition := fun r s op =>
  (match op with
    | .commit _ =>
      r.acks.all fun (ack, chunk) =>
        match s.store.get (.dfsCopy (replicaAckCopyRecord ack chunk).id) with
        | some (.dfsCopy copy) => copy = replicaAckCopyRecord ack chunk || copy.olderThan ack chunk
        | _ => true
    | _ => true) = true

instance (r : Request) (s : System) (op : StoreOp) : Decidable (copiesAdvance r s op) :=
  inferInstanceAs (Decidable (_ = true))

/-- **The condition of a run.** -/
def replicasCovered : RunCondition := fun r s op => placementsCovered r s op ∧ copiesAdvance r s op

instance (r : Request) (s : System) (op : StoreOp) : Decidable (replicasCovered r s op) :=
  inferInstanceAs (Decidable (_ ∧ _))

theorem IsCommit.acknowledged (h : IsCommit s r txn parts) (hcovered : placementsCovered r s (.commit txn))
    {item} (hitem : item ∈ parts.accepted) {placement}
    (hget : s.store.get (.dfsPlacement item.receipt.chunk.id) = some (.dfsPlacement placement)) {id}
    (hid : id ∈ placement.copies) : id ∈ item.copies.map (·.id) := by
  rw [h.request] at hcovered
  have hall := List.all_eq_true.mp hcovered item.receipt (h.receipt_mem hitem)
  rw [hget] at hall
  have hmem : id ∈ acknowledgedCopies item.receipt := of_decide_eq_true (List.all_eq_true.mp hall id hid)
  rw [h.checked.accepted.copies item hitem, List.map_map]
  exact hmem

variable {chunkId : ChunkId}

/-- Under the condition, no transaction drops a copy from a placement. -/
theorem Issued.listed_stays (h : Issued service tick s r txn) (happlies : s.Applies txn outcome)
    (hcovered : placementsCovered r s (.commit txn)) {copyId}
    (hlisted : Listed s.store chunkId copyId) : Listed (committed s txn).store chunkId copyId := by
  obtain ⟨placement, hget, hmem⟩ := hlisted
  obtain ⟨entity, hentity, rfl | ⟨hput, hkey⟩⟩ := h.stays (by simp) hget
  · exact ⟨placement, hentity, hmem⟩
  · cases h.writes hput with
    | @placement updated hwrite =>
      have hchunk : updated.chunkId = chunkId := MetaKey.dfsPlacement.inj hkey
      refine ⟨updated, hentity, ?_⟩
      cases hwrite with
      | committed hcommit hitem hid hcopies =>
        rw [hcopies]
        exact hcommit.acknowledged hcovered hitem (by rw [← hid, hchunk, hget]) hmem
      | kept compared hcond hid hcopies =>
        -- the placement it compared is the one that lists the copy
        have hstored := happlies.placementEquals hcond
        rw [← hid, hchunk, hget] at hstored
        cases hstored
        exact hcopies hmem
    | _ => cases hkey

/-- Under the condition, an acknowledgement leaves the record it finds as it is, or is a newer one of the same copy. -/
theorem copy_advances (hadvance : copiesAdvance r s (.commit txn)) {ack chunk}
    (hack : (ack, chunk) ∈ r.acks) {id} (hid : (replicaAckCopyRecord ack chunk).id = id) {copy}
    (hget : s.store.get (.dfsCopy id) = some (.dfsCopy copy)) :
    replicaAckCopyRecord ack chunk = copy ∨ CopyChange copy (replicaAckCopyRecord ack chunk) := by
  have hall := List.all_eq_true.mp hadvance _ hack
  simp only [hid, hget, Bool.or_eq_true, decide_eq_true_eq] at hall
  exact hall.imp Eq.symm (CopyChange.refreshed ack chunk)

/-- Under the condition, every transaction leaves a copy as it is, makes it corrupt, or refreshes it. -/
theorem Issued.copy_changes (h : Issued service tick s r txn) (happlies : s.Applies txn outcome)
    (hadvance : copiesAdvance r s (.commit txn)) {id copy} (hget : s.store.get (.dfsCopy id) = some (.dfsCopy copy)) :
    ∃ copy', (committed s txn).store.get (.dfsCopy id) = some (.dfsCopy copy') ∧
      (copy' = copy ∨ CopyChange copy copy') := by
  obtain ⟨entity, hentity, rfl | ⟨hput, hkey⟩⟩ := h.stays (by simp) hget
  · exact ⟨copy, hentity, .inl rfl⟩
  · cases h.writes hput with
    | @copy written hwrite =>
      have hid : written.id = id := MetaKey.dfsCopy.inj hkey
      refine ⟨written, hentity, ?_⟩
      cases hwrite with
      | @committed parts item _ hcommit hitem hcopy =>
        rw [hcommit.checked.accepted.copies item hitem] at hcopy
        obtain ⟨ack, hack, rfl⟩ := List.mem_map.mp hcopy
        refine copy_advances hadvance ?_ hid hget
        rw [hcommit.request]
        exact List.mem_flatMap.mpr ⟨item.receipt, hcommit.receipt_mem hitem, List.mem_map_of_mem hack⟩
      | @corrupted compared hcond =>
        have hstored : s.store.get (.dfsCopy compared.id) = some (.dfsCopy compared) := happlies.entityEquals hcond
        rw [show compared.id = id from hid, hget] at hstored
        cases hstored
        exact .inr .corrupt
      | repaired hr hack =>
        refine copy_advances hadvance ?_ hid hget
        rw [hr]
        exact List.mem_map_of_mem hack
    | _ => cases hkey

/-! ## Runs -/

/-- The copy is listed, and its record has come from `copy` by changes of that kind. -/
def StaysListed (store : StoreState) (chunkId : ChunkId) (copy : CopyRecord) : Prop :=
  Listed store chunkId copy.id ∧ ∃ copy', store.get (.dfsCopy copy.id) = some (.dfsCopy copy') ∧
    ReflTransGen CopyChange copy copy'

/-- **Durable replicas are not forgotten.** In every run in which each commit acknowledges the copies that the
    placements of its chunks list already, and an acknowledgement meets no other record than that of an older one of the
    same copy, a copy that is listed, ready or not, stays listed in every later state, and its record changes only by
    becoming corrupt or by newer acknowledgements of the same copy. -/
theorem durable_replicas_kept (h : Reachable service tick replicasCovered c)
    (hrun : ServiceRun service tick replicasCovered c c') {copy : CopyRecord}
    (hcopy : c.state.store.get (.dfsCopy copy.id) = some (.dfsCopy copy))
    (hlisted : Listed c.state.store chunkId copy.id) : StaysListed c'.state.store chunkId copy := by
  induction hrun with
  | refl => exact ⟨hlisted, copy, hcopy, .refl⟩
  | @tail d d' hbefore hstep ih =>
    obtain ⟨hlisted, copy', hget, hchanges⟩ := ih
    cases (h.run hbefore).step_cases hstep with
    | aside haside =>
      obtain ⟨placement, hplacement, hmem⟩ := hlisted
      exact ⟨⟨placement, by rw [haside.get _ rfl, hplacement], hmem⟩, copy', by rw [haside.get _ rfl, hget], hchanges⟩
    | applied _ _ _ _ _ hact hissued happlies hstate =>
      rw [hstate]
      obtain ⟨hplaced, hadvance⟩ := hact.state.1
      refine ⟨hissued.listed_stays happlies hplaced hlisted, ?_⟩
      obtain ⟨copy'', hget', hchange⟩ := hissued.copy_changes happlies hadvance hget
      refine ⟨copy'', hget', ?_⟩
      rcases hchange with rfl | hchange
      · exact hchanges
      · exact hchanges.tail hchange

/-- The copy of the chunk on the disk of a node of the cluster. -/
def Cluster.copy (node : String) : CopyRecord :=
  replicaAckCopyRecord ⟨⟨"commit"⟩, ⟨"chunk"⟩, 1, Cluster.placementEpoch node, node, 1, "disk", 1, 1, 8,
    ⟨.blake3, Vector.replicate 32 0⟩⟩ (Cluster.chunk 8)

/-- Whether the placement of a chunk lists a copy, as a computation. -/
def listsCopy (store : StoreState) (chunkId : ChunkId) (copyId : CopyId) : Bool :=
  match store.get (.dfsPlacement chunkId) with
  | some (.dfsPlacement placement) => placement.copies.contains copyId
  | _ => false

theorem listsCopy_iff {store copyId} : listsCopy store chunkId copyId = true ↔ Listed store chunkId copyId := by
  unfold listsCopy Listed
  split
  · next placement hget => simp [hget]
  · next hnone =>
    refine ⟨nofun, ?_⟩
    rintro ⟨placement, hget, -⟩
    exact absurd hget (hnone placement)

/-- One file with one chunk on the disk of its node. -/
def Cluster.oneFile : List Event := Cluster.setup ++ [Cluster.committing "a" 8]

/-- Removing the file keeps the copy of its chunk. -/
theorem durable_replicas_kept_after_unlink :
    StaysListed (playAll plainService (Cluster.oneFile ++ [Cluster.unlinking "a"])).state.store ⟨"chunk"⟩
      (Cluster.copy "a") := by
  have hreachable : Reachable plainService (fun _ _ => True) replicasCovered (playAll plainService oneFile) :=
    reachable_playAll (fun _ _ _ => trivial) (by decide +kernel)
  have hrun : ServiceRun plainService (fun _ _ => True) replicasCovered (playAll plainService oneFile)
      (playAll plainService (oneFile ++ [unlinking "a"])) :=
    run_playAll_append (fun _ _ _ => trivial) (by decide +kernel)
  exact durable_replicas_kept hreachable hrun (by decide +kernel) (listsCopy_iff.mp (by decide +kernel))

/-- A second file with the same chunk, committed from another node: the ready copy of the first is listed no more. -/
theorem equal_chunk_forgets_replica :
    Reachable plainService (fun _ _ => True) anyRun (playAll plainService Cluster.oneFile) ∧
      ServiceRun plainService (fun _ _ => True) anyRun (playAll plainService Cluster.oneFile)
        (playAll plainService (Cluster.oneFile ++ [Cluster.committing "b" 8])) ∧
      (playAll plainService Cluster.oneFile).state.store.get (.dfsCopy (Cluster.copy "a").id) =
        some (.dfsCopy (Cluster.copy "a")) ∧
      (Cluster.copy "a").state = .ready ∧
      Listed (playAll plainService Cluster.oneFile).state.store ⟨"chunk"⟩ (Cluster.copy "a").id ∧
      ¬Listed (playAll plainService (Cluster.oneFile ++ [Cluster.committing "b" 8])).state.store ⟨"chunk"⟩
        (Cluster.copy "a").id := by
  refine ⟨?_, ?_, by decide +kernel, rfl, listsCopy_iff.mp (by decide +kernel), fun hlisted => ?_⟩
  · exact reachable_playAll (fun _ _ _ => trivial) (scriptMeets_any _)
  · exact run_playAll_append (fun _ _ _ => trivial) (scriptMeets_any _)
  · exact absurd (listsCopy_iff.mpr hlisted) (by decide +kernel)

end Afs
