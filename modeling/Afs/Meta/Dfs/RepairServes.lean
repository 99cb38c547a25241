import Afs.Meta.Dfs.FileServes

/-!
# `Meta.Dfs.RepairServes` — what the repair requests read

Claims and reports read many records before they submit, one after the other, in loops over the copies of a chunk. None
of these helpers submits anything (`ReadOnly`), so that what a request submits is what its last lines build. The loops
are followed by induction on the list that they walk.
-/

namespace Afs

open Interaction Relation

theorem readOnly_currentLiveSession (nodeId : String) (now : UInt64) : ReadOnly (currentLiveSession nodeId now) :=
  readOnly_bind (readOnly_read _) fun _ => readOnly_require _ _

theorem readOnly_currentSession (nodeId : String) (epoch : UInt64) (sessionId : Option String) (now : UInt64) :
    ReadOnly (currentSession nodeId epoch sessionId now) :=
  readOnly_bind (readOnly_currentLiveSession _ _) fun _ => readOnly_bind (readOnly_check _ _) fun _ =>
    readOnly_pure _

theorem readOnly_readChunk (id : ChunkId) : ReadOnly (readChunk id) :=
  readOnly_bind (readOnly_read _) fun _ => readOnly_require _ _

theorem readOnly_readCopy (id : CopyId) : ReadOnly (readCopy id) :=
  readOnly_bind (readOnly_read _) fun _ => readOnly_require _ _

theorem readOnly_readPlacement (id : ChunkId) : ReadOnly (readPlacement id) :=
  readOnly_bind (readOnly_read _) fun _ => readOnly_require _ _

/-- The loop goes on whatever it finds about a copy, and with or without another node. -/
theorem readOnly_liveReadyNodes (chunk : ChunkObject) (now : UInt64) (excluded : Option CopyId)
    (copyIds : List CopyId) (nodes : List String) : ReadOnly (liveReadyNodes chunk now excluded copyIds nodes) := by
  induction copyIds generalizing nodes with
  | nil => trivial
  | cons _ _ ih =>
    unfold liveReadyNodes
    split
    · exact ih nodes
    · refine readOnly_bind (readOnly_readCopy _) fun copy => ?_
      split
      · split
        · refine readOnly_bind (readOnly_attempt (readOnly_currentLiveSession _ _)) fun found => ?_
          split
          · split <;> exact ih _
          · exact ih _
        · exact ih _
      · exact ih _

theorem readOnly_liveReadyCopyCountExcluding (placement : PlacementRecord) (now : UInt64)
    (excluded : Option CopyId) : ReadOnly (liveReadyCopyCountExcluding placement now excluded) :=
  readOnly_bind (readOnly_readChunk _) fun _ => readOnly_bind (readOnly_liveReadyNodes _ _ _ _ _) fun _ =>
    readOnly_pure _

/-- A failure ends the loop, unless the session is only not current. -/
theorem readOnly_liveObservedNodes (now : UInt64) (excluded : List CopyId) (copies : List CopyRecord)
    (nodes : List String) : ReadOnly (liveObservedNodes now excluded copies nodes) := by
  induction copies generalizing nodes with
  | nil => trivial
  | cons copy copies ih =>
    unfold liveObservedNodes
    split
    · exact ih nodes
    · split
      · exact ih nodes
      · refine readOnly_bind (readOnly_attempt (readOnly_currentLiveSession _ _)) fun found => ?_
        split
        · split <;> exact ih _
        · split
          · exact ih _
          · trivial

/-- Only a placement that counts as satisfied is counted again. -/
theorem readOnly_placementIsHealthy (placement : PlacementRecord) (now : UInt64) :
    ReadOnly (placementIsHealthy placement now) := by
  unfold placementIsHealthy
  split
  · exact readOnly_bind (readOnly_liveReadyCopyCountExcluding _ _ _) fun _ => readOnly_pure _
  · trivial

/-- Whether the worker of a claim is still there is read from its session. -/
theorem readOnly_retiredWorkerConditions (task : ReplicationTask) (now : UInt64) :
    ReadOnly (retiredWorkerConditions task now) := by
  unfold retiredWorkerConditions
  split
  · trivial
  · split
    · refine readOnly_bind (readOnly_read _) fun snapshot => ?_
      split
      · split <;> trivial
      · trivial
      · trivial
    · trivial

/-- The first copy that can be read from. -/
theorem readOnly_findSource (chunk : ChunkObject) (session : NodeSession) (callerId : String) (now : UInt64)
    (copyIds : List CopyId) : ReadOnly (findSource chunk session callerId now copyIds) := by
  induction copyIds with
  | nil => trivial
  | cons _ _ ih =>
    unfold findSource
    refine readOnly_bind (readOnly_readCopy _) fun copy => ?_
    split
    · trivial
    · exact ih

section

variable (callerId : String) (operationId : OperationId) (operation : StoreOperation) (digest : Digest)

/-- A retried claim is answered from its record. -/
theorem readOnly_replayedReplicationClaim :
    ReadOnly (replayedReplicationClaim callerId operationId operation digest) := by
  refine readOnly_bind (readOnly_replayedOutcome _ _ _) fun found => ?_
  split
  · trivial
  · exact readOnly_bind (readOnly_check _ _) fun _ => readOnly_pure _
  · trivial

theorem readOnly_replayedReplicationTask :
    ReadOnly (replayedReplicationTask callerId operationId operation digest) := by
  refine readOnly_bind (readOnly_replayedOutcome _ _ _) fun found => ?_
  split
  · trivial
  · refine readOnly_bind (readOnly_check _ _) fun _ => ?_
    split <;> trivial
  · trivial
  · trivial

end

end Afs
