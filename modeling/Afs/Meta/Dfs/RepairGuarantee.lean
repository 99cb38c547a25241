import Afs.Meta.Dfs.RepairServes

/-!
# `Meta.Dfs.RepairGuarantee` — the repair requests submit what they owe

Only the claim makes use of what it relies on: it lists placements and tasks first, and what it decides at the end
rests on them. The repair requests put no inodes, so they are run with the replies of the store only.
`handle_observes` is the statement for all requests; `handle_serves` and `handle_repairs` are two sides of it, and
`service_sound` is the statement about all interleavings that the invariants of the service rest on.
-/

namespace Afs

open Interaction Relation List StoreState

variable {σ : Setting} {r : Request} {s : Seen} {α : Type} {post : α → Seen → Prop}

variable {e : Error} {q : MetaRead} {id : ChunkId} {replication : ReplicationConfig}
  {task : ReplicationTask} {request : ClaimReplicationTask} {session : NodeSession} {leaseSeconds now : UInt64}
  {digest : Digest} {placement : PlacementRecord} {tasks : List ReplicationTask}

/-! ## Lists of records -/

section

variable {s : System}

/-- The tasks of a listing. -/
theorem mem_listedTasks :
    task ∈ ((s.store.read s.clock .dfsReplicationTasks).entities.filterMap fun
        | .dfsReplicationTask task => some task
        | _ => none) ↔ s.store.get (.dfsReplicationTask task.id) = some (.dfsReplicationTask task) := by
  rw [mem_filterMap, ← mem_tasks]
  constructor
  · rintro ⟨entity, hmem, he⟩
    cases entity <;> cases he
    exact hmem
  · exact fun hmem => ⟨_, hmem, rfl⟩

/-- A new task counts its attempts on from the stored one. -/
theorem attempt_pendingTask
    (htasks : ∀ task, task ∈ tasks ↔ s.store.get (.dfsReplicationTask task.id) = some (.dfsReplicationTask task))
    {stored}
    (hstored : s.store.get (.dfsReplicationTask (repairTaskId placement.chunkId)) = some (.dfsReplicationTask stored)) :
    (pendingTask tasks placement now).attempt = stored.attempt := by
  have hid : stored.id = repairTaskId placement.chunkId := by
    simpa [entityKey] using entityKey_of_get hstored nofun
  have hmem : stored ∈ tasks := (htasks stored).mpr (hid ▸ hstored)
  obtain ⟨found, hfound⟩ :
    ∃ found, tasks.find? (fun task => task.id = repairTaskId placement.chunkId) = some found := by
    rw [← Option.isSome_iff_exists, find?_isSome]
    exact ⟨stored, hmem, by simpa using hid⟩
  have hfoundId : found.id = repairTaskId placement.chunkId := by simpa using find?_some hfound
  have hsame := (htasks found).mp (mem_of_find?_eq_some hfound)
  rw [hfoundId, hstored] at hsame
  cases hsame
  simp [pendingTask, hfound]

end

theorem ListedCandidate.later {s s'} (h : ListedCandidate σ.rely s task) (hs' : σ.rely s s') :
    ListedCandidate σ.rely s' task := by
  obtain ⟨s₁, s₂, h₁₂, h₂, hcandidate⟩ := h
  exact ⟨s₁, s₂, h₁₂, trans_of σ.rely h₂ hs', hcandidate⟩

/-! ## Parts of the requests -/

theorem observes_taskCondition {accepts} {post : Option TxnCondition → Seen → Prop}
    (haccepts : ∀ current, accepts current = true → current = task ∨ taskReactivatesCompleted task current = true)
    (h : ∀ found s₁, σ.Later s s₁ →
      (∀ condition, found = some condition → TaskCondition task condition) → post found s₁) :
    Observes σ r post (taskCondition task accepts) s := by
  apply safe_bind.mpr
  refine observes_read fun _ s₁ hs₁ _ _ => ?_
  split
  · next current he =>
    split
    · next hok =>
      refine h _ s₁ hs₁ fun condition hcondition => ?_
      cases hcondition
      rcases haccepts current hok with rfl | hreactivates
      · exact .same
      · simp only [taskReactivatesCompleted, Bool.and_eq_true, decide_eq_true_eq] at hreactivates
        obtain ⟨⟨⟨hid, hchunk⟩, hstate⟩, hpending⟩ := hreactivates
        exact .completed hid hchunk hstate hpending
    · exact h none s₁ hs₁ (by simp)
  · refine h _ s₁ hs₁ fun condition hcondition => ?_
    cases hcondition
    exact .missing
  · exact h none s₁ hs₁ (by simp)

/-- The candidates are the open tasks and new ones for some of the placements. -/
theorem observes_addPlacementCandidates (placements : List PlacementRecord) {candidates}
    {post : List ReplicationTask → Seen → Prop} (h : ∀ found s₁, σ.Later s s₁ →
      (∀ task ∈ found, task ∈ candidates ∨ ∃ placement ∈ placements, task = pendingTask tasks placement now) →
      post found s₁) :
    Observes σ r post (addPlacementCandidates tasks now placements candidates) s := by
  induction placements generalizing candidates s with
  | nil =>
    exact h candidates s (.refl s) fun task hmem => .inl hmem
  | cons placement placements ih =>
    apply safe_bind.mpr
    refine observes_readOnly (readOnly_placementIsHealthy _ _) fun healthy s₁ hs₁ => ?_
    have hskip : Observes σ r post (addPlacementCandidates tasks now placements candidates) s₁ := by
      refine ih fun found s₂ hs₂ hfound => h found s₂ (hs₁.trans hs₂) fun task hmem => ?_
      rcases hfound task hmem with hold | ⟨other, hother, he⟩
      · exact .inl hold
      · exact .inr ⟨other, mem_cons_of_mem _ hother, he⟩
    split
    · exact hskip
    · split
      · exact hskip
      · refine ih fun found s₂ hs₂ hfound => h found s₂ (hs₁.trans hs₂) fun task hmem => ?_
        rcases hfound task hmem with hold | ⟨other, hother, he⟩
        · rcases mem_append.mp hold with hold | hnew
          · exact .inl hold
          · exact .inr ⟨placement, mem_cons_self .., mem_singleton.mp hnew⟩
        · exact .inr ⟨other, mem_cons_of_mem _ hother, he⟩

theorem observes_tallyRepairAcks {claim} (acks : List ReplicaAck) {tally}
    {post : RepairTally → Seen → Prop} (hnodes : tally.nodes.Nodup)
    (h : ∀ found s₁, found.copies = tally.copies ++ acks.map (replicaAckCopyRecord · claim.chunk) →
      (∀ ack ∈ acks, ackProvesClaim claim ack = true) → (tally.nodes ++ acks.map (·.nodeId)).Nodup → post found s₁) :
    Observes σ r post (tallyRepairAcks claim now acks tally) s := by
  induction acks generalizing tally s with
  | nil =>
    exact h tally s (by simp) nofun (by simpa using hnodes)
  | cons ack acks ih =>
    unfold tallyRepairAcks
    simp only [safe_bind, safe_check, safe_require, decide_eq_true_eq]
    intro hproves hnew target _
    refine observes_readOnly (readOnly_currentSession _ _ _ _) fun session s₁ _ => ?_
    intro device _ _
    refine ih (nodup_concat hnodes hnew) fun found s₂ hcopies hall hnodup => ?_
    refine h found s₂ ?_ (forall_mem_cons.mpr ⟨hproves, hall⟩) (by simpa using hnodup)
    rw [hcopies]
    simp

theorem observes_decideReport {request source} {post : ReportDecision → Seen → Prop}
    (h : ∀ decision s₁, Decides request task placement source decision → post decision s₁) :
    Observes σ r post (decideReport request session task placement source now) s := by
  unfold decideReport
  split
  · unfold decideSourceInvalid
    simp only [safe_bind, safe_check, Bool.and_eq_true]
    rintro ⟨⟨-, hmatches⟩, -⟩
    refine observes_readOnly (readOnly_liveReadyCopyCountExcluding _ _ _) fun remaining s₁ _ => ?_
    refine h _ s₁ (.sourceInvalid hmatches ?_ ?_)
    · split <;> simp
    · split <;> simp
  · next hvalid =>
    split
    · exact h _ s (.retry _ _)
    · next hnone =>
      unfold decideCompleted validateRepairAcks
      simp only [safe_bind, safe_check, decide_eq_true_eq]
      intro henough
      refine observes_tallyRepairAcks _ nodup_nil fun tally s₁ hcopies hproves hnodes => ?_
      intro _ _
      apply h _ s₁
      rw [hcopies]
      exact .completed ⟨by simp [ReportReplicationTask.finished, hvalid, hnone], henough, hproves, hnodes⟩

/-- What a report decides to write is one of the three kinds of `Reported`. -/
theorem Decides.reported {request source decision}
    (h : Decides request task placement source decision) : Reported request placement source decision.mutations := by
  cases h with
  | sourceInvalid => exact .sourceInvalid _
  | retry => exact .retry
  | completed => exact .completed _ _ _

/-- A repair request submits what both descriptions say. -/
theorem observes_submit {txn} {post : TxnOutcome → Seen → Prop} (hinodes : r.leavesInodes = true)
    (hissued : ∀ s₁, σ.Later s s₁ →
      Issued σ.service σ.tick s₁.state r txn ∧ RepairIssued σ.rely s₁.state r txn)
    (hpost : ∀ reply s₁, post reply s₁) : Observes σ r post (storeCommit txn) s := by
  refine observes_commit (fun s₁ hs₁ => ?_) fun reply s₁ _ => hpost reply s₁
  obtain ⟨hissued, hrepair⟩ := hissued s₁ hs₁
  exact ⟨fun _ _ => hissued, fun _ _ => hrepair, fun hfalse => absurd (hinodes.symm.trans hfalse) nofun⟩

section Genuine

variable (hg : σ.genuine)

include hg

theorem observes_readStored {post : MetaSnapshot → Seen → Prop}
    (h : ∀ s₁, σ.Later s s₁ → post (s₁.state.store.read s₁.state.clock q) s₁) :
    Observes σ r post (storeRead q) s := by
  refine observes_read fun snapshot s₁ hs₁ hsnapshot _ => ?_
  rw [hsnapshot hg]
  exact h s₁ hs₁

/-! ## Single records -/

/-- Reading one record and keeping a part of it. -/
theorem observes_readRecord (key : MetaKey) {f : MetaSnapshot → Option α} (hq : MemoryState.readKey q = some key)
    (h : ∀ snapshot a s₁, σ.Later s s₁ → f snapshot = some a →
      (∀ entity, snapshot.entity = some entity → s₁.state.store.get key = some entity) → post a s₁) :
    Observes σ r post (do Prog.require (f (← storeRead q)) e) s := by
  simp only [safe_bind, safe_require]
  refine observes_readStored hg fun s₁ hs₁ => ?_
  intro a ha
  exact h _ a s₁ hs₁ ha fun entity he => get_of_read hq he

theorem observes_readPlacement {post : PlacementRecord → Seen → Prop}
    (h : ∀ placement s₁, σ.Later s s₁ → placement.chunkId = id → post placement s₁) :
    Observes σ r post (readPlacement id) s := by
  refine observes_readRecord hg (.dfsPlacement id) rfl fun snapshot placement s₁ hs₁ hplacement hget => ?_
  split at hplacement
  · next hentity =>
    cases hplacement
    have hkey := entityKey_of_get (hget _ hentity) (by simp)
    exact h placement s₁ hs₁ (MetaKey.dfsPlacement.inj hkey)
  · cases hplacement

theorem observes_readChunk {post : ChunkObject → Seen → Prop}
    (h : ∀ chunk s₁, σ.Later s s₁ → chunk.id = id → post chunk s₁) : Observes σ r post (readChunk id) s := by
  refine observes_readRecord hg (.dfsChunk id) rfl fun snapshot chunk s₁ hs₁ hchunk hget => ?_
  split at hchunk
  · next hentity =>
    cases hchunk
    have hkey := entityKey_of_get (hget _ hentity) (by simp)
    exact h chunk s₁ hs₁ (MetaKey.dfsChunk.inj hkey)
  · cases hchunk

theorem observes_readReplicationTask {id : ReplicationTaskId} {post : ReplicationTask → Seen → Prop}
    (h : ∀ task s₁, σ.Later s s₁ → task.id = id → post task s₁) : Observes σ r post (readReplicationTask id) s := by
  refine observes_readRecord hg (.dfsReplicationTask id) rfl fun snapshot task s₁ hs₁ htask hget => ?_
  split at htask
  · next hentity =>
    cases htask
    have hkey := entityKey_of_get (hget _ hentity) (by simp)
    exact h task s₁ hs₁ (MetaKey.dfsReplicationTask.inj hkey)
  · cases htask

/-- Copies are read under the ids they have. -/
theorem observes_readCopies {ids : List CopyId} {post : List CopyRecord → Seen → Prop}
    (h : ∀ copies s₁, copies.map (·.id) = ids → post copies s₁) : Observes σ r post (readCopies ids) s := by
  induction ids generalizing s post with
  | nil => exact h [] s rfl
  | cons id ids ih =>
    apply safe_bind.mpr
    refine observes_readRecord hg (.dfsCopy id) rfl fun snapshot copy s₁ _ hcopy hget => ?_
    split at hcopy
    · next hentity =>
      cases hcopy
      have hkey := entityKey_of_get (hget _ hentity) (by simp)
      refine safe_bind.mpr (ih fun copies s₂ hcopies => h _ s₂ ?_)
      rw [map_cons, hcopies, MetaKey.dfsCopy.inj hkey]
    · cases hcopy

theorem observes_observedRepairTask {post : Option ReplicationTask → Seen → Prop}
    (h : ∀ observed s₁, (∀ task, observed = some task → task.id = repairTaskId id) → post observed s₁) :
    Observes σ r post (observedRepairTask id) s := by
  apply safe_bind.mpr
  refine observes_readStored hg fun s₁ _ => ?_
  split
  · next task he =>
    refine h _ s₁ fun found hfound => ?_
    cases hfound
    simpa [entityKey] using entityKey_of_get (get_of_read rfl he) nofun
  · exact h none s₁ (by simp)
  · trivial

/-! ## Claims -/

theorem observes_buildReplicationClaim {post : Option ClaimSelection → Seen → Prop}
    (h : ∀ found s₁, σ.Later s s₁ →
      (∀ selection, found = some selection → Selected request task selection) → post found s₁) :
    Observes σ r post (buildReplicationClaim request session task replication leaseSeconds now) s := by
  apply safe_bind.mpr
  refine observes_readChunk hg fun chunk s₁ hs₁ hchunk => ?_
  have hnone {s' : Seen} (hs' : σ.Later s s') : post none s' := h none s' hs' (by simp)
  apply safe_bind.mpr
  refine observes_attempt (readOnly_readPlacement _) hs₁
    (observes_readPlacement hg fun placement s₂ hs₂ hplacement => ?_) fun e s₂ hs₂ => hnone hs₂
  have hs₂ := hs₁.trans hs₂
  show Observes σ r post (if _ then _ else _) s₂
  split
  · exact hnone hs₂
  · next hepoch =>
    apply safe_bind.mpr
    refine observes_readOnly (readOnly_findSource _ _ _ _ _) fun source s₃ hs₃ => ?_
    have hs₃ := hs₂.trans hs₃
    split
    · exact hnone hs₃
    · next source =>
      apply safe_bind.mpr
      refine observes_read fun _ s₄ hs₄ _ _ => ?_
      have hs₄ := hs₃.trans hs₄
      refine safe_bind.mpr (safe_lift.mpr ?_)
      intro group _
      split
      · exact hnone hs₄
      · unfold selectClaim
        apply safe_bind.mpr
        refine observes_taskCondition (fun current haccepts => by simpa using haccepts) fun found s₅ hs₅ hfound => ?_
        have hs₅ := hs₄.trans hs₅
        split
        · exact hnone hs₅
        · next condition =>
          refine h _ s₅ hs₅ fun selection hselection => ?_
          cases hselection
          refine ⟨rfl, rfl, rfl, rfl, hchunk, rfl, ⟨condition, by simp, hfound condition rfl⟩, placement, by simp,
            hplacement, ?_⟩
          exact not_not.mp hepoch

theorem observes_tryCandidate {retired} (hdigest : σ.service.Digests (.claimReplicationTask request) digest)
    (hlisted : ListedCandidate σ.rely s.state task)
    (hplacement : placement.chunkId = task.chunkId) {post : Option (Option ReplicationClaim) → Seen → Prop}
    (hsome : ∀ answer s₁, post (some answer) s₁) (hnone : ∀ s₁, σ.Later s s₁ → post none s₁) :
    Observes σ (.claimReplicationTask request) post
      (tryCandidate request digest session replication leaseSeconds now task retired placement) s := by
  apply safe_bind.mpr
  refine observes_readOnly (readOnly_liveReadyCopyCountExcluding _ _ _) fun count s₁ hs₁ => ?_
  split
  · split
    · apply safe_bind.mpr
      refine observes_taskCondition (fun current haccepts => by simpa using haccepts) fun found s₂ hs₂ hfound => ?_
      have hs₂ := hs₁.trans hs₂
      split
      · exact hnone s₂ hs₂
      · next condition =>
        simp only [safe_bind, safe_lift]
        refine observes_submit rfl (fun s₃ hs₃ => ⟨.blocked hdigest, ?_⟩) fun _ s₃ _ _ => hsome _ s₃
        exact .blocked (hlisted.later ((hs₂.trans hs₃).rely hg)) hplacement (hfound condition rfl)
    · exact hnone s₁ hs₁
  · apply safe_bind.mpr
    refine observes_buildReplicationClaim hg fun found s₂ hs₂ hselected => ?_
    have hs₂ := hs₁.trans hs₂
    split
    · next selection =>
      simp only [safe_bind, safe_lift]
      refine observes_submit rfl (fun s₃ hs₃ => ⟨.claimed hdigest, ?_⟩) fun _ s₃ _ _ => hsome _ s₃
      exact .claimed (hlisted.later ((hs₂.trans hs₃).rely hg)) (hselected selection rfl)
    · split
      · exact hnone s₂ hs₂
      · next hpending =>
        apply safe_bind.mpr
        refine observes_taskCondition (fun current haccepts => ?_) fun found s₃ hs₃ hfound => ?_
        · rw [Bool.or_eq_true, Bool.and_eq_true, decide_eq_true_eq] at haccepts
          exact haccepts.symm.imp And.left id
        have hs₃ := hs₂.trans hs₃
        split
        · exact hnone s₃ hs₃
        · next condition =>
          simp only [safe_bind, safe_lift]
          refine observes_submit rfl (fun s₄ hs₄ => ⟨.waiting hdigest, ?_⟩) fun _ s₄ _ _ => hsome _ s₄
          exact .waiting (hlisted.later ((hs₃.trans hs₄).rely hg)) hplacement (not_not.mp hpending)
            (hfound condition rfl)

theorem observes_claimFirst (hdigest : σ.service.Digests (.claimReplicationTask request) digest)
    (tasks : List ReplicationTask) (hlisted : ∀ task ∈ tasks, ListedCandidate σ.rely s.state task) :
    Fulfils σ (.claimReplicationTask request)
      (claimFirst request digest session replication leaseSeconds now tasks) s := by
  induction tasks generalizing s with
  | nil => trivial
  | cons task tasks ih =>
    have hnext {s' : Seen} (hs' : σ.Later s s') :
        Fulfils σ (.claimReplicationTask request)
          (claimFirst request digest session replication leaseSeconds now tasks) s' :=
      ih fun other hmem => (hlisted other (mem_cons_of_mem _ hmem)).later (hs'.rely hg)
    unfold claimFirst
    split
    · exact hnext (.refl s)
    · apply safe_bind.mpr
      refine observes_readOnly (readOnly_retiredWorkerConditions _ _) fun retired s₁ hs₁ => ?_
      split
      · exact hnext hs₁
      · apply safe_bind.mpr
        refine observes_attempt (readOnly_readPlacement _) hs₁
          (observes_readPlacement hg fun placement s₂ hs₂ hplacement => ?_) fun e s₂ hs₂ => hnext hs₂
        have hs₂ := hs₁.trans hs₂
        show Observes σ _ _ (tryCandidate _ _ _ _ _ _ _ _ _ >>= _) s₂
        apply safe_bind.mpr
        refine observes_tryCandidate hg hdigest ((hlisted task (mem_cons_self ..)).later (hs₂.rely hg)) hplacement
          (fun _ _ => trivial) fun s₃ hs₃ => hnext (hs₂.trans hs₃)

theorem observes_claimReplicationTask (request : ClaimReplicationTask) (s : Seen) :
    Fulfils σ (.claimReplicationTask request) (claimReplicationTask σ.service request) s := by
  unfold claimReplicationTask
  simp only [safe_bind, safe_lift, safe_check]
  intro digest hdigest _ _ _ _ _ _ _
  refine observes_replayOr (readOnly_replayedReplicationClaim _ _ _ _) fun s₁ => ?_
  simp only [safe_bind, safe_check]
  refine observes_readOnly readOnly_now fun now s₂ _ => ?_
  refine observes_readOnly (readOnly_currentSession _ _ _ _) fun session s₃ _ => ?_
  intro _
  refine observes_currentReplicationConfig fun replication s₄ _ => ?_
  refine observes_readStored hg fun s₅ _ => observes_readStored hg fun s₆ hs₆ => ?_
  refine observes_addPlacementCandidates _ fun candidates s₇ hs₇ hcandidates => ?_
  refine observes_claimFirst hg hdigest _ fun task htask => ⟨s₅.state, s₆.state, hs₆.rely hg, hs₇.rely hg, ?_⟩
  rw [sortTasks, mem_insertionSort] at htask
  rcases hcandidates task htask with hopen | ⟨placement, hplacement, rfl⟩
  · rw [sortTasks, mem_insertionSort, mem_filter] at hopen
    exact .listed (mem_listedTasks.mp hopen.1) (by simpa using hopen.2)
  · obtain ⟨entity, hmem, he⟩ := mem_filterMap.mp hplacement
    cases entity <;> cases he
    obtain ⟨key, hget⟩ := exists_get_of_mem_entities hmem
    exact .added (get_entityKey hget (by simp)) rfl rfl rfl rfl fun stored hstored =>
      attempt_pendingTask (fun task => mem_listedTasks) hstored

/-! ## Reports -/

theorem observes_reportReplicationTask (request : ReportReplicationTask) (s : Seen) :
    Fulfils σ (.reportReplicationTask request) (reportReplicationTask σ.service request) s := by
  unfold reportReplicationTask
  simp only [safe_bind, safe_lift, safe_check]
  intro digest hdigest _ _ _ _ _ _ _
  refine observes_replayOr (readOnly_replayedReplicationTask _ _ _ _) fun s₁ => ?_
  simp only [safe_bind, safe_check, safe_lift, decide_eq_true_eq, Bool.and_eq_true]
  refine observes_readOnly readOnly_now fun now s₂ _ => ?_
  refine observes_readOnly (readOnly_currentSession _ _ _ _) fun session s₃ _ => ?_
  refine observes_readReplicationTask hg fun task s₄ _ hid => ?_
  rintro ⟨hstate, hclaim⟩ _
  refine observes_readPlacement hg fun placement s₅ _ hplacement => ?_
  refine observes_readOnly (readOnly_readChunk _) fun chunk s₆ _ => ?_
  intro hchunk
  refine observes_readOnly (readOnly_readCopy _) fun source s₇ _ => ?_
  refine observes_currentReplicationConfig fun replication s₈ _ => ?_
  refine observes_decideReport fun decision s₉ hdecision => ?_
  refine observes_submit rfl (fun _ _ => ⟨.report hdigest hchunk hplacement hdecision.reported, ?_⟩)
    fun _ _ _ _ => trivial
  exact .report ⟨hid, hstate, hclaim, hchunk, hplacement⟩ hdecision

theorem observes_reportChunkCorruption (request : ReportChunkCorruption) (s : Seen) :
    Fulfils σ (.reportChunkCorruption request) (reportChunkCorruption σ.service request) s := by
  unfold reportChunkCorruption
  simp only [safe_bind, safe_lift, safe_check]
  intro digest hdigest _ _ _ _ _ _ _ _ _ _ _ _ _
  refine observes_readOnly (readOnly_replayedNamespaceResult _ _ _ _) fun found s₁ _ => ?_
  split
  · trivial
  simp only [safe_bind, safe_check]
  refine observes_readOnly readOnly_now fun now s₂ _ => ?_
  refine observes_readOnly (readOnly_currentSession _ _ _ _) fun session s₃ _ => ?_
  intro _
  refine observes_readChunk hg fun chunk s₄ _ hchunk => observes_readPlacement hg fun placement s₅ _ hplacement => ?_
  refine observes_currentReplicationConfig fun replication s₆ _ => ?_
  refine observes_observedRepairTask hg fun observed s₇ hobserved => ?_
  refine observes_readCopies hg fun copies s₈ hcopies => ?_
  have hread : CorruptionRead request chunk placement observed copies := ⟨hchunk, hplacement, hobserved, hcopies⟩
  intro _
  refine observes_readOnly (readOnly_liveObservedNodes _ _ _ _) fun nodes s₉ _ => ?_
  split
  · next hnone =>
    simp only [safe_bind, safe_check, safe_lift]
    intro _
    exact observes_submit rfl (fun _ _ => ⟨.corruptionEmpty hdigest, .corruptionEmpty hread hnone⟩)
      fun _ _ _ _ => trivial
  · next hsome =>
    simp only [safe_bind, safe_lift]
    refine observes_submit rfl (fun _ _ => ⟨.corruption hdigest ?_ ?_, .corruption hread (by simpa using hsome) ?_⟩)
      fun _ _ _ _ => trivial
    · simp [corruptionConditions]
    · intro copy hcopy
      have hmem : copy ∈ copies := (mem_filter.mp hcopy).1
      simp [corruptionConditions, hmem]
    · split <;> simp

end Genuine

/-! ## All requests -/

/-- **Every request submits what it owes.** Repair requests owe nothing for other replies than those of the store. -/
theorem handle_observes (σ : Setting) (r : Request) (hr : σ.genuine ∨ r.leavesInodes = false) (s : Seen) :
    Fulfils σ r (handle σ.service r) s := by
  cases r with
  | create request => exact safe_bind.mpr ((observes_create request s).mono fun _ _ _ => trivial)
  | mkdir request => exact (observes_mkdir request s).map _
  | mknod request => exact (observes_mknod request s).map _
  | symlink request => exact (observes_symlink request s).map _
  | link request => exact (observes_link request s).map _
  | unlink request => exact (observes_removeNamespaceEntry request false rfl rfl rfl rfl s).map _
  | rmdir request => exact (observes_removeNamespaceEntry _ true rfl rfl rfl rfl s).map _
  | rename request => exact (observes_rename request s).map _
  | setInodeAttributes request => exact (observes_setInodeAttributes request s).map _
  | setXattr request => exact (observes_setXattr request s).map _
  | removeXattr request => exact (observes_removeXattr request s).map _
  | acquireWriteLease request => exact (observes_acquireWriteLease rfl rfl rfl rfl s).map _
  | openWrite request => exact (observes_openWrite request s).map _
  | resolveAuthority request context => exact (observes_resolveFreshWriteAuthority request context s).map _
  | renewWriteLease request => exact (observes_renewWriteLease request s).map _
  | syncInodeMetadata callerId sync => exact (observes_syncInodeMetadata callerId sync s).map _
  | commitFileVersion callerId commit => exact (observes_commitFileVersion callerId commit s).map _
  | claimReplicationTask request => exact (observes_claimReplicationTask (hr.resolve_right nofun) request s).map _
  | reportReplicationTask request => exact (observes_reportReplicationTask (hr.resolve_right nofun) request s).map _
  | reportChunkCorruption request => exact (observes_reportChunkCorruption (hr.resolve_right nofun) request s).map _
  | initializeReplicationConfig => exact safe_bind.mpr (observes_initializeReplicationConfig fun _ _ => trivial)

/-- **Every request submits only what `Issued` says.** -/
theorem handle_serves (service : DfsService) (tick : Tick) (r : Request) (s : System) :
    Serves service tick r (fun _ _ => True) (handle service r) s := by
  have hpreorder : IsPreorder System (Evolves tick) := { refl := .refl, trans := fun _ _ _ h h' => h.trans h' }
  refine Observed.safe (s := ⟨s, ∅⟩) (fun _ op _ _ howed => ?_)
    (handle_observes ⟨service, tick, Evolves tick, hpreorder, True⟩ r (.inl trivial) _)
  cases op with
  | commit txn => exact Owed.issued howed trivial fun _ _ h => h
  | _ => trivial

/-- **Every request submits what `RepairIssued` says.** -/
theorem handle_repairs {rely} (hrefl : ∀ s, rely s s)
    (htrans : ∀ s₁ s₂ s₃, rely s₁ s₂ → rely s₂ s₃ → rely s₁ s₃) (service : DfsService) (r : Request) (s : System) :
    Repairs rely r (fun _ _ => True) (handle service r) s := by
  have hpreorder : IsPreorder System rely := { refl := hrefl, trans := htrans }
  refine Observed.safe (s := ⟨s, ∅⟩) (fun _ op _ _ howed => ?_)
    (handle_observes ⟨service, fun _ _ => True, rely, hpreorder, True⟩ r (.inl trivial) _)
  cases op with
  | commit txn => exact Owed.repair howed trivial
  | _ => trivial

/-- The parts of the service fit together: what each request guarantees, the others rely on. -/
theorem service_sound (service : DfsService) (tick : Tick) (condition : RunCondition) :
    Sound (served condition) (EnvStep tick) (handle service) (Evolves tick) (guarantee service tick)
      (fun _ _ _ => True) where
  refl := .refl
  trans _ _ _ h h' := h.trans h'
  env_rely _ _ h := h.evolves
  guar_rely _ _ _ _ _ h hguar := evolves_of_guarantee h.2 hguar
  safe r s := (handle_serves service tick r s).mono_step fun _ _ _ _ h => h.2

end Afs
