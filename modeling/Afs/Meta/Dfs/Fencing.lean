import Afs.Meta.Dfs.RepairEffects
import Afs.Meta.Dfs.ReplicaWrite

/-!
# `Meta.Dfs.Fencing` — the fences of repair claims

The fence of a claim is the attempt counter of its task, and a claim counts the counter up. Fences grow from claim to
claim as long as nobody turns the counter back. A commit with missing copies does: it writes a new task with the counter
at zero over the old one. A claim that was made from a listing may too, when it writes the listed task over one that was
claimed again and completed since; and the counter stops at its largest value. The condition `keepsCounters` of a run
excludes the three.

That a claim which is not the current one any more never becomes current again does not depend on fences: only the
claim's own request writes it into the task, and that request is recorded.
-/

namespace Afs

open Interaction Relation

variable {service : DfsService} {tick : Tick} {c c' : ServicePool} {s s' : System} {r : Request}
  {txn : MetaTxn} {outcome : RequestOutcome} {rely : Rely}

variable {request : ClaimReplicationTask} {id : ReplicationTaskId} {task : ReplicationTask} {selection : ClaimSelection}

/-- The claim has been issued: it is the recorded result of its request. -/
def ClaimIssued (s : System) (claim : ReplicationClaim) : Prop :=
  ∃ digest, s.store.outcome ⟨claim.workerNodeId, claim.operationId.value⟩ =
    some (claimOutcome ⟨claim.workerNodeId, claim.operationId.value⟩ digest (some claim))

/-- The claim is the running claim of its task. -/
def ClaimCurrent (s : System) (claim : ReplicationClaim) : Prop :=
  ∃ task, s.store.get (.dfsReplicationTask claim.taskId) = some (.dfsReplicationTask task) ∧ task.state = .running ∧
    task.claim = some claim

/-! ## Which transactions issue a claim -/

theorem Issued.claims_of_operation (h : Issued service tick s r txn) (hop : txn.operation = .dfsClaimReplicationTask) :
    ∃ request, r = .claimReplicationTask request := by
  cases h with
  | newEntry hmem | metadata hmem =>
    rw [show r.operation = _ from hop] at hmem
    simp at hmem
  | remove hmem =>
    rw [show r.operation = _ from hop] at hmem
    split at hmem <;> cases hmem
  | rename => simp [renameTxn, renameEntriesTxn] at hop
  | blocked | waiting | claimed => exact ⟨_, rfl⟩
  | _ => cases hop

/-- **A claim that is issued in a transaction** is the one its request selected. -/
theorem Issued.new_claim (h : Issued service tick s r txn) (hrepair : r.repairs = true → RepairIssued rely s r txn)
    {claim} (hafter : ClaimIssued (committed s txn) claim) :
    ClaimIssued s claim ∨ ∃ request task selection, r = .claimReplicationTask request ∧ selection.claim = claim ∧
      ListedCandidate rely s task ∧ Selected request task selection ∧
      (∀ condition ∈ selection.conditions, condition ∈ txn.conditions) ∧
      RepairWrite.IsOf ⟨[], none, some selection.updated⟩ txn := by
  obtain ⟨digest, houtcome⟩ := hafter
  have hcases : (s.store.applyMutations txn.mutations).outcome ⟨claim.workerNodeId, claim.operationId.value⟩ =
      s.store.outcome ⟨claim.workerNodeId, claim.operationId.value⟩ ∨ ∃ outcome,
        .recordRequestOutcome outcome ∈ txn.mutations ∧
        (s.store.applyMutations txn.mutations).outcome ⟨claim.workerNodeId, claim.operationId.value⟩ = some outcome :=
    MemoryState.outcome_applyMutations_cases
  rcases hcases with hsame | ⟨recorded, hmem, hrecorded⟩
  · exact Or.inl ⟨digest, hsame ▸ houtcome⟩
  apply Or.inr
  have hown : recorded.operation = txn.operation := by
    cases h.writes hmem
    rfl
  have he : recorded = _ := Option.some.inj (hrecorded.symm.trans houtcome)
  rw [he] at hown hmem
  have hop : txn.operation = .dfsClaimReplicationTask := hown.symm
  obtain ⟨request, rfl⟩ := h.claims_of_operation hop
  cases hrepair rfl with
  | config => cases hop
  | blocked => simp [blockedTxn, claimOutcome] at hmem
  | waiting => simp [waitingTxn, claimOutcome] at hmem
  | @claimed _ _ _ _ task selection hlisted hselected =>
    refine ⟨request, task, selection, rfl, ?_, hlisted, hselected, fun condition hcondition => ?_, ⟨_, rfl⟩⟩
    · simp only [claimTxn, claimOutcome, List.mem_cons, reduceCtorEq, TxnMutation.recordRequestOutcome.injEq,
        RequestOutcome.mk.injEq, OperationResult.dfsReplicationClaim.injEq, Option.some.injEq,
        List.not_mem_nil, or_false,
        false_or] at hmem
      exact hmem.2.2.2.symm
    · simp [claimTxn, hcondition]

/-! ## Claims that are not current any more -/

theorem ClaimIssued.stays (h : ClaimIssued s claim) (hevolves : Evolves tick s s') : ClaimIssued s' claim := by
  obtain ⟨digest, houtcome⟩ := h
  exact ⟨digest, hevolves.outcomes _ _ houtcome⟩

/-- A claim becomes current by its own request only, which is recorded with it. -/
theorem RepairCase.current_before (hcase : RepairCase rely s txn r) (happlies : s.Applies txn outcome)
    {claim} (hclaim : ClaimIssued s claim) (hafter : ClaimCurrent (committed s txn) claim) : ClaimCurrent s claim := by
  obtain ⟨task, hget, hstate, hof⟩ := hafter
  have hwritten {w : RepairWrite} (hwrite : w.IsOf txn) (hnot : ∀ updated, w.task = some updated →
      updated.state = .running → updated.claim = some claim → False) : ClaimCurrent s claim := by
    rw [hwrite.get_task] at hget
    split at hget
    · obtain ⟨updated, hupdated, he⟩ := Option.map_eq_some_iff.mp hget
      cases he
      exact (hnot _ hupdated hstate hof).elim
    · exact ⟨task, hget, hstate, hof⟩
  cases hcase with
  | untouched hsame => exact ⟨task, by rw [← hsame _ rfl, hget], hstate, hof⟩
  | commit hcommit =>
    rcases hcommit.task_cases claim.taskId with hsame | ⟨item, -, -, -, hnew⟩
    · exact ⟨task, by rw [← hsame, hget], hstate, hof⟩
    · rw [hnew] at hget
      cases hget
      cases hstate
  | setAside _ _ _ _ _ hupdated _ hwrite | sourceInvalid _ _ _ _ _ hupdated _ hwrite | retried _ _ hupdated hwrite =>
    refine hwritten hwrite fun updated he hrunning _ => ?_
    cases he
    exact hupdated.notRunning hrunning
  | claimed _ hselected _ hrequest hwrite =>
    -- the claim would be issued anew, but its request has an outcome already
    refine hwritten hwrite fun updated he _ hsame => ?_
    cases he
    rw [hselected.updated] at hsame
    cases hsame
    obtain ⟨digest, hrecorded⟩ := hclaim
    have hfresh := happlies.fresh
    rw [hrequest, ← hselected.workerNodeId, ← hselected.operationId, hrecorded] at hfresh
    cases hfresh
  | completed _ _ _ _ _ hwrite =>
    refine hwritten hwrite fun updated he hrunning _ => ?_
    cases he
    cases hrunning
  | corrupted _ _ _ _ _ _ hwrite =>
    refine hwritten hwrite fun updated he _ hsame => ?_
    cases he
    cases hsame

section

variable (h : Reachable service tick anyRun c)

include h

/-- What repair requests submit in any run, with nothing to rely on. -/
theorem Reachable.repairCalm : RepairCalm (fun _ _ => True) c :=
  (h.reachableUnder.invariant (I := fun _ => True) reliable_trivial
    (fun _ => trivial) (fun _ _ _ _ => trivial) fun _ _ _ _ _ _ _ _ _ _ => ⟨trivial, fun _ => trivial⟩).1

theorem Reachable.repair_step_cases
    (hstep : ServiceStep service tick anyRun c c') : RepairStepCase service tick (fun _ _ => True) c c' :=
  h.repairCalm.step_cases reliable_trivial h hstep

/-- **A claim that is not current any more stays so**, in every run. -/
theorem Reachable.not_current_stays {claim} (hclaim : ClaimIssued c.state claim) (hnot : ¬ClaimCurrent c.state claim)
    (hrun : ServiceRun service tick anyRun c c') : ¬ClaimCurrent c'.state claim := by
  induction hrun with
  | refl => exact hnot
  | @tail d d' hrun hstep ih =>
    have hreach := h.run hrun
    cases hreach.repair_step_cases hstep with
    | aside haside =>
      rintro ⟨task, hget, hcurrent⟩
      exact ih ⟨task, by rw [← haside.get _ rfl, hget], hcurrent⟩
    | applied i r txn heffect hissued hrepair =>
      obtain ⟨outcome, happlies⟩ := heffect.applies
      rw [heffect.state]
      intro hafter
      exact ih ((hissued.repair_case hrepair).current_before happlies (hclaim.stays (h.evolves hrun)) hafter)

/-- A report takes effect only while its claim is current. -/
theorem Reachable.current_of_report {i request} (heffect : TakesEffect c i (.reportReplicationTask request) txn c')
    (hop : txn.operation = .dfsReportReplicationTask) : ClaimCurrent c.state request.claim := by
  obtain ⟨reply, hact⟩ := heffect.act
  obtain ⟨outcome, happlies⟩ := heffect.applies
  cases h.repairCalm.act (repairGuarantees service reliable_trivial) hact rfl with
  | config => cases hop
  | @report _ digest task placement chunk source replication decision hchecked =>
    have hmem : .entityEquals (.dfsReplicationTask task) ∈
        (reportTxn request digest task placement chunk source replication decision).conditions := by simp [reportTxn]
    have hget := happlies.taskEquals hmem
    rw [hchecked.taskId] at hget
    exact ⟨task, hget, hchecked.state, hchecked.claim⟩

end

/-- A task that is read is stored at that moment. -/
theorem safe_readReplicationTask {post : ReplicationTask → System → Prop}
    (h : ∀ task s₁, rely s s₁ → s₁.store.get (.dfsReplicationTask id) = some (.dfsReplicationTask task) →
      post task s₁) :
    Safe serve rely (fun _ _ _ _ => True) post (readReplicationTask id) s := by
  unfold readReplicationTask
  intro s₁ hs₁ reply s₂ hserve
  refine ⟨trivial, ?_⟩
  obtain ⟨rfl, rfl | ⟨message, rfl⟩⟩ := hserve
  · show Safe serve rely _ post (Prog.require _ _) s₂
    rw [safe_require]
    intro task htask
    split at htask
    · next stored he =>
      cases htask
      exact h _ s₂ hs₁ (StoreState.get_of_read rfl he)
    · cases htask
  · trivial

/-- No grant is given on a claim that is not current while it is asked for. -/
theorem no_grant_of_not_current {request claim}
    (hclaim : request.repairClaim = some claim) (hrely : ∀ s s', rely s s' → ¬ClaimCurrent s' claim) :
    Safe serve rely (fun _ _ _ _ => True) (fun _ _ => False) (validateReplicaWrite request) s := by
  unfold validateReplicaWrite
  simp only [safe_bind, safe_lift, safe_check]
  intro _ _ _ _ _ _ _ _ _ _ _ _ _ _ _
  rw [hclaim, Option.isSome_some, if_pos rfl]
  unfold validateRepairReplicaWrite
  simp only [hclaim, safe_bind, safe_require, safe_check, Option.some.injEq]
  rintro _ rfl _
  intro s₁ hs₁ now s₂ _
  refine ⟨trivial, fun _ => ?_⟩
  refine safe_readReplicationTask fun task s₃ hs₃ hget => ?_
  rw [Bool.and_eq_true, decide_eq_true_eq, decide_eq_true_eq]
  rintro ⟨hstate, hof⟩
  exact absurd ⟨task, hget, hstate, hof⟩ (hrely _ _ hs₃)

/-! ## Counters

What a claim relies on for its fence. -/

/-- No task was completed. -/
def NoneCompleted (s s' : System) : Prop :=
  ∀ id task, s'.store.get (.dfsReplicationTask id) = some (.dfsReplicationTask task) → task.state = .completed →
    s.store.get (.dfsReplicationTask id) = some (.dfsReplicationTask task)

theorem noneCompleted_reliable : Reliable NoneCompleted where
  refl _ _ _ hget _ := hget
  trans _ _ _ h₁ h₂ id task hget hstate := h₁ id task (h₂ id task hget hstate) hstate
  aside _ _ h id task hget _ := by rwa [← h.get_ofRepair rfl]

/-- **A candidate counts on from the task it replaces**, if none was completed since the listing. -/
theorem candidate_attempt (happlies : s.Applies txn outcome) {stored condition}
    (hlisted : ListedCandidate NoneCompleted s task)
    (hcondition : TaskCondition task condition) (hmem : condition ∈ txn.conditions)
    (hstored : s.store.get (.dfsReplicationTask task.id) = some (.dfsReplicationTask stored)) :
    task.attempt = stored.attempt := by
  cases hcondition with
  | same =>
    have hsame := happlies.taskEquals hmem
    cases hsame.symm.trans hstored
    rfl
  | @completed current hid _ hstate =>
    have hcurrent := happlies.taskEquals hmem
    rw [hid] at hcurrent
    cases hcurrent.symm.trans hstored
    obtain ⟨s₁, s₂, -, h₂, hcandidate⟩ := hlisted
    have hbefore := h₂ _ _ hcurrent hstate
    cases hcandidate with
    | listed hget hopen =>
      cases hget.symm.trans hbefore
      exact absurd hstate hopen
    | added _ _ _ _ _ hattempt => exact hattempt _ hbefore
  | missing => exact absurd (happlies.missing hmem) (by rw [hstored]; exact nofun)

/-- Every task that is stored stays, and its counter does not fall. -/
def CountersKept (s s' : System) : Prop :=
  ∀ id task, s.store.get (.dfsReplicationTask id) = some (.dfsReplicationTask task) →
    ∃ task', s'.store.get (.dfsReplicationTask id) = some (.dfsReplicationTask task') ∧
      task.attempt.toNat ≤ task'.attempt.toNat

theorem CountersKept.of_same (h : ∀ key : MetaKey, key.ofRepair = true → s'.store.get key = s.store.get key) :
    CountersKept s s' := fun id task hget => ⟨task, by rw [h _ rfl, hget], Nat.le_refl _⟩

/-- A claim or a report writes a task with a counter that is not below the stored one. -/
theorem CountersKept.write {copies placement updated}
    (hwrite : RepairWrite.IsOf ⟨copies, placement, some updated⟩ txn)
    (h : ∀ stored, s.store.get (.dfsReplicationTask updated.id) = some (.dfsReplicationTask stored) →
      stored.attempt.toNat ≤ updated.attempt.toNat) : CountersKept s (committed s txn) := by
  intro id task hget
  rw [hwrite.get_task]
  split
  · next he =>
    cases he
    exact ⟨updated, rfl, h task hget⟩
  · exact ⟨task, hget, Nat.le_refl _⟩

/-! ## The condition -/

/-- There is no task for the chunk of the receipt, or its counter is at zero. -/
def counterAtZero (s : System) (receipt : ChunkReceipt) : Bool :=
  match s.store.get (.dfsReplicationTask (repairTaskId receipt.chunk.id)) with
  | some (.dfsReplicationTask task) => task.attempt = 0
  | _ => true

/-- No counter has reached its largest value. -/
def countersLeft (s : System) : Bool :=
  (s.store.read s.clock .dfsReplicationTasks).entities.all fun
    | .dfsReplicationTask task => task.attempt.toNat < 4294967295
    | _ => true

/-- The request turns no counter back and does not count beyond the largest value. -/
def leavesCounters (s : System) : Request → Bool
  | .commitFileVersion _ commit => commit.chunkReceipts.all fun receipt =>
    receiptFull s receipt || counterAtZero s receipt
  | .claimReplicationTask _ => countersLeft s
  | _ => true

/-- The request finishes a repair. -/
def finishesRepair : Request → Bool
  | .reportReplicationTask request => request.finished
  | _ => false

/-- **The condition of a run.** When a transaction takes effect, a commit with missing copies finds no task whose
    counter has begun to count, and a claim finds no counter at its largest value; and while a claim is under way, no
    repair is finished. -/
def keepsCounters (service : DfsService) : StepCondition := onEffect fun c r _ =>
  leavesCounters c.state r = true ∧ (ClaimUnderWay service c → finishesRepair r = false)

theorem attempt_lt_of_left (h : countersLeft s = true)
    (hget : s.store.get (.dfsReplicationTask id) = some (.dfsReplicationTask task)) :
    task.attempt.toNat < 4294967295 := by
  have hid : task.id = id := by simpa [entityKey] using StoreState.entityKey_of_get hget nofun
  rw [← hid] at hget
  exact of_decide_eq_true (List.all_eq_true.mp h _ (StoreState.mem_tasks.mpr hget))

/-! ## One transaction -/

variable (hcase : RepairCase (relyOf NoneCompleted r) s txn r) (happlies : s.Applies txn outcome)

include hcase happlies

theorem RepairCase.countersKept (hleaves : leavesCounters s r = true) : CountersKept s (committed s txn) := by
  cases hcase with
  | untouched hsame => exact .of_same hsame
  | commit hcommit hreceipts =>
    intro id task hget
    rcases hcommit.task_cases id with hsame | ⟨item, hitem, hfull, rfl, hnew⟩
    · exact ⟨task, by rw [hsame, hget], Nat.le_refl _⟩
    · rw [hcommit.request] at hleaves
      have hzero := hcommit.all_receipts hleaves hitem
      simp only [hcommit.receipt_full happlies hitem, hfull, counterAtZero, hget, Bool.false_or, decide_eq_true_eq]
        at hzero
      exact ⟨_, hnew, by simp [hzero]⟩
  | setAside hlisted hcondition hstored _ _ hupdated _ hwrite =>
    refine .write hwrite fun stored hget => ?_
    rw [hupdated.id] at hget
    rw [hupdated.attempt, candidate_attempt happlies hlisted hcondition hstored hget]
  | @claimed request task selection hlisted hselected hconditions hrequest hwrite =>
    refine .write hwrite fun stored hget => ?_
    obtain ⟨condition, hmem, hcondition⟩ := hselected.condition
    rw [hselected.updated] at hget ⊢
    rw [← candidate_attempt happlies hlisted hcondition (hconditions _ hmem) hget]
    have hlt := task.attempt.toNat_lt
    simp only [UInt32.toNat_saturatingAdd]
    omega
  | sourceInvalid _ htask _ _ _ hupdated _ hwrite | retried _ htask hupdated hwrite =>
    refine .write hwrite fun stored hget => ?_
    rw [hupdated.id] at hget
    cases (happlies.entityEquals htask).symm.trans hget
    rw [hupdated.attempt]
  | completed _ htask _ _ _ hwrite =>
    refine .write hwrite fun stored hget => ?_
    cases (happlies.entityEquals htask).symm.trans hget
    exact Nat.le_refl _
  | @corrupted request placement observed copies health blocked now hchunk hplacement hobserved hid hcopies hhealth
      hwrite =>
    refine .write hwrite fun stored hget => ?_
    cases observed with
    | none =>
      rw [show (corruptionTask request placement none blocked now).id = repairTaskId request.chunkId from rfl,
        happlies.missing hobserved] at hget
      cases hget
    | some task =>
      have hget' := happlies.taskEquals hobserved
      rw [hid task rfl] at hget'
      cases hget'.symm.trans hget
      exact Nat.le_refl _

omit happlies in
/-- Only a report that finishes a repair completes a task. -/
theorem RepairCase.noneCompleted (hfinish : finishesRepair r = false) : NoneCompleted s (committed s txn) := by
  have hwritten {w : RepairWrite} (hwrite : w.IsOf txn) (hopen : ∀ task, w.task = some task → task.state ≠ .completed) :
      NoneCompleted s (committed s txn) := by
    intro id task hget hstate
    rw [hwrite.get_task] at hget
    split at hget
    · obtain ⟨updated, hupdated, he⟩ := Option.map_eq_some_iff.mp hget
      cases he
      exact absurd hstate (hopen _ hupdated)
    · exact hget
  cases hcase with
  | untouched hsame => exact fun id task hget _ => by rwa [← hsame _ rfl]
  | commit hcommit =>
    intro id task hget hstate
    rcases hcommit.task_cases id with hsame | ⟨item, -, -, -, hnew⟩
    · rwa [← hsame]
    · rw [hnew] at hget
      cases hget
      cases hstate
  | setAside _ _ _ _ _ hupdated _ hwrite | sourceInvalid _ _ _ _ _ hupdated _ hwrite | retried _ _ hupdated hwrite =>
    exact hwritten hwrite (by simpa using hupdated.notCompleted)
  | claimed _ hselected _ _ hwrite => exact hwritten hwrite (by simp [hselected.updated])
  | completed _ _ _ _ hacks => simp [finishesRepair, hacks.finished] at hfinish
  | corrupted _ _ _ _ _ _ hwrite =>
    apply hwritten hwrite
    rintro task ⟨⟩
    simp only [corruptionTask]
    split <;> simp

omit hcase happlies

/-- Every issued claim has a task whose counter has reached its fence. -/
def FencesCounted (s : System) : Prop :=
  ∀ claim, ClaimIssued s claim → ∃ task,
    s.store.get (.dfsReplicationTask claim.taskId) = some (.dfsReplicationTask task) ∧
      claim.fence.toNat ≤ task.attempt.toNat

/-- The fence of a claim is the counter that it leaves. -/
theorem Selected.fence_toNat (h : Selected request task selection) :
    selection.claim.fence.toNat = (task.attempt.saturatingAdd 1).toNat := by
  rw [h.fence, UInt32.toNat_toUInt64]

/-- **A new claim has a larger fence** than all earlier claims of its task. -/
theorem FencesCounted.new_claim (h : FencesCounted s) (happlies : s.Applies txn outcome)
    (hlisted : ListedCandidate NoneCompleted s task) (hselected : Selected request task selection)
    (hconditions : ∀ condition ∈ selection.conditions, condition ∈ txn.conditions) (hleft : countersLeft s = true)
    {claim} (hclaim : ClaimIssued s claim) (htask : claim.taskId = selection.claim.taskId) :
    claim.fence < selection.claim.fence := by
  obtain ⟨stored, hstored, hle⟩ := h claim hclaim
  obtain ⟨condition, hmem, hcondition⟩ := hselected.condition
  have hlt := attempt_lt_of_left hleft hstored
  rw [htask, hselected.taskId] at hstored
  have hattempt := candidate_attempt happlies hlisted hcondition (hconditions _ hmem) hstored
  rw [UInt64.lt_iff_toNat_lt, hselected.fence_toNat, hattempt, UInt32.toNat_saturatingAdd]
  have hone : (1 : UInt32).toNat = 1 := rfl
  omega

/-- One transaction keeps the counters ahead of the fences. -/
theorem FencesCounted.step (h : FencesCounted s) (hissued : Issued service tick s r txn)
    (hrepair : r.repairs = true → RepairIssued (relyOf NoneCompleted r) s r txn)
    (happlies : s.Applies txn outcome) (hleaves : leavesCounters s r = true) : FencesCounted (committed s txn) := by
  intro claim hclaim
  rcases hissued.new_claim hrepair hclaim with hold |
    ⟨request, task, selection, rfl, rfl, hlisted, hselected, -, hwrite⟩
  · obtain ⟨task, hget, hle⟩ := h claim hold
    obtain ⟨task', hget', hle'⟩ := (hissued.repair_case hrepair).countersKept happlies hleaves _ _ hget
    exact ⟨task', hget', hle.trans hle'⟩
  · refine ⟨selection.updated, ?_, ?_⟩
    · rw [hwrite.get_task, hselected.updated, hselected.taskId]
      exact if_pos rfl
    · rw [hselected.fence_toNat, hselected.updated]

theorem claimIssued_of_aside (h : Aside s s') {claim} (hclaim : ClaimIssued s' claim) : ClaimIssued s claim := by
  obtain ⟨digest, houtcome⟩ := hclaim
  rcases h.outcome ⟨claim.workerNodeId, claim.operationId.value⟩ with hsame | ⟨-, outcome, hnew, hop⟩
  · exact ⟨digest, hsame ▸ houtcome⟩
  · cases hnew.symm.trans houtcome
    simp [claimOutcome] at hop

theorem ReachableUnder.fencesCounted (h : ReachableUnder service tick (keepsCounters service) c) :
    RepairCalm NoneCompleted c ∧ FencesCounted c.state := by
  refine h.invariant noneCompleted_reliable ?_ ?_ ?_
  · rintro clock claim ⟨digest, houtcome⟩
    cases houtcome
  · intro s s' haside hi claim hclaim
    obtain ⟨task, hget, hle⟩ := hi claim (claimIssued_of_aside haside hclaim)
    exact ⟨task, by rw [haside.get _ rfl, hget], hle⟩
  · intro c c' i r txn hcondition hi heffect hissued hrepair
    obtain ⟨outcome, happlies⟩ := heffect.applies
    obtain ⟨hleaves, hfinish⟩ := hcondition i r txn heffect
    rw [heffect.state]
    exact ⟨hi.step hissued hrepair happlies hleaves,
      fun hunder => (hissued.repair_case hrepair).noneCompleted (hfinish hunder)⟩

/-! ## Runs -/

variable (service tick) in
/-- **Repair claims are fenced.** In every run in which no counter is turned back or exhausted and no repair is
    finished while a claim is under way, each claim that is issued has a larger fence than every earlier claim of the
    same task. In every run, a claim that is not the running claim of its task any more is never again the one a
    report takes effect with, and no grant to write a replica is given on it. -/
theorem repair_claims_fenced :
    (∀ c c', ReachableUnder service tick (keepsCounters service) c →
      StepUnder service tick (keepsCounters service) c c' →
      ∀ earlier claim, ClaimIssued c.state earlier → ¬ClaimIssued c.state claim → ClaimIssued c'.state claim →
        earlier.taskId = claim.taskId → earlier.fence < claim.fence) ∧
    (∀ c claim, Reachable service tick anyRun c → ClaimIssued c.state claim → ¬ClaimCurrent c.state claim →
      (∀ c₁ c₂ i request txn, ServiceRun service tick anyRun c c₁ →
        TakesEffect c₁ i (.reportReplicationTask request) txn c₂ → txn.operation = .dfsReportReplicationTask →
        request.claim ≠ claim) ∧
      ∀ request : ValidateReplicaWriteRequest, request.repairClaim = some claim →
        Safe serve (fun _ s => ∃ c₁, ServiceRun service tick anyRun c c₁ ∧ c₁.state = s) (fun _ _ _ _ => True)
          (fun _ _ => False) (validateReplicaWrite request) c.state) := by
  refine ⟨?_, ?_⟩
  · intro c c' hreach hstep earlier claim hearlier hnew hclaim htask
    obtain ⟨hcalm, hcounted⟩ := hreach.fencesCounted
    cases hcalm.step_cases noneCompleted_reliable hreach.reachable hstep.1 with
    | aside haside => exact absurd (claimIssued_of_aside haside hclaim) hnew
    | applied i r txn heffect hissued hrepair =>
      obtain ⟨outcome, happlies⟩ := heffect.applies
      rw [heffect.state] at hclaim
      obtain hold | ⟨request, task, selection, rfl, rfl, hlisted, hselected, hconditions, -⟩ :=
        hissued.new_claim hrepair hclaim
      · exact absurd hold hnew
      · have hleft := (hstep.2 i _ txn heffect).1
        exact hcounted.new_claim happlies hlisted hselected hconditions hleft hearlier htask
  · intro c claim hreach hclaim hnot
    refine ⟨?_, ?_⟩
    · rintro c₁ c₂ i request txn hrun heffect hop rfl
      exact hreach.not_current_stays hclaim hnot hrun ((hreach.run hrun).current_of_report heffect hop)
    · intro request hrequest
      apply no_grant_of_not_current hrequest
      rintro _ _ ⟨c₁, hrun, rfl⟩
      exact hreach.not_current_stays hclaim hnot hrun

/-! ## Claims of a script -/

/-- The claim that is recorded for a request. -/
def claimAt (s : System) (key : RequestKey) : Option ReplicationClaim :=
  match s.store.outcome key with
  | some ⟨request, .dfsClaimReplicationTask, .dfsReplicationClaim _ (some claim)⟩ =>
    if request = key ∧ key = ⟨claim.workerNodeId, claim.operationId.value⟩ then some claim else none
  | _ => none

theorem claimIssued_of_claimAt {key claim} (h : claimAt s key = some claim) :
    ClaimIssued s claim ∧ key = ⟨claim.workerNodeId, claim.operationId.value⟩ := by
  unfold claimAt at h
  split at h
  · next request digest claim' houtcome =>
    split at h
    · next hkey =>
      cases h
      obtain ⟨rfl, rfl⟩ := hkey
      exact ⟨⟨digest, houtcome⟩, rfl⟩
    · cases h
  · cases h

/-- A claim that is got in a run is issued in one of its steps. -/
theorem exists_claiming_step {step : ServicePool → ServicePool → Prop} {c₀ c₁} (hrun : ReflTransGen step c₀ c₁)
    {key claim} (hfresh : c₀.state.store.outcome key = none) (hclaim : claimAt c₁.state key = some claim) :
    ∃ c c', ReflTransGen step c₀ c ∧ step c c' ∧ ¬ClaimIssued c.state claim ∧ ClaimIssued c'.state claim := by
  obtain ⟨hissued, rfl⟩ := claimIssued_of_claimAt hclaim
  refine exists_step_of_run (B := fun c => ClaimIssued c.state claim) hrun ?_ hissued
  rintro ⟨digest, houtcome⟩
  rw [hfresh] at houtcome
  cases houtcome

/-- The task of the chunk is running under another claim than that of the request, or not at all. -/
def claimCleared (s : System) (claim : ReplicationClaim) : Bool :=
  match s.store.get (.dfsReplicationTask claim.taskId) with
  | some (.dfsReplicationTask task) => task.claim ≠ some claim
  | _ => true

theorem not_current_of_cleared {claim} (h : claimCleared s claim = true) : ¬ClaimCurrent s claim := by
  rintro ⟨task, hget, -, hof⟩
  simp [claimCleared, hget, hof] at h

namespace Pair

/-- A node asks for a repair. -/
def claiming (node operation : String) : Event :=
  .request (.claimReplicationTask ⟨node, "session", 1, ⟨operation⟩, 60⟩)

/-- The second node registers, and the first claims the repair of the chunk. -/
def firstClaim : List Event := oneCopy ++ [Cluster.register "b", claiming "a" "claim"]

/-- The config of a repair: all desired copies, one of them on the worker. -/
def repairConfig : ReplicationConfig := ⟨2, 2, 1, 1, .required⟩

/-- The claim that is answered. -/
def claim : ReplicationClaim :=
  let epoch := placementHash repairConfig [target "a", target "b"]
  { taskId := ⟨"repair:chunk"⟩
    operationId := ⟨"claim"⟩
    workerNodeId := "a"
    workerNodeEpoch := 1
    workerSessionId := "session"
    expiresAtUnixMs := 60000
    fence := 1
    chunk := Cluster.chunk 8
    sourceCopyId := copyId "a" 1 "disk" ⟨"chunk"⟩
    placementRevision := 6
    replicaGroup := ⟨⟨"group:" ++ hex16 epoch⟩, epoch, [target "a", target "b"]⟩
    replication := repairConfig }

/-- The worker gives up, and some time passes. -/
def givenUp : List Event :=
  firstClaim ++ [.request (.reportReplicationTask ⟨"a", "session", 1, ⟨"report"⟩, claim, [], some "no space", false⟩),
    .clock 5000]

end Pair

/-- The second attempt at a repair has the larger fence, and the first claim is dead. -/
theorem repair_claims_fenced_second_attempt :
    ∃ c c' claim, ReachableUnder pairService (fun _ _ => True) (keepsCounters pairService) c ∧
      StepUnder pairService (fun _ _ => True) (keepsCounters pairService) c c' ∧ ClaimIssued c.state Pair.claim ∧
      ¬ClaimCurrent c.state Pair.claim ∧ ClaimIssued c'.state claim ∧ Pair.claim.fence < claim.fence ∧
      ∀ request : ValidateReplicaWriteRequest, request.repairClaim = some Pair.claim →
        Safe serve (fun _ s => ∃ c₁, ServiceRun pairService (fun _ _ => True) anyRun c c₁ ∧ c₁.state = s)
          (fun _ _ _ _ => True) (fun _ _ => False) (validateReplicaWrite request) c.state := by
  obtain ⟨hreach, hrun⟩ : ReachableUnder pairService (fun _ _ => True) (keepsCounters pairService)
        (playAll pairService Pair.givenUp) ∧
      RunUnder pairService (fun _ _ => True) (keepsCounters pairService) (playAll pairService Pair.givenUp)
        (playAll pairService (Pair.givenUp ++ [Pair.claiming "a" "again"])) := by
    refine runUnder_playAll_append (Q := fun r s _ => leavesCounters s r = true) ?_ (fun _ _ _ => trivial)
      (by decide +kernel)
    intro c i r txn c' halone heffect hleaves
    refine ⟨hleaves, fun hunder => ?_⟩
    cases r with
    | claimReplicationTask request => rfl
    | _ => exact absurd hunder (halone.not_claimUnderWay heffect nofun)
  obtain ⟨hfirst, hcleared, hfresh⟩ :
      claimAt (playAll pairService Pair.givenUp).state ⟨"a", "claim"⟩ = some Pair.claim ∧
        claimCleared (playAll pairService Pair.givenUp).state Pair.claim = true ∧
        (playAll pairService Pair.givenUp).state.store.outcome ⟨"a", "again"⟩ = none := by decide +kernel
  have hsecond : ∃ claim ∈ claimAt (playAll pairService (Pair.givenUp ++ [Pair.claiming "a" "again"])).state
      ⟨"a", "again"⟩, Pair.claim.taskId = claim.taskId := by decide +kernel
  obtain ⟨claim, hclaim, htask⟩ := hsecond
  obtain ⟨c, c', hbefore, hstep, hnew, hafter⟩ := exists_claiming_step hrun hfresh hclaim
  have hbefore' := serviceRun_of_under hbefore
  have hearlier : ClaimIssued c.state Pair.claim :=
    (claimIssued_of_claimAt hfirst).1.stays (hreach.reachable.evolves hbefore')
  have hnot : ¬ClaimCurrent c.state Pair.claim :=
    hreach.reachable.not_current_stays (claimIssued_of_claimAt hfirst).1 (not_current_of_cleared hcleared) hbefore'
  obtain ⟨hgrow, hdead⟩ := repair_claims_fenced pairService fun _ _ => True
  refine ⟨c, c', claim, hreach.run hbefore, hstep, hearlier, hnot, hafter, ?_, ?_⟩
  · exact hgrow c c' (hreach.run hbefore) hstep Pair.claim claim hearlier hnew hafter htask
  · exact (hdead c Pair.claim (hreach.run hbefore).reachable hearlier hnot).2

/-- A file of the second node with the same chunk, of which again one copy is missing. -/
def Pair.recommitted : List Event :=
  Pair.firstClaim ++ [Pair.creating "b", Pair.committing "b" ["b", "a"] ["b"]]

/-- **A commit of the same content turns the counter back**: the claim that is issued after it has the fence of the
    claim before. -/
theorem recommit_repeats_fence :
    ∃ c c' claim, Reachable pairService (fun _ _ => True) anyRun c ∧
      ServiceStep pairService (fun _ _ => True) anyRun c c' ∧ ClaimIssued c.state Pair.claim ∧
      ¬ClaimIssued c.state claim ∧ ClaimIssued c'.state claim ∧ Pair.claim.taskId = claim.taskId ∧
      Pair.claim.fence = 1 ∧ claim.fence = 1 := by
  have hreach : Reachable pairService (fun _ _ => True) anyRun (playAll pairService Pair.recommitted) :=
    reachable_playAll (fun _ _ _ => trivial) (scriptMeets_any _)
  have hrun : ServiceRun pairService (fun _ _ => True) anyRun (playAll pairService Pair.recommitted)
      (playAll pairService (Pair.recommitted ++ [Pair.claiming "b" "again"])) :=
    run_playAll_append (fun _ _ _ => trivial) (scriptMeets_any _)
  obtain ⟨hfirst, hfresh⟩ :
      claimAt (playAll pairService Pair.recommitted).state ⟨"a", "claim"⟩ = some Pair.claim ∧
        (playAll pairService Pair.recommitted).state.store.outcome ⟨"b", "again"⟩ = none := by decide +kernel
  have hsecond : ∃ claim ∈ claimAt (playAll pairService (Pair.recommitted ++ [Pair.claiming "b" "again"])).state
      ⟨"b", "again"⟩, Pair.claim.taskId = claim.taskId ∧ Pair.claim.fence = 1 ∧ claim.fence = 1 := by decide +kernel
  obtain ⟨claim, hclaim, hsame⟩ := hsecond
  obtain ⟨c, c', hbefore, hstep, hnew, hafter⟩ := exists_claiming_step hrun hfresh hclaim
  exact ⟨c, c', claim, hreach.run hbefore, hstep,
    (claimIssued_of_claimAt hfirst).1.stays (hreach.evolves hbefore), hnew,
    hafter, hsame⟩

end Afs
