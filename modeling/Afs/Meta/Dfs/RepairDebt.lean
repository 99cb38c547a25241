import Afs.Meta.Dfs.RepairEffects

/-!
# `Meta.Dfs.RepairDebt` — placements that want repair and the tasks that say so

A placement that is not satisfied has an open task, and an open task has the epoch of its placement, or no worker can
claim it. The two records are written together by under-replicated commits, by claims that are set aside, and by
reports. Two things drive the epochs apart. A fully replicated commit of the same chunk writes the placement alone, so
an open task keeps the old epoch. And a claim that was made from a listing writes the listed task back over a completed
or missing one, although the placement has moved on since. The condition `keepsDebt` of a run excludes both.
-/

namespace Afs

open Interaction Relation

variable {service : DfsService} {tick : Tick} {c c' : ServicePool} {s s' : System} {r : Request}
  {txn : MetaTxn} {outcome : RequestOutcome}

variable {task updated : ReplicationTask} {placement : PlacementRecord} {copies : List CopyRecord}

/-- **Repair debt is neither lost nor orphaned.** -/
structure DebtRecorded (store : StoreState) : Prop where
  /-- A placement that is not satisfied has an open task. -/
  recorded : ∀ chunkId placement, store.get (.dfsPlacement chunkId) = some (.dfsPlacement placement) →
    placement.health ≠ .satisfied → ∃ id task, store.get (.dfsReplicationTask id) = some (.dfsReplicationTask task) ∧
      task.chunkId = chunkId ∧ task.state ≠ .completed
  /-- An open task has the epoch of its placement. -/
  claimable : ∀ id task, store.get (.dfsReplicationTask id) = some (.dfsReplicationTask task) →
    task.state ≠ .completed → ∃ placement, store.get (.dfsPlacement task.chunkId) = some (.dfsPlacement placement) ∧
      placement.placementEpoch = task.placementEpoch

/-! ## One chunk -/

/-- The placement and the task of one chunk. -/
structure ChunkDebt (placement task : Option MetaEntity) : Prop where
  recorded : ∀ p, placement = some (.dfsPlacement p) → p.health ≠ .satisfied →
    ∃ t, task = some (.dfsReplicationTask t) ∧ t.state ≠ .completed
  claimable : ∀ t, task = some (.dfsReplicationTask t) → t.state ≠ .completed →
    ∃ p, placement = some (.dfsPlacement p) ∧ p.placementEpoch = t.placementEpoch

/-- The task is named after its chunk, and its claim is about the chunk. -/
structure TaskNamed (task : ReplicationTask) : Prop where
  id : task.id = repairTaskId task.chunkId
  running : task.state = .running → ∀ claim, task.claim = some claim → claim.chunk.id = task.chunkId

/-- What holds in every state of the runs. -/
structure DebtInvariant (s : System) : Prop where
  named : ∀ id task, s.store.get (.dfsReplicationTask id) = some (.dfsReplicationTask task) → TaskNamed task
  debt : ∀ chunkId, ChunkDebt (s.store.get (.dfsPlacement chunkId))
    (s.store.get (.dfsReplicationTask (repairTaskId chunkId)))

theorem taskId_of_get {id}
    (h : s.store.get (.dfsReplicationTask id) = some (.dfsReplicationTask task)) : task.id = id := by
  simpa [entityKey] using StoreState.entityKey_of_get h nofun

theorem DebtInvariant.debtRecorded (h : DebtInvariant s) : DebtRecorded s.store where
  recorded chunkId placement hget hhealth := by
    obtain ⟨task, htask, hopen⟩ := (h.debt chunkId).recorded placement hget hhealth
    refine ⟨repairTaskId chunkId, task, htask, ?_, hopen⟩
    exact repairTaskId_injective ((h.named _ _ htask).id.symm.trans (taskId_of_get htask))
  claimable id task hget hopen := by
    refine (h.debt task.chunkId).claimable task ?_ hopen
    rw [← (h.named id task hget).id, taskId_of_get hget, hget]

theorem DebtInvariant.of_same (h : DebtInvariant s)
    (hsame : ∀ key : MetaKey, key.ofRepair = true → s'.store.get key = s.store.get key) : DebtInvariant s' where
  named id task hget := h.named id task (by rw [← hsame _ rfl, hget])
  debt chunkId := by
    rw [hsame _ rfl, hsame _ rfl]
    exact h.debt chunkId

/-- An open task in the epoch of its placement. -/
theorem ChunkDebt.of_open (hopen : task.state ≠ .completed) (hepoch : placement.placementEpoch = task.placementEpoch) :
    ChunkDebt (some (.dfsPlacement placement)) (some (.dfsReplicationTask task)) where
  recorded _ _ _ := ⟨task, rfl, hopen⟩
  claimable t ht _ := by
    cases ht
    exact ⟨placement, rfl, hepoch⟩

/-- A claim or a report writes the task of one chunk and perhaps its placement. -/
theorem DebtInvariant.write (h : DebtInvariant s) {written}
    (hwrite : RepairWrite.IsOf ⟨copies, written, some task⟩ txn) (hnamed : TaskNamed task)
    (hchunk : ∀ placement, written = some placement → placement.chunkId = task.chunkId)
    (hdebt : ChunkDebt ((committed s txn).store.get (.dfsPlacement task.chunkId)) (some (.dfsReplicationTask task))) :
    DebtInvariant (committed s txn) where
  named id found hget := by
    rw [hwrite.get_task] at hget
    split at hget
    · cases hget
      exact hnamed
    · exact h.named id found hget
  debt chunkId := by
    by_cases hid : task.chunkId = chunkId
    · subst hid
      have htask : (committed s txn).store.get (.dfsReplicationTask (repairTaskId task.chunkId)) =
          some (.dfsReplicationTask task) := by
        rw [hwrite.get_task]
        exact if_pos (by rw [Option.map_some, hnamed.id])
      rw [htask]
      exact hdebt
    · have htask : (committed s txn).store.get (.dfsReplicationTask (repairTaskId chunkId)) =
          s.store.get (.dfsReplicationTask (repairTaskId chunkId)) := by
        rw [hwrite.get_task]
        refine if_neg fun he => hid (repairTaskId_injective ?_)
        rw [← hnamed.id]
        exact Option.some.inj he
      have hplacement : (committed s txn).store.get (.dfsPlacement chunkId) = s.store.get (.dfsPlacement chunkId) := by
        rw [hwrite.get_placement]
        refine if_neg fun he => hid ?_
        obtain ⟨placement, hwritten, rfl⟩ := Option.map_eq_some_iff.mp he
        exact (hchunk placement hwritten).symm
      rw [htask, hplacement]
      exact h.debt chunkId

/-! ## What a claim relies on -/

/-- Nothing that a claim has listed was taken away: tasks stay, none was completed, and placements keep their epochs. -/
structure Undisturbed (s s' : System) : Prop where
  tasks : ∀ id, s.store.get (.dfsReplicationTask id) ≠ none → s'.store.get (.dfsReplicationTask id) ≠ none
  completed : ∀ id task, s'.store.get (.dfsReplicationTask id) = some (.dfsReplicationTask task) →
    task.state = .completed → s.store.get (.dfsReplicationTask id) = some (.dfsReplicationTask task)
  epochs : ∀ chunkId placement, s.store.get (.dfsPlacement chunkId) = some (.dfsPlacement placement) →
    ∃ placement', s'.store.get (.dfsPlacement chunkId) = some (.dfsPlacement placement') ∧
      placement'.placementEpoch = placement.placementEpoch

theorem Undisturbed.of_same (h : ∀ key : MetaKey, key.ofRepair = true → s'.store.get key = s.store.get key) :
    Undisturbed s s' where
  tasks id hid := by rwa [h _ rfl]
  completed id task hget _ := by rwa [← h _ rfl]
  epochs chunkId placement hget := ⟨placement, by rw [h _ rfl, hget], rfl⟩

theorem undisturbed_reliable : Reliable Undisturbed where
  refl s := .of_same fun _ _ => rfl
  trans s₁ s₂ s₃ h₁ h₂ := by
    refine ⟨fun id hid => h₂.tasks id (h₁.tasks id hid), fun id task hget hstate => ?_,
      fun chunkId placement hget => ?_⟩
    · exact h₁.completed id task (h₂.completed id task hget hstate) hstate
    · obtain ⟨placement', hget', he'⟩ := h₁.epochs chunkId placement hget
      obtain ⟨placement'', hget'', he''⟩ := h₂.epochs chunkId placement' hget'
      exact ⟨placement'', hget'', he''.trans he'⟩
  aside s s' h := .of_same fun _ => h.get_ofRepair

/-- **A candidate whose listing was not disturbed** is named after its chunk and has the epoch of the placement. -/
theorem DebtInvariant.candidate (h : DebtInvariant s) (happlies : s.Applies txn outcome)
    {condition} (hlisted : ListedCandidate Undisturbed s task)
    (hcondition : TaskCondition task condition) (hmem : condition ∈ txn.conditions)
    (hplacement : s.store.get (.dfsPlacement task.chunkId) = some (.dfsPlacement placement)) :
    task.id = repairTaskId task.chunkId ∧ placement.placementEpoch = task.placementEpoch := by
  obtain ⟨s₁, s₂, h₁₂, h₂, hcandidate⟩ := hlisted
  cases hcandidate with
  | listed hget hopen =>
    -- the listed task is still there, for it cannot have been completed or dropped
    have hstored : s.store.get (.dfsReplicationTask task.id) = some (.dfsReplicationTask task) := by
      cases hcondition with
      | same => exact happlies.entityEquals hmem
      | @completed current hid _ hstate =>
        have hcurrent := happlies.taskEquals hmem
        have hbefore := h₂.completed _ _ hcurrent hstate
        rw [hid, hget] at hbefore
        cases hbefore
        exact absurd hstate hopen
      | missing => exact absurd (happlies.missing hmem) (h₂.tasks _ (by rw [hget]; exact nofun))
    have hnamed := (h.named _ _ hstored).id
    rw [hnamed] at hstored
    obtain ⟨found, hfound, hepoch⟩ := (h.debt task.chunkId).claimable task hstored hopen
    rw [hplacement] at hfound
    cases hfound
    exact ⟨hnamed, hepoch⟩
  | added hget hid hepoch =>
    obtain ⟨second, hsecond, he₂⟩ := h₁₂.epochs _ _ hget
    obtain ⟨third, hthird, he₃⟩ := h₂.epochs _ _ hsecond
    rw [hplacement] at hthird
    cases hthird
    exact ⟨hid, by rw [he₃, he₂, hepoch]⟩

/-! ## The condition -/

/-- The task of the chunk is completed or has the epoch of the receipt. -/
def taskAgrees (s : System) (receipt : ChunkReceipt) : Bool :=
  match s.store.get (.dfsReplicationTask (repairTaskId receipt.chunk.id)) with
  | some (.dfsReplicationTask task) => task.state = .completed || task.placementEpoch = receipt.placementEpoch
  | _ => true

/-- The placement of the chunk has the epoch of the receipt. -/
def placementAgrees (s : System) (receipt : ChunkReceipt) : Bool :=
  match s.store.get (.dfsPlacement receipt.chunk.id) with
  | some (.dfsPlacement placement) => placement.placementEpoch = receipt.placementEpoch
  | _ => true

/-- A fully replicated receipt finds no open task of another epoch. -/
def agreesWithTasks (s : System) : Request → Bool
  | .commitFileVersion _ commit => commit.chunkReceipts.all fun receipt =>
    !receiptFull s receipt || taskAgrees s receipt
  | _ => true

/-- The request moves no placement to another epoch and finishes no repair. -/
def leavesEpochs (s : System) : Request → Bool
  | .commitFileVersion _ commit => commit.chunkReceipts.all (placementAgrees s)
  | .reportReplicationTask request => !request.finished
  | _ => true

/-- **The condition of a run.** When a transaction takes effect, no open task is left in another epoch than a fully
    replicated receipt; and while a claim is under way, no placement is moved to another epoch and no repair is
    finished. -/
def keepsDebt (service : DfsService) : StepCondition := onEffect fun c r _ =>
  agreesWithTasks c.state r = true ∧ (ClaimUnderWay service c → leavesEpochs c.state r = true)

/-! ## One transaction -/

theorem DebtInvariant.commit (h : DebtInvariant s) {parts} (hcommit : IsCommit s r txn parts)
    (happlies : s.Applies txn outcome) (hagrees : agreesWithTasks s r = true) : DebtInvariant (committed s txn) where
  named id task hget := by
    rcases hcommit.task_cases id with hsame | ⟨item, hitem, hfull, hid, hnew⟩
    · exact h.named id task (by rw [← hsame, hget])
    · rw [hnew] at hget
      cases hget
      exact ⟨rfl, by rintro ⟨⟩⟩
  debt chunkId := by
    by_cases hitem : ∃ item ∈ parts.accepted, item.receipt.chunk.id = chunkId
    · obtain ⟨item, hitem, rfl⟩ := hitem
      rw [hcommit.get_placement hitem, hcommit.get_task hitem]
      split
      · next hfull =>
        -- the placement is written alone; an open task must agree with it
        refine ⟨fun p hp hhealth => ?_, fun task htask hopen => ⟨_, rfl, ?_⟩⟩
        · cases hp
          exact absurd (by simp [AcceptedReceipt.placement, hfull]) hhealth
        · rw [hcommit.request] at hagrees
          have hreceipt := hcommit.all_receipts hagrees hitem
          simp only [hcommit.receipt_full happlies hitem, hfull, taskAgrees, htask, Bool.not_true, Bool.false_or,
            Bool.or_eq_true, decide_eq_true_eq] at hreceipt
          exact (hreceipt.resolve_left hopen).symm
      · exact .of_open (by rintro ⟨⟩) rfl
    · have hother : ∀ item ∈ parts.accepted, item.receipt.chunk.id ≠ chunkId :=
        fun item hmem he => hitem ⟨item, hmem, he⟩
      have htask : (committed s txn).store.get (.dfsReplicationTask (repairTaskId chunkId)) =
          s.store.get (.dfsReplicationTask (repairTaskId chunkId)) := by
        rcases hcommit.task_cases (repairTaskId chunkId) with hsame | ⟨item, hmem, -, hid, -⟩
        · exact hsame
        · exact absurd (repairTaskId_injective hid).symm (hother item hmem)
      rw [hcommit.get_placement_of_other hother, htask]
      exact h.debt chunkId

/-- What is stored of a task that a report is about. -/
theorem DebtInvariant.reported (h : DebtInvariant s) {request chunk}
    (hchecked : ReportChecked request task placement chunk)
    (htask : s.store.get (.dfsReplicationTask task.id) = some (.dfsReplicationTask task)) :
    TaskNamed task ∧ placement.chunkId = task.chunkId ∧ ∃ found,
      s.store.get (.dfsPlacement task.chunkId) = some (.dfsPlacement found) ∧
      found.placementEpoch = task.placementEpoch := by
  have hnamed := h.named _ _ htask
  refine ⟨hnamed, ?_, ?_⟩
  · rw [hchecked.placement]
    exact hnamed.running hchecked.state _ hchecked.claim
  · refine (h.debt task.chunkId).claimable task ?_ (by rw [hchecked.state]; exact nofun)
    rw [← hnamed.id, htask]

/-- The reopened task is named as the task was. -/
theorem Reopens.named (h : Reopens task updated) (hid : task.id = repairTaskId task.chunkId) : TaskNamed updated :=
  ⟨by rw [h.id, h.chunkId, hid], fun hrunning => absurd hrunning h.notRunning⟩

/-- A task is reopened together with its placement. -/
theorem DebtInvariant.reopen (h : DebtInvariant s) {health} (hupdated : Reopens task updated)
    (hwrite : RepairWrite.IsOf ⟨copies, some { placement with health }, some updated⟩ txn)
    (hid : task.id = repairTaskId task.chunkId) (hchunk : placement.chunkId = task.chunkId)
    (hepoch : placement.placementEpoch = task.placementEpoch) : DebtInvariant (committed s txn) := by
  refine h.write hwrite (hupdated.named hid) ?_ ?_
  · intro written hwritten
    cases hwritten
    exact hchunk.trans hupdated.chunkId.symm
  · rw [hwrite.get_placement, if_pos (by rw [Option.map_some, hupdated.chunkId, ← hchunk])]
    exact .of_open hupdated.notCompleted (hepoch.trans hupdated.placementEpoch.symm)

/-- A claim or a report that completes no task and moves no placement to another epoch. -/
theorem Undisturbed.write {w : RepairWrite} (hwrite : w.IsOf txn)
    (hopen : ∀ task, w.task = some task → task.state ≠ .completed)
    (hepoch : ∀ written, w.placement = some written → ∃ placement,
      s.store.get (.dfsPlacement written.chunkId) = some (.dfsPlacement placement) ∧
        placement.placementEpoch = written.placementEpoch) : Undisturbed s (committed s txn) where
  tasks id hid := by
    rw [hwrite.get_task]
    split
    · next he =>
      obtain ⟨task, htask, -⟩ := Option.map_eq_some_iff.mp he
      simp [htask]
    · exact hid
  completed id task hget hstate := by
    rw [hwrite.get_task] at hget
    split at hget
    · obtain ⟨written, hwritten, he⟩ := Option.map_eq_some_iff.mp hget
      cases he
      exact absurd hstate (hopen _ hwritten)
    · exact hget
  epochs chunkId placement hget := by
    rw [hwrite.get_placement]
    split
    · next he =>
      obtain ⟨written, hwritten, rfl⟩ := Option.map_eq_some_iff.mp he
      obtain ⟨stored, hstored, hsame⟩ := hepoch written hwritten
      cases hget.symm.trans hstored
      exact ⟨written, by rw [hwritten]; rfl, hsame.symm⟩
    · exact ⟨placement, hget, rfl⟩

theorem Undisturbed.commit {parts} (hcommit : IsCommit s r txn parts) (hleaves : leavesEpochs s r = true) :
    Undisturbed s (committed s txn) where
  tasks id hid := by
    rcases hcommit.task_cases id with hsame | ⟨item, -, -, -, hnew⟩
    · rwa [hsame]
    · rw [hnew]
      exact nofun
  completed id task hget hstate := by
    rcases hcommit.task_cases id with hsame | ⟨item, -, -, -, hnew⟩
    · rwa [← hsame]
    · rw [hnew] at hget
      cases hget
      cases hstate
  epochs chunkId placement hget := by
    by_cases hitem : ∃ item ∈ parts.accepted, item.receipt.chunk.id = chunkId
    · obtain ⟨item, hitem, rfl⟩ := hitem
      rw [hcommit.request] at hleaves
      have hagrees := hcommit.all_receipts hleaves hitem
      simp only [placementAgrees, hget, decide_eq_true_eq] at hagrees
      exact ⟨_, hcommit.get_placement hitem, hagrees.symm⟩
    · refine ⟨placement, ?_, rfl⟩
      rw [hcommit.get_placement_of_other fun item hmem he => hitem ⟨item, hmem, he⟩, hget]

variable (hcase : RepairCase (relyOf Undisturbed r) s txn r) (happlies : s.Applies txn outcome)

include hcase happlies

theorem RepairCase.debtInvariant (hagrees : agreesWithTasks s r = true) (h : DebtInvariant s) :
    DebtInvariant (committed s txn) := by
  cases hcase with
  | untouched hsame => exact h.of_same hsame
  | commit hcommit => exact h.commit hcommit happlies hagrees
  | @setAside request task updated condition placement health hlisted hcondition hstored hplacement hchunk hupdated
      hhealth hwrite =>
    have hget := happlies.placementEquals hplacement
    rw [hchunk] at hget
    obtain ⟨hid, hepoch⟩ := h.candidate happlies hlisted hcondition hstored hget
    exact h.reopen hupdated hwrite hid hchunk hepoch
  | @claimed _ _ _ hlisted hselected hconditions _ hwrite =>
    obtain ⟨condition, hmem, hcondition⟩ := hselected.condition
    obtain ⟨placement, hplacement, hchunk, hepoch⟩ := hselected.placement
    have hget := happlies.placementEquals (hconditions _ hplacement)
    rw [hchunk] at hget
    obtain ⟨hid, -⟩ := h.candidate happlies hlisted hcondition (hconditions _ hmem) hget
    rw [hselected.updated] at hwrite
    refine h.write hwrite ⟨hid, fun _ claim hclaim => ?_⟩ (by simp) ?_
    · cases hclaim
      exact hselected.chunk
    · rw [hwrite.get_placement, Option.map_none, if_neg (by simp), hget]
      exact .of_open (by simp) hepoch
  | @sourceInvalid request task updated placement source chunk health hchecked htask hplacement hsource hcopy hupdated
      hhealth hwrite =>
    obtain ⟨hnamed, hchunk, found, hfound, hepoch⟩ := h.reported hchecked (happlies.entityEquals htask)
    have hget := happlies.placementEquals hplacement
    rw [hchunk, hfound] at hget
    cases hget
    exact h.reopen hupdated hwrite hnamed.id hchunk hepoch
  | @retried _ _ _ _ _ hchecked htask hupdated hwrite =>
    obtain ⟨hnamed, -, found, hfound, hepoch⟩ := h.reported hchecked (happlies.entityEquals htask)
    apply h.write hwrite (hupdated.named hnamed.id) (by simp)
    rw [hwrite.get_placement, Option.map_none, if_neg (by simp), hupdated.chunkId, hfound]
    exact .of_open hupdated.notCompleted (hepoch.trans hupdated.placementEpoch.symm)
  | @completed _ _ _ _ hchecked htask _ _ _ hwrite =>
    obtain ⟨hnamed, hid, -⟩ := h.reported hchecked (happlies.entityEquals htask)
    refine h.write hwrite ⟨hnamed.id, nofun⟩ ?_ ?_
    · intro written hwritten
      cases hwritten
      exact hid
    · rw [hwrite.get_placement, if_pos (by rw [Option.map_some]; exact congrArg some hid)]
      refine ⟨fun p hp hhealth => ?_, fun t ht hopen => ?_⟩
      · cases hp
        exact absurd rfl hhealth
      · cases ht
        exact absurd rfl hopen
  | @corrupted request placement observed copies health blocked now hchunk hplacement hobserved hid hcopies hhealth
      hwrite =>
    refine h.write hwrite ⟨rfl, fun _ _ hclaim => nomatch hclaim⟩ ?_ ?_
    · intro written hwritten
      cases hwritten
      exact hchunk
    · rw [hwrite.get_placement, if_pos (by rw [Option.map_some]; exact congrArg some hchunk)]
      exact .of_open (by simp only [corruptionTask]; split <;> simp) rfl

theorem RepairCase.undisturbed (hleaves : leavesEpochs s r = true) : Undisturbed s (committed s txn) := by
  cases hcase with
  | untouched hsame => exact .of_same hsame
  | commit hcommit => exact .commit hcommit hleaves
  | setAside _ _ _ hplacement _ hupdated _ hwrite | sourceInvalid _ _ hplacement _ _ hupdated _ hwrite =>
    refine .write hwrite (by simpa using hupdated.notCompleted) fun written hwritten => ?_
    cases hwritten
    exact ⟨_, happlies.entityEquals hplacement, rfl⟩
  | claimed _ hselected _ _ hwrite => exact .write hwrite (by simp [hselected.updated]) (by simp)
  | retried _ _ hupdated hwrite => exact .write hwrite (by simpa using hupdated.notCompleted) (by simp)
  | completed _ _ _ _ hacks =>
    simp [leavesEpochs, hacks.finished] at hleaves
  | corrupted _ hplacement _ _ _ _ hwrite =>
    refine .write hwrite ?_ fun written hwritten => ?_
    · rintro task ⟨⟩
      simp only [corruptionTask]
      split <;> simp
    · cases hwritten
      exact ⟨_, happlies.entityEquals hplacement, rfl⟩

omit hcase happlies

/-! ## Runs -/

/-- **Repair debt is neither lost nor orphaned.** In every run in which no fully replicated commit leaves an open task
    in another epoch and no claim under way is disturbed, every placement that is not satisfied has an open task, and
    every open task has the epoch of its placement. -/
theorem repair_debt_recorded (h : ReachableUnder service tick (keepsDebt service) c) : DebtRecorded c.state.store := by
  refine (h.invariant (I := DebtInvariant) undisturbed_reliable ?_ ?_ ?_).2.debtRecorded
  · exact fun clock =>
      ⟨fun _ _ hget => (nomatch hget), fun _ => ⟨fun _ hget => (nomatch hget), fun _ hget => (nomatch hget)⟩⟩
  · exact fun s s' haside hi => hi.of_same fun _ => haside.get_ofRepair
  · intro c c' i r txn hcondition hi heffect hissued hrepair
    obtain ⟨outcome, happlies⟩ := heffect.applies
    obtain ⟨hagrees, hleaves⟩ := hcondition i r txn heffect
    have hcase := hissued.repair_case hrepair
    rw [heffect.state]
    exact ⟨hcase.debtInvariant happlies hagrees hi, fun hunder => hcase.undisturbed happlies (hleaves hunder)⟩

/-- The placement of the chunk and its task, if both are stored. -/
def debtOf (store : StoreState) (chunkId : ChunkId) : Option (PlacementRecord × ReplicationTask) :=
  match store.get (.dfsPlacement chunkId), store.get (.dfsReplicationTask (repairTaskId chunkId)) with
  | some (.dfsPlacement placement), some (.dfsReplicationTask task) => some (placement, task)
  | _, _ => none

/-- After a commit with a missing copy, the debt is recorded. -/
theorem repair_debt_recorded_one_copy :
    ∃ placement task, debtOf (playAll pairService Pair.oneCopy).state.store ⟨"chunk"⟩ = some (placement, task) ∧
      placement.health ≠ .satisfied ∧ DebtRecorded (playAll pairService Pair.oneCopy).state.store := by
  have hreachable : ReachableUnder pairService (fun _ _ => True) (keepsDebt pairService)
      (playAll pairService Pair.oneCopy) := by
    refine reachableUnder_playAll (Q := fun r s _ => agreesWithTasks s r = true) ?_ (fun _ _ _ => trivial)
      (by decide +kernel)
    intro c i r txn c' halone heffect hagrees
    refine ⟨hagrees, fun hunder => ?_⟩
    cases r with
    | claimReplicationTask request => rfl
    | _ => exact absurd hunder (halone.not_claimUnderWay heffect nofun)
  have hdebt : ∃ debt ∈ debtOf (playAll pairService Pair.oneCopy).state.store ⟨"chunk"⟩,
      debt.1.health ≠ .satisfied := by decide +kernel
  obtain ⟨⟨placement, task⟩, hmem, hhealth⟩ := hdebt
  exact ⟨placement, task, hmem, hhealth, repair_debt_recorded hreachable⟩

/-- A second file with the same chunk, fully replicated from another node. -/
def Pair.secondFile : List Event :=
  Pair.oneCopy ++ [Cluster.register "b", creating "b", committing "b" ["b", "a"] ["b", "a"]]

/-- **The second commit orphans the repair task of the first**: the placement is satisfied in a new epoch, and the task
    stays open in the old one, in which no claim can be made. -/
theorem full_commit_orphans_task :
    Reachable pairService (fun _ _ => True) anyRun (playAll pairService Pair.secondFile) ∧
      (∃ placement task, debtOf (playAll pairService Pair.secondFile).state.store ⟨"chunk"⟩ = some (placement, task) ∧
        task.state = .pending ∧ placement.placementEpoch ≠ task.placementEpoch) ∧
      ¬DebtRecorded (playAll pairService Pair.secondFile).state.store := by
  have hdebt : ∃ debt ∈ debtOf (playAll pairService Pair.secondFile).state.store ⟨"chunk"⟩,
      debt.2.state = .pending ∧ debt.2.chunkId = ⟨"chunk"⟩ ∧ debt.1.placementEpoch ≠ debt.2.placementEpoch := by
    decide +kernel
  obtain ⟨⟨placement, task⟩, hmem, hstate, hchunk, hepoch⟩ := hdebt
  refine ⟨?_, ⟨placement, task, hmem, hstate, hepoch⟩, fun hrecorded => ?_⟩
  · exact reachable_playAll (fun _ _ _ => trivial) (scriptMeets_any _)
  · rw [Option.mem_def, debtOf] at hmem
    split at hmem
    · next hplacement htask =>
      cases hmem
      have hopen : task.state ≠ .completed := by rw [show task.state = .pending from hstate]; exact nofun
      obtain ⟨found, hfound, hsame⟩ := hrecorded.claimable _ task htask hopen
      rw [show task.chunkId = ⟨"chunk"⟩ from hchunk, hplacement] at hfound
      cases hfound
      exact hepoch hsame
    · cases hmem

end Afs
