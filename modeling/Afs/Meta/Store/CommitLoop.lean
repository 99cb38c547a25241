import Afs.Meta.Store.Effect
import Afs.Meta.Store.Snapshot

/-!
# `Meta.Store.CommitLoop` — batches of operations

The store gathers the operations that wait into a batch, executes them one after the other on a private copy of the
state, persists the copy and only then publishes it and sends the replies. If persisting fails, nobody knows whether
the backend has the new snapshot, and the process refuses all further work.

Two relations say what a piece of a run has done, and pieces compose, so they carry over from one operation to a batch,
and in `Afs.Meta.Store.Deployment` to a run with failures and restarts. `Once` is about the recorded outcomes and the
replies. `AppliedInTurn` is about the whole state: it has changed by the effects of the operations that were applied,
one after the other, and by nothing else; an operation that was answered without being applied has left it as it was.

`batching_invisible` compares the loop with the operations executed one at a time.
-/

namespace Afs

open List

variable {txn : MetaTxn}

/-! ## Batches -/

/-- An operation that waits for the commit loop. -/
inductive Mutation
  | transaction (txn : MetaTxn)
  | registerNode (request : RequestKey) (lease : NodeSessionLease)

namespace Mutation

def request : Mutation → RequestKey
  | transaction txn => txn.request
  | registerNode request _ => request

def execute (now : UInt64) (state : StoreState) : Mutation → Result TxnOutcome × StoreState
  | transaction txn => state.compareAndCommit now txn
  | registerNode request lease => state.registerNodeSession now request lease

end Mutation

/-- The outcome that a reply reports. -/
def TxnOutcome.reported : TxnOutcome → Option RequestOutcome
  | .committed _ outcome => some outcome
  | .conditionFailed _ existing => existing

/-- An operation of a batch, with the time it was executed at and its result. -/
structure Executed where
  now : UInt64
  mutation : Mutation
  result : Result TxnOutcome

/-- `matches!(result, Ok(TxnOutcome::Committed { .. }))`. -/
def Executed.committed (executed : Executed) : Bool :=
  match executed.result with
  | .ok (.committed _ _) => true
  | _ => false

abbrev Reply := Mutation × Result TxnOutcome

def Executed.reply (executed : Executed) : Reply := (executed.mutation, executed.result)

/-- Executes the operations of a batch on the private copy. -/
def stage (state : StoreState) : List (UInt64 × Mutation) → List Executed × StoreState
  | [] => ([], state)
  | (now, mutation) :: rest =>
    let (result, next) := mutation.execute now state
    let (executed, staged) := stage next rest
    (⟨now, mutation, result⟩ :: executed, staged)

def dirty (executed : List Executed) : Bool := executed.any (·.committed)

/-- The operations that have committed. -/
def appliedOperations (executed : List Executed) : List Mutation := (executed.filter (·.committed)).map (·.mutation)

/-- The requests whose operations have committed. -/
def appliedRequests (executed : List Executed) : List RequestKey := (appliedOperations executed).map Mutation.request

variable {batch queue : List (UInt64 × Mutation)}

/-! ## One operation -/

/-- The outcome that a mutation records. -/
def TxnMutation.records : TxnMutation → Option RequestOutcome
  | .recordRequestOutcome outcome => some outcome
  | _ => none

/-- The transactions of the services: each asks for a new request and records one outcome, its own. -/
structure ServiceTxn (txn : MetaTxn) : Prop where
  absent : .requestAbsent txn.request ∈ txn.conditions
  recorded : ∃ outcome, outcome.request = txn.request ∧ txn.mutations.filterMap TxnMutation.records = [outcome]

/-- The operation is a registration or a transaction of a service. -/
def Mutation.Serviced (mutation : Mutation) : Prop := ∀ txn, mutation = .transaction txn → ServiceTxn txn

/-- What one operation replies and does to the outcomes. -/
inductive Execution (s : StoreState) (mutation : Mutation) : Result TxnOutcome → StoreState → Prop
  | refused (e : Error) : Execution s mutation (.error e) s
  | answered (revision : StoreRevision) :
      Execution s mutation (.ok (.conditionFailed revision (s.outcome mutation.request))) s
  | applied {s' : StoreState} (revision : StoreRevision) (outcome : RequestOutcome)
      (hfresh : s.outcome mutation.request = none)
      (houtcome : ∀ request, s'.outcome request = if mutation.request = request then some outcome
        else s.outcome request) : Execution s mutation (.ok (.committed revision outcome)) s'

variable {s s' : StoreState} {now : UInt64} {mutation : Mutation}

theorem foldl_outcomeEffect (mutations : List TxnMutation) (request : RequestKey) (old : Option RequestOutcome) :
    mutations.foldl (fun old mutation => mutation.outcomeEffect request old) old =
      (mutations.filterMap TxnMutation.records).foldl
        (fun old outcome => if outcome.request = request then some outcome else old) old := by
  induction mutations generalizing old with
  | nil => rfl
  | cons mutation rest ih =>
    rw [foldl_cons, ih]
    cases mutation <;> rfl

/-- A transaction of a service changes the outcome of its own request only, to the one it reports. -/
theorem outcome_applyMutations_of_serviced (h : ServiceTxn txn) {outcome}
    (hrecorded : txn.recordedOutcome = some outcome) (request : RequestKey) :
    (s.applyMutations txn.mutations).outcome request =
      if txn.request = request then some outcome else s.outcome request := by
  obtain ⟨recorded, hrequest, hlist⟩ := h.recorded
  have hfirst : txn.recordedOutcome = (txn.mutations.filterMap TxnMutation.records).head? := by
    rw [head?_filterMap, MetaTxn.recordedOutcome]
    congr
  rw [hfirst, hlist, head?_singleton, Option.some.injEq] at hrecorded
  rw [StoreState.outcome_applyMutations, foldl_outcomeEffect, hlist, ← hrecorded, ← hrequest]
  rfl

theorem execution_compareAndCommit (h : ServiceTxn txn) :
    Execution s (.transaction txn) (s.compareAndCommit now txn).1 (s.compareAndCommit now txn).2 := by
  have hcases := s.compareAndCommit_cases now txn
  generalize (s.compareAndCommit now txn).1 = reply at hcases
  generalize (s.compareAndCommit now txn).2 = next at hcases
  cases hcases with
  | rejected e => exact .refused e
  | replayed outcome hfound => exact hfound ▸ .answered s.revision
  | failed hfresh => exact hfresh ▸ .answered s.revision
  | applied outcome happlies =>
    exact .applied _ outcome happlies.fresh (outcome_applyMutations_of_serviced h happlies.recorded)

theorem execution_registerNodeSession (request : RequestKey) (lease : NodeSessionLease) :
    Execution s (.registerNode request lease) (s.registerNodeSession now request lease).1
      (s.registerNodeSession now request lease).2 := by
  have hcases := s.registerNodeSession_cases now request lease
  generalize (s.registerNodeSession now request lease).1 = reply at hcases
  generalize (s.registerNodeSession now request lease).2 = next at hcases
  cases hcases with
  | rejected e => exact .refused e
  | replayed outcome hfound => exact hfound ▸ .answered s.revision
  | registered _ _ hfresh =>
    exact .applied _ _ hfresh (StoreState.outcome_applyRegistration _ _ _)

theorem execution_of_serviced (h : mutation.Serviced) (s : StoreState) (now : UInt64) :
    Execution s mutation (mutation.execute now s).1 (mutation.execute now s).2 := by
  cases mutation with
  | transaction txn => exact execution_compareAndCommit (h txn rfl)
  | registerNode request lease => exact execution_registerNodeSession request lease

/-! ## Outcomes are recorded once -/

/-- What a piece of a run does to the stored outcomes, with the requests it has applied and the replies it has sent:
    a stored outcome stays, a request is applied at most once and only if it had no outcome, and a reply reports the
    stored outcome. -/
structure Once (before : RequestKey → Option RequestOutcome) (applied : List RequestKey) (replies : List Reply)
    (after : RequestKey → Option RequestOutcome) : Prop where
  kept : ∀ request outcome, before request = some outcome → after request = some outcome
  nodup : applied.Nodup
  fresh : ∀ request ∈ applied, before request = none ∧ after request ≠ none
  reported : ∀ mutation reply, (mutation, .ok reply) ∈ replies →
    (∀ outcome, reply.reported = some outcome → after mutation.request = some outcome) ∧
    (reply.reported = none → before mutation.request = none)
  acknowledged : ∀ mutation revision outcome, (mutation, .ok (.committed revision outcome)) ∈ replies →
    mutation.request ∈ applied

namespace Once

variable {before mid after : RequestKey → Option RequestOutcome} {first second : List RequestKey}
  {replies more : List Reply}

theorem refl (before : RequestKey → Option RequestOutcome) : Once before [] [] before :=
  ⟨fun _ _ h => h, nodup_nil, by simp, by simp, by simp⟩

theorem none_of_none (h : Once before first replies after) {request} (hnone : after request = none) :
    before request = none := by
  by_contra hstored
  obtain ⟨outcome, hstored⟩ := Option.ne_none_iff_exists'.mp hstored
  rw [h.kept _ _ hstored] at hnone
  cases hnone

theorem ne_none (h : Once before first replies after) {request} (hstored : before request ≠ none) :
    after request ≠ none :=
  fun hnone => hstored (h.none_of_none hnone)

theorem append (h : Once before first replies mid) (h' : Once mid second more after) :
    Once before (first ++ second) (replies ++ more) after where
  kept request outcome hstored := h'.kept _ _ (h.kept _ _ hstored)
  nodup := by
    -- what the first piece applies has an outcome when the second starts
    refine nodup_append'.mpr ⟨h.nodup, h'.nodup, fun request hfirst hsecond => ?_⟩
    exact (h.fresh request hfirst).2 (h'.fresh request hsecond).1
  fresh request hmem := by
    rcases mem_append.mp hmem with hmem | hmem
    · exact ⟨(h.fresh request hmem).1, h'.ne_none (h.fresh request hmem).2⟩
    · exact ⟨h.none_of_none (h'.fresh request hmem).1, (h'.fresh request hmem).2⟩
  reported mutation reply hmem := by
    rcases mem_append.mp hmem with hmem | hmem
    · obtain ⟨hsome, hnone⟩ := h.reported mutation reply hmem
      exact ⟨fun outcome hreported => h'.kept _ _ (hsome outcome hreported), hnone⟩
    · obtain ⟨hsome, hnone⟩ := h'.reported mutation reply hmem
      exact ⟨hsome, fun hreported => h.none_of_none (hnone hreported)⟩
  acknowledged mutation revision outcome hmem := by
    rcases mem_append.mp hmem with hmem | hmem
    · exact mem_append_left _ (h.acknowledged mutation revision outcome hmem)
    · exact mem_append_right _ (h'.acknowledged mutation revision outcome hmem)

/-- Replies that are all errors report nothing. -/
theorem of_errors (h : Once before first replies after) (herrors : ∀ mutation reply, (mutation, .ok reply) ∉ more) :
    Once before first more after :=
  ⟨h.kept, h.nodup, h.fresh, fun mutation reply hmem => absurd hmem (herrors mutation reply),
    fun mutation _ _ hmem => absurd hmem (herrors mutation _)⟩

end Once

/-- One operation. -/
theorem Execution.once {result} (h : Execution s mutation result s') (now : UInt64) :
    Once s.outcome (appliedRequests [⟨now, mutation, result⟩]) [(mutation, result)] s'.outcome := by
  cases h with
  | refused e => exact (Once.refl _).of_errors (by simp)
  | answered revision =>
    refine ⟨fun _ _ h => h, nodup_nil, by simp [appliedRequests, appliedOperations, Executed.committed],
      fun mutation reply hmem => ?_, by simp⟩
    cases mem_singleton.mp hmem
    exact ⟨fun outcome hreported => hreported, fun hnone => hnone⟩
  | applied _ _ hfresh houtcome =>
    refine ⟨fun request stored hstored => ?_, nodup_singleton _, fun request hmem => ?_,
      fun mutation reply hmem => ?_, fun mutation revision outcome hmem => ?_⟩
    · rw [houtcome, if_neg]
      · exact hstored
      · rintro rfl
        rw [hfresh] at hstored
        cases hstored
    · cases mem_singleton.mp hmem
      exact ⟨hfresh, by simp [houtcome]⟩
    · cases mem_singleton.mp hmem
      refine ⟨fun reported hreported => ?_, nofun⟩
      rw [houtcome, if_pos rfl]
      exact hreported
    · cases mem_singleton.mp hmem
      exact mem_singleton_self _

theorem appliedOperations_of_not_dirty {executed} (h : dirty executed = false) : appliedOperations executed = [] := by
  have hnone : executed.filter (·.committed) = [] := filter_eq_nil_iff.mpr (any_eq_false.mp h)
  rw [appliedOperations, hnone]
  rfl

theorem appliedOperations_append (executed more : List Executed) :
    appliedOperations (executed ++ more) = appliedOperations executed ++ appliedOperations more := by
  simp [appliedOperations]

/-- One batch. -/
theorem stage_once (h : ∀ item ∈ batch, item.2.Serviced) (s : StoreState) :
    Once s.outcome (appliedRequests (stage s batch).1) ((stage s batch).1.map Executed.reply)
      (stage s batch).2.outcome := by
  induction batch generalizing s with
  | nil => exact .refl _
  | cons item rest ih =>
    obtain ⟨now, mutation⟩ := item
    have hfirst := execution_of_serviced (h _ (mem_cons_self ..)) s now
    have hrest := ih (fun item hitem => h item (mem_cons_of_mem _ hitem)) (mutation.execute now s).2
    have happend := (hfirst.once now).append hrest
    rw [appliedRequests, appliedRequests, ← map_append, ← appliedOperations_append] at happend
    exact happend

/-! ## What is applied -/

/-- The effect of an operation that is applied: the mutations of the transaction, each once and in their order, or the
    session of a node with the outcome that it is answered. -/
inductive Mutation.Effect (s : StoreState) : Mutation → StoreState → Prop
  | transaction (txn : MetaTxn) : Effect s (.transaction txn) (s.applyMutations txn.mutations)
  | registerNode (request : RequestKey) (lease : NodeSessionLease) (session : NodeSession)
      (nodeEpochs : AList (fun _ : String => UInt64)) (hnode : session.nodeId = lease.nodeId)
      (hsession : session.sessionId = lease.sessionId) :
      Effect s (.registerNode request lease)
        (s.applyRegistration session nodeEpochs ⟨request, .registerNode, .nodeSession session⟩)

/-- **The state has changed by the operations of a list**, applied one after the other, and by nothing else: its
    entities, outcomes, events and revision are those that the effects leave. In between it may have been loaded from
    a snapshot, which keeps the content. -/
inductive AppliedInTurn (s : StoreState) : List Mutation → StoreState → Prop
  | refl : AppliedInTurn s [] s
  | loaded {operations s' s''} (h : AppliedInTurn s operations s')
      (hsame : s'.SameContent s''.toMemoryState) : AppliedInTurn s operations s''
  | applied {operations mutation s' s''} (h : AppliedInTurn s operations s') (heffect : mutation.Effect s' s'') :
      AppliedInTurn s (operations ++ [mutation]) s''

theorem AppliedInTurn.trans {s'' operations more} (h : AppliedInTurn s operations s')
    (h' : AppliedInTurn s' more s'') : AppliedInTurn s (operations ++ more) s'' := by
  induction h' with
  | refl =>
    rw [append_nil]
    exact h
  | loaded _ hsame ih => exact ih.loaded hsame
  | applied _ heffect ih =>
    rw [← append_assoc]
    exact ih.applied heffect

/-- An operation commits and has its effect, or it leaves the state as it is. -/
theorem execute_cases (s : StoreState) (now : UInt64) (mutation : Mutation) :
    (Executed.committed ⟨now, mutation, (mutation.execute now s).1⟩ = true ∧
        mutation.Effect s (mutation.execute now s).2) ∨
      (Executed.committed ⟨now, mutation, (mutation.execute now s).1⟩ = false ∧ (mutation.execute now s).2 = s) := by
  cases mutation with
  | transaction txn =>
    have hcases := s.compareAndCommit_cases now txn
    simp only [Mutation.execute]
    generalize (s.compareAndCommit now txn).1 = reply at hcases ⊢
    generalize (s.compareAndCommit now txn).2 = next at hcases ⊢
    cases hcases with
    | rejected | replayed | failed => exact .inr ⟨rfl, rfl⟩
    | applied => exact .inl ⟨rfl, .transaction txn⟩
  | registerNode request lease =>
    have hcases := s.registerNodeSession_cases now request lease
    simp only [Mutation.execute]
    generalize (s.registerNodeSession now request lease).1 = reply at hcases ⊢
    generalize (s.registerNodeSession now request lease).2 = next at hcases ⊢
    cases hcases with
    | rejected | replayed => exact .inr ⟨rfl, rfl⟩
    | registered session nodeEpochs _ hnode hsession =>
      exact .inl ⟨rfl, .registerNode request lease _ _ hnode hsession⟩

theorem execute_applied (s : StoreState) (now : UInt64) (mutation : Mutation) :
    AppliedInTurn s (appliedOperations [⟨now, mutation, (mutation.execute now s).1⟩]) (mutation.execute now s).2 := by
  rcases execute_cases s now mutation with ⟨hcommitted, heffect⟩ | ⟨hcommitted, hsame⟩
  · have happlied : appliedOperations [⟨now, mutation, (mutation.execute now s).1⟩] = [] ++ [mutation] := by
      simp [appliedOperations, hcommitted]
    rw [happlied]
    exact .applied .refl heffect
  · -- a retry, a failed condition or a refusal: nothing is applied, and the state is the one before
    have happlied : appliedOperations [⟨now, mutation, (mutation.execute now s).1⟩] = [] := by
      simp [appliedOperations, hcommitted]
    rw [happlied, hsame]
    exact .refl

/-- **A batch changes the state by what it applies.** -/
theorem stage_applied (s : StoreState) (batch : List (UInt64 × Mutation)) :
    AppliedInTurn s (appliedOperations (stage s batch).1) (stage s batch).2 := by
  induction batch generalizing s with
  | nil => exact .refl
  | cons item rest ih =>
    obtain ⟨now, mutation⟩ := item
    have happlied := (execute_applied s now mutation).trans (ih (mutation.execute now s).2)
    rw [← appliedOperations_append] at happlied
    exact happlied

/-- The copy of a batch that has committed nothing is the state it was taken of. -/
theorem stage_of_not_dirty (h : dirty (stage s batch).1 = false) : (stage s batch).2 = s := by
  induction batch generalizing s with
  | nil => rfl
  | cons item rest ih =>
    obtain ⟨now, mutation⟩ := item
    simp only [stage, dirty, any_cons, Bool.or_eq_false_iff] at h
    have hfirst : (mutation.execute now s).2 = s := by
      rcases execute_cases s now mutation with ⟨hcommitted, -⟩ | ⟨-, hsame⟩
      · rw [hcommitted] at h
        cases h.1
      · exact hsame
    simp only [stage]
    rw [hfirst] at h ⊢
    exact ih h.2

/-! ## The process

What the backend answers to a commit is an argument here: the new version, or the text of the error. -/

/-- A process of the store, with the state it has published and the version of the snapshot it persisted last. -/
structure StoreProcess where
  committed : StoreState
  backendVersion : UInt64
  poisoned : Bool

/-- `Store::committed`, which every read and watch goes through: a poisoned process serves nothing. -/
def StoreProcess.visible (process : StoreProcess) : Result StoreState :=
  if process.poisoned then .error (unavailable "store backend commit failed; restart Meta to reload authority")
  else .ok process.committed

/-- A turn of the loop: the operations gathered, each with the time it is executed at, and what the backend answers if
    it is asked to persist them. The source gathers at most 64 operations; nothing here depends on the bound. -/
structure Turn where
  batch : List (UInt64 × Mutation)
  persisted : Except String UInt64

variable {process : StoreProcess} {turn : Turn}

/-- One turn of `run_commit_loop`: the batch is executed on a copy, which is published once it is persisted. A batch
    that has committed nothing is not persisted. -/
def StoreProcess.commitBatch (process : StoreProcess) (turn : Turn) : StoreProcess × List Reply :=
  let (executed, staged) := stage process.committed turn.batch
  if dirty executed then
    match turn.persisted with
    | .ok version => (⟨staged, version, process.poisoned⟩, executed.map Executed.reply)
    | .error text =>
      ({ process with poisoned := true },
        executed.map fun item => (item.mutation, .error (unavailable ("store backend commit failed: " ++ text))))
  else (process, executed.map Executed.reply)

/-- The operations of a list of turns, in the order they were queued. -/
def queued (turns : List Turn) : List (UInt64 × Mutation) := turns.flatMap Turn.batch

theorem queued_cons (turn : Turn) (rest : List Turn) : queued (turn :: rest) = turn.batch ++ queued rest := rfl

/-- The turns of `run_commit_loop` over a queue that is grouped into batches. A poisoned process leaves the loop, and
    the operations that still wait are dropped with their channel. -/
def StoreProcess.runCommitLoop (process : StoreProcess) : List Turn → StoreProcess × List Reply
  | [] => (process, [])
  | turn :: rest =>
    let (next, replies) := process.commitBatch turn
    if next.poisoned then
      (next, replies ++ (queued rest).map fun item =>
        (item.2, .error (unavailable "store commit loop dropped reply")))
    else
      let (last, more) := next.runCommitLoop rest
      (last, replies ++ more)

/-! ## Batching is invisible -/

/-- The operations of a queue executed one at a time, each on the state the one before has left. -/
def oneByOne (state : StoreState) : List (UInt64 × Mutation) → List Reply × StoreState
  | [] => ([], state)
  | (now, mutation) :: rest =>
    let (result, next) := mutation.execute now state
    let (replies, last) := oneByOne next rest
    ((mutation, result) :: replies, last)

theorem oneByOne_append (state : StoreState) (queue more : List (UInt64 × Mutation)) :
    oneByOne state (queue ++ more) =
      ((oneByOne state queue).1 ++ (oneByOne (oneByOne state queue).2 more).1,
        (oneByOne (oneByOne state queue).2 more).2) := by
  induction queue generalizing state with
  | nil => rfl
  | cons item rest ih =>
    obtain ⟨now, mutation⟩ := item
    simp [oneByOne, ih]

/-- A batch is executed one operation at a time. -/
theorem oneByOne_eq_stage (state : StoreState) (batch : List (UInt64 × Mutation)) :
    oneByOne state batch = ((stage state batch).1.map Executed.reply, (stage state batch).2) := by
  induction batch generalizing state with
  | nil => rfl
  | cons item rest ih =>
    obtain ⟨now, mutation⟩ := item
    simp [oneByOne, stage, ih, Executed.reply]

/-- The turn has something to persist and the backend reports an error. -/
def Turn.Fails (state : StoreState) (turn : Turn) : Prop :=
  dirty (stage state turn.batch).1 = true ∧ ∃ text, turn.persisted = .error text

/-- No turn of the list fails, where each starts from what the ones before have left. -/
def NoneFails (state : StoreState) : List Turn → Prop
  | [] => True
  | turn :: rest => ¬turn.Fails state ∧ NoneFails (oneByOne state turn.batch).2 rest

/-- The replies of a list are errors, one for each operation of the queue. -/
def AllRefused (queue : List (UInt64 × Mutation)) (replies : List Reply) : Prop :=
  List.Forall₂ (fun item reply => reply.1 = item.2 ∧ ∃ e, reply.2 = .error e) queue replies

theorem commitBatch_of_not_fails (h : ¬turn.Fails process.committed) :
    (process.commitBatch turn).2 = (oneByOne process.committed turn.batch).1 ∧
      (process.commitBatch turn).1.committed = (oneByOne process.committed turn.batch).2 ∧
      (process.commitBatch turn).1.poisoned = process.poisoned := by
  rw [oneByOne_eq_stage]
  unfold StoreProcess.commitBatch
  cases hdirty : dirty (stage process.committed turn.batch).1 with
  | false => simp [hdirty, stage_of_not_dirty hdirty]
  | true =>
    cases hpersisted : turn.persisted with
    | ok version => simp [hdirty]
    | error text => exact absurd ⟨hdirty, text, hpersisted⟩ h

theorem stage_mutations (state : StoreState) (batch : List (UInt64 × Mutation)) :
    (stage state batch).1.map (·.mutation) = batch.map Prod.snd := by
  induction batch generalizing state with
  | nil => rfl
  | cons item rest ih => simp [stage, ih]

theorem AllRefused.of_map (e : Error) : AllRefused queue (queue.map fun item => (item.2, .error e)) := by
  induction queue with
  | nil => exact .nil
  | cons item rest ih => exact .cons ⟨rfl, e, rfl⟩ ih

theorem AllRefused.not_ok {replies} (h : AllRefused queue replies) (mutation : Mutation)
    (reply : TxnOutcome) : (mutation, .ok reply) ∉ replies := by
  induction h with
  | nil => exact not_mem_nil
  | cons hfirst _ ih =>
    obtain ⟨-, e, he⟩ := hfirst
    rintro (_ | ⟨_, hmem⟩)
    · cases he
    · exact ih hmem

theorem commitBatch_of_fails (h : turn.Fails process.committed) :
    AllRefused turn.batch (process.commitBatch turn).2 ∧
      (process.commitBatch turn).1 = { process with poisoned := true } := by
  obtain ⟨hdirty, text, hpersisted⟩ := h
  have hreplies : ∀ e : Error, (stage process.committed turn.batch).1.map
      (fun item => ((item.mutation, .error e) : Reply)) = turn.batch.map fun item => (item.2, .error e) := by
    intro e
    have hmap := congrArg (map fun mutation => ((mutation, .error e) : Reply))
      (stage_mutations process.committed turn.batch)
    simpa only [map_map, Function.comp_def] using hmap
  unfold StoreProcess.commitBatch
  simp only [hdirty, hpersisted, if_true, and_true, hreplies]
  exact .of_map _

/-- The turns of a list that does not fail, with what follows them. -/
theorem runCommitLoop_append {turns} (hlive : process.poisoned = false)
    (h : NoneFails process.committed turns) (later : List Turn) :
    ∃ next : StoreProcess, next.committed = (oneByOne process.committed (queued turns)).2 ∧ next.poisoned = false ∧
      process.runCommitLoop (turns ++ later) =
        ((next.runCommitLoop later).1,
          (oneByOne process.committed (queued turns)).1 ++ (next.runCommitLoop later).2) := by
  induction turns generalizing process with
  | nil => exact ⟨process, rfl, hlive, rfl⟩
  | cons turn rest ih =>
    obtain ⟨hreplies, hstate, hpoisoned⟩ := commitBatch_of_not_fails h.1
    rw [hlive] at hpoisoned
    obtain ⟨next, hnext, hnextLive, hrun⟩ := ih hpoisoned (hstate ▸ h.2)
    rw [hstate] at hnext hrun
    refine ⟨next, ?_, hnextLive, ?_⟩
    · rw [hnext, queued_cons, oneByOne_append]
    · rw [cons_append, StoreProcess.runCommitLoop]
      simp [hpoisoned, hrun, hreplies, queued_cons, oneByOne_append]

/-- **Batching is invisible.** However a queue is grouped into batches, the replies and the state that readers and
    watchers see are those of executing its operations one at a time, as long as every batch that has to be persisted
    is. The first batch that is not leaves no trace: what is published is the state before it, all its operations and
    all later ones are answered with an error, and nothing is served any more. -/
theorem batching_invisible (process : StoreProcess) (hlive : process.poisoned = false) (turns : List Turn) :
    (NoneFails process.committed turns →
      (process.runCommitLoop turns).2 = (oneByOne process.committed (queued turns)).1 ∧
      (process.runCommitLoop turns).1.visible = .ok (oneByOne process.committed (queued turns)).2) ∧
    (∀ earlier failed later, turns = earlier ++ failed :: later → NoneFails process.committed earlier →
      failed.Fails (oneByOne process.committed (queued earlier)).2 →
      (process.runCommitLoop turns).1.committed = (oneByOne process.committed (queued earlier)).2 ∧
      (∃ e, (process.runCommitLoop turns).1.visible = .error e) ∧
      ∃ refusals, AllRefused (queued (failed :: later)) refusals ∧
        (process.runCommitLoop turns).2 = (oneByOne process.committed (queued earlier)).1 ++ refusals) := by
  refine ⟨fun hnone => ?_, ?_⟩
  · obtain ⟨next, hnext, hlive', hrun⟩ := runCommitLoop_append hlive hnone []
    rw [append_nil] at hrun
    rw [hrun]
    simp [StoreProcess.runCommitLoop, StoreProcess.visible, hlive', hnext]
  · rintro earlier failed later rfl hearlier hfails
    obtain ⟨next, hnext, hlive', hrun⟩ := runCommitLoop_append hlive hearlier (failed :: later)
    obtain ⟨hrefused, hpoisoned⟩ := commitBatch_of_fails (hnext.symm ▸ hfails)
    rw [hrun]
    simp only [StoreProcess.runCommitLoop, hpoisoned, if_true, StoreProcess.visible]
    refine ⟨hnext, ⟨_, rfl⟩, _, ?_, rfl⟩
    exact rel_append hrefused (AllRefused.of_map _)

/-! Two nodes register, one after the other; the second registration cannot be persisted. -/

def nodeLease (node : String) : NodeSessionLease := ⟨node, "session-1", "10.0.0.1:1", "10.0.0.1:2", "", [], 60000⟩

def registering (node : String) : Mutation := .registerNode ⟨node, "register-1"⟩ (nodeLease node)

def registeredOutcome (node : String) : RequestOutcome :=
  ⟨⟨node, "register-1"⟩, .registerNode, .nodeSession (StoreState.registeredSession 1000 (nodeLease node) 1)⟩

def registerTurn (node : String) (persisted : Except String UInt64) : Turn := ⟨[(1000, registering node)], persisted⟩

def freshProcess : StoreProcess := ⟨StoreState.new, 0, false⟩

theorem batching_invisible_of_full_disk :
    ∃ refusals e, AllRefused [(1000, registering "b")] refusals ∧
      (freshProcess.runCommitLoop [registerTurn "a" (.ok 1), registerTurn "b" (.error "disk full")]).2 =
        (registering "a", .ok (.committed 1 (registeredOutcome "a"))) :: refusals ∧
      (freshProcess.runCommitLoop [registerTurn "a" (.ok 1), registerTurn "b" (.error "disk full")]).1.visible =
        .error e := by
  obtain ⟨-, hfailed⟩ := batching_invisible freshProcess rfl
    [registerTurn "a" (.ok 1), registerTurn "b" (.error "disk full")]
  have hfirst : NoneFails StoreState.new [registerTurn "a" (.ok 1)] := ⟨by simp [Turn.Fails, registerTurn], trivial⟩
  obtain ⟨-, ⟨e, he⟩, refusals, hrefused, hreplies⟩ := hfailed [registerTurn "a" (.ok 1)]
    (registerTurn "b" (.error "disk full")) [] rfl hfirst ⟨by decide +kernel, _, rfl⟩
  exact ⟨refusals, e, hrefused, hreplies, he⟩

end Afs
