import Afs.Lib.Phases
import Afs.Meta.Dfs.Guarantee
import Afs.Meta.OwnerRoots.Authority

/-!
# `Meta.OwnerRoots.Runs` — runs of the root authority

Any number of requests run against one store, each between its reads and its commit interleaved with the others, while
nodes register and other services commit transactions of their own. `OwnerIssued` says which transactions a request may
submit and what it has read to make them: a request relies on `rely` from its first operation on, so what it read is
related to the state of the commit by `rely` and by nothing else. With a `rely` that says nothing the transactions are
known by their shape only, which is what holds in every run.
-/

namespace Afs.OwnerRoots

open Interaction Relation StoreState

variable {entity : Option MetaEntity} {root : RootRecord} {store : StoreState} {id : String} {response : OwnerResponse}

/-! ## Runs -/

abbrev OwnerPool := Pool OwnerRequest StoreOp StoreOp.Reply Error OwnerResponse System

/-- The keys of the records that the root authority decides by. -/
def ofRoot : MetaKey → Bool
  | .root _ | .rootReservation _ | .rootGrant _ _ _ => true
  | _ => false

def ownerOperations : List StoreOperation :=
  [.reserveRoot, .abortRoot, .activateRoot, .acquireRoot, .recoverRoot, .ackRootCommand]

/-- A transaction of another service, or one that issues or withdraws root commands: it leaves reservations, roots and
    grants alone and records one outcome, its own. -/
structure OtherTxn (txn : MetaTxn) : Prop where
  operation : txn.operation ∉ ownerOperations
  targets : ∀ mutation ∈ txn.mutations, ∀ key, mutation.target = some key → ofRoot key = false
  records : ∀ outcome, .recordRequestOutcome outcome ∈ txn.mutations →
    outcome.request = txn.request ∧ outcome.operation = txn.operation

/-- What happens to the store besides the requests of the root authority. -/
inductive OwnerEnv (tick : Tick) (s : System) : System → Prop
  | tick (clock : UInt64) (h : tick s.clock clock) : OwnerEnv tick s ⟨s.store, clock⟩
  | register (request : RequestKey) (lease : NodeSessionLease) :
      OwnerEnv tick s ⟨(s.store.registerNodeSession s.clock request lease).2, s.clock⟩
  | other (txn : MetaTxn) (h : OtherTxn txn) : OwnerEnv tick s ⟨(s.store.compareAndCommit s.clock txn).2, s.clock⟩

/-- What the store does with an operation of a request. -/
abbrev ownerServe (_ : OwnerRequest) : System → (op : StoreOp) → op.Reply → System → Prop := serve

/-- A condition on the steps of a run. -/
abbrev StepCondition := OwnerPool → OwnerPool → Prop

def anyStep : StepCondition := fun _ _ => True

/-- One step of a run: a request acts or arrives, the environment acts, or a request is given up. -/
inductive OwnerStep (tick : Tick) (condition : StepCondition) (c c' : OwnerPool) : Prop
  | step (h : Pool.Step ownerServe (OwnerEnv tick) handle c c') (hcondition : condition c c')
  | abandoned (h : c.Abandons c')

abbrev OwnerRun (tick : Tick) (condition : StepCondition) :=
  ReflTransGen (OwnerStep tick condition)

/-- A pool that a run from an empty store leads to. -/
def OwnerReachable (tick : Tick) (condition : StepCondition) (c : OwnerPool) : Prop :=
  ∃ clock, OwnerRun tick condition ⟨⟨StoreState.new, clock⟩, []⟩ c

/-- The transaction of request `i` takes effect in the step. -/
structure Commits (c : OwnerPool) (i : Nat) (r : OwnerRequest) (txn : MetaTxn) (c' : OwnerPool) : Prop where
  act : ∃ reply, Pool.Act ownerServe c i r (.commit txn) reply c'
  applies : ∃ outcome, c.state.Applies txn outcome
  state : c'.state = committed c.state txn

/-- Request `i` has been answered. -/
def Answers (c : OwnerPool) (i : Nat) (r : OwnerRequest) (response : OwnerResponse) : Prop :=
  c.procs[i]? = some (r, .ret response)

/-! ## The transactions of a request -/

variable {rely : Rely} {s s' : System} {r : OwnerRequest} {txn : MetaTxn}

/-- **The transactions of a request**, at the state the store receives them in, with what was read to make them. -/
inductive OwnerIssued (rely : Rely) (s : System) : OwnerRequest → MetaTxn → Prop
  | reserve (input : ReserveRootInput) : OwnerIssued rely s (.reserve input) (reserveTxn input)
  | activate {input record}
      (hid : record.rootId = input.reservation.rootId) (hpresents : input.reservation.presents record = true) :
      OwnerIssued rely s (.activate input) (activateTxn input record)
  | abort {input record} (hid : record.rootId = input.rootId) :
      OwnerIssued rely s (.abort input) (abortTxn input record)
  | acquire {input s₁ s₂ root home held} (h₁₂ : rely s₁ s₂) (h₂ : rely s₂ s)
      (hroot : s₁.store.get (.root input.rootId) = some (.root root))
      (hhome : s₂.store.get (.rootGrant input.rootId root.homeNodeId root.homeSessionId) = some (.rootGrant home)) :
      OwnerIssued rely s (.acquire input) (acquireTxn input root home held)
  | ack (input : AckRevocationInput) : OwnerIssued rely s (.ack input) (ackTxn input)
  | recover {input s₁ s₂ root} (h₁₂ : rely s₁ s₂) (h₂ : rely s₂ s)
      (hroot : s₁.store.get (.root input.rootId) = some (.root root)) (hnames : input.names root = true) :
      OwnerIssued rely s (.recover input) (recoverTxn input root
        (nextGeneration (grantOf (s₂.store.get (.rootGrant input.rootId root.homeNodeId root.homeSessionId)))))

theorem reservationOf_eq_some {record} :
    reservationOf entity = some record ↔ entity = some (.rootReservation record) := by
  unfold reservationOf
  split <;> simp_all

theorem rootOf_eq_some : rootOf entity = some root ↔ entity = some (.root root) := by
  unfold rootOf
  split <;> simp_all

theorem grantOf_eq_some {grant} : grantOf entity = some grant ↔ entity = some (.rootGrant grant) := by
  unfold grantOf
  split <;> simp_all

theorem rootId_of_get (h : store.get (.root id) = some (.root root)) : root.rootId = id := by
  simpa [entityKey] using entityKey_of_get h nofun

theorem reservationId_of_get {record}
    (h : store.get (.rootReservation id) = some (.rootReservation record)) : record.rootId = id := by
  simpa [entityKey] using entityKey_of_get h nofun

/-- A transaction of a request is made by `ownerTxn`: it records one outcome, after all it writes. -/
theorem OwnerIssued.shape (h : OwnerIssued rely s r txn) :
    ∃ key operation conditions mutations result, txn = ownerTxn key operation conditions mutations result ∧
      operation ∈ ownerOperations ∧ (∀ outcome, .recordRequestOutcome outcome ∉ mutations) := by
  cases h <;> exact ⟨_, _, _, _, _, rfl, by decide, by simp⟩

/-! ## One request on its own -/

/-- The result is recorded for the request, under its operation. -/
def Recorded (s : System) (key : RequestKey) (operation : StoreOperation) (result : OperationResult) : Prop :=
  ∃ outcome, s.store.outcome key = some outcome ∧ outcome.operation = operation ∧ outcome.result = result

def ownerGuarantee (rely : OwnerRequest → Rely) (r : OwnerRequest) (s : System) :
    (op : StoreOp) → op.Reply → System → Prop
  | .commit txn, _, _ => OwnerIssued (rely r) s r txn
  | _, _, _ => True

/-- The grant that a recovery answers is the one that is recorded for it. -/
def ownerRecord : OwnerRequest → OwnerResponse → System → Prop
  | .recover input, .granted grant, s => Recorded s input.key .recoverRoot (.rootGrant grant)
  | _, _, _ => True

/-- What holds when a request answers: besides, a validation has just read the grant it answers. -/
def ownerAnswer : OwnerRequest → OwnerResponse → System → Prop
  | .validate input, .validated output, s =>
    (s.store.read s.clock input.read).entity = some (.rootGrant output.grant)
  | r, response, s => ownerRecord r response s

theorem ownerRecord_of_answer (h : ownerAnswer r response s) : ownerRecord r response s := by
  unfold ownerAnswer at h
  split at h
  · trivial
  · exact h

/-- What a transaction of a request records when it is applied. -/
theorem OwnerIssued.recorded {outcome} (h : OwnerIssued rely s r txn) (happlies : s.Applies txn outcome) :
    Recorded (committed s txn) txn.request txn.operation outcome.result := by
  obtain ⟨key, operation, conditions, mutations, result, rfl, -, hnone⟩ := h.shape
  have hrecorded := happlies.recorded
  rw [MetaTxn.recordedOutcome, ownerTxn, List.findSome?_append, List.findSome?_eq_none_iff.mpr] at hrecorded
  · cases hrecorded
    refine ⟨⟨key, operation, result⟩, ?_, rfl, rfl⟩
    show (s.store.applyMutations (mutations ++ [_])).outcome key = _
    rw [outcome_applyMutations, List.foldl_append]
    exact if_pos rfl
  · intro mutation hmem
    cases mutation with
    | put entity => rfl
    | delete key => rfl
    | recordRequestOutcome outcome => exact absurd hmem (hnone outcome)

section Safe

variable {rely : OwnerRequest → Rely} {α : Type}

/-- A request is safe: what it submits is `OwnerIssued`, and its answers meet `post`. -/
abbrev OwnerSafe (rely : OwnerRequest → Rely) (r : OwnerRequest) (post : α → System → Prop)
    (p : OwnerProg α) (s : System) : Prop := Safe serve (rely r) (ownerGuarantee rely r) post p s

theorem safe_storeRead {q} {post : MetaSnapshot → System → Prop}
    (h : ∀ s₁, rely r s s₁ → post (s₁.store.read s₁.clock q) s₁) : OwnerSafe rely r post (storeRead q) s := by
  intro s₁ hs₁ reply s₂ hserve
  obtain ⟨rfl, rfl | ⟨message, rfl⟩⟩ := hserve
  · exact ⟨trivial, h _ hs₁⟩
  · exact ⟨trivial, trivial⟩

theorem serve_committed {revision outcome} (h : serve s (.commit txn) (.ok (.committed revision outcome)) s') :
    s.Applies txn outcome ∧ s' = committed s txn := by
  obtain ⟨hclock, he | ⟨⟨message, hmessage⟩, -⟩⟩ := h
  · have hcases := s.store.compareAndCommit_cases s.clock txn
    have heq : s' = ⟨s'.store, s.clock⟩ := by cases s'; cases hclock; rfl
    rw [← he] at hcases
    generalize s'.store = store at hcases heq
    subst heq
    cases hcases with
    | applied _ happlies => exact ⟨happlies, rfl⟩
  · cases hmessage

theorem safe_commitOrReplay {post : OperationResult → System → Prop}
    (hissued : ∀ s₁, rely r s s₁ → OwnerIssued (rely r) s₁ r txn)
    (hpost : ∀ result s₂, Recorded s₂ txn.request txn.operation result → post result s₂) :
    OwnerSafe rely r post (commitOrReplay txn) s := by
  intro s₁ hs₁ reply s₂ hserve
  refine ⟨hissued s₁ hs₁, ?_⟩
  cases reply with
  | error e => trivial
  | ok reply =>
    cases reply with
    | committed =>
      obtain ⟨happlies, rfl⟩ := serve_committed hserve
      exact hpost _ _ ((hissued s₁ hs₁).recorded happlies)
    | conditionFailed revision existing =>
      cases existing with
      | none => trivial
      | some outcome =>
        show Safe _ _ _ _ (if outcome.operation = txn.operation then _ else _) _
        by_cases hop : outcome.operation = txn.operation
        · rw [if_pos hop]
          rcases serve_commit_outcome hserve (.inr ⟨revision, rfl⟩) with ⟨happlies, rfl⟩ | ⟨rfl, hout⟩
          · exact hpost _ _ ((hissued s₁ hs₁).recorded happlies)
          · exact hpost _ _ ⟨outcome, hout, hop, rfl⟩
        · rw [if_neg hop]
          trivial

/-- **Every request is safe**, whatever it relies on. -/
theorem ownerSafe_handle (htrans : ∀ r s₁ s₂ s₃, rely r s₁ s₂ → rely r s₂ s₃ → rely r s₁ s₃)
    (r : OwnerRequest) (s : System) : OwnerSafe rely r (ownerAnswer r) (handle r) s := by
  cases r with (simp only [handle, reserveRoot, activateRoot, abortRoot, lookupRoot, acquireRoot, validateRootAccess,
    ackRevocation, recoverRoot, safe_map, safe_bind, safe_require, safe_check, safe_lift])
  | reserve input =>
    refine safe_storeRead fun s₁ _ => ?_
    split
    · trivial
    · rw [safe_bind]
      refine safe_commitOrReplay (fun s₂ _ => .reserve input) fun result s₂ _ => ?_
      split <;> trivial
  | activate input =>
    refine safe_storeRead fun s₁ _ record hread hpresents => ?_
    rw [entity_read rfl fun _ => rfl, reservationOf_eq_some] at hread
    refine safe_commitOrReplay (fun s₂ _ => .activate (reservationId_of_get hread) hpresents) fun result s₂ _ => ?_
    split <;> trivial
  | abort input =>
    refine safe_storeRead fun s₁ _ record hread _ _ _ _ => ?_
    rw [entity_read rfl fun _ => rfl, reservationOf_eq_some] at hread
    exact safe_commitOrReplay (fun s₂ _ => .abort (reservationId_of_get hread)) fun result s₂ _ => trivial
  | lookup rootId =>
    exact safe_storeRead fun s₁ _ => trivial
  | acquire input =>
    refine safe_storeRead fun s₁ _ root hroot _ => ?_
    rw [entity_read rfl fun _ => rfl, rootOf_eq_some] at hroot
    rw [rootId_of_get hroot]
    refine safe_storeRead fun s₂ h₁₂ home hhome _ => ?_
    rw [entity_read rfl fun _ => rfl, grantOf_eq_some] at hhome
    refine safe_storeRead fun s₃ h₂₃ held _ => ?_
    refine safe_commitOrReplay (fun s₄ h₃₄ => .acquire h₁₂ (htrans _ _ _ _ h₂₃ h₃₄) hroot hhome) fun result _ _ => ?_
    split <;> trivial
  | validate input =>
    exact safe_storeRead fun s₁ _ grant hgrant => grantOf_eq_some.mp hgrant
  | ack input =>
    refine safe_commitOrReplay (fun s₂ _ => .ack input) fun result s₂ _ => ?_
    split
    · rw [safe_bind, safe_check]
      exact fun _ _ _ _ _ _ => ⟨trivial, trivial⟩
    · trivial
  | recover input =>
    refine safe_storeRead fun s₁ _ root hroot hnames => ?_
    rw [entity_read rfl fun _ => rfl, rootOf_eq_some] at hroot
    rw [rootId_of_get hroot]
    refine safe_storeRead fun s₂ h₁₂ => ?_
    rw [entity_read rfl fun _ => rfl]
    refine safe_commitOrReplay (fun s₃ h₂₃ => .recover h₁₂ h₂₃ hroot hnames) fun result s₃ hrecorded => ?_
    split
    · simp only [RecoverRootInput.names, Bool.and_eq_true, decide_eq_true_eq] at hnames
      rw [recoverTxn, ownerTxn, hnames.1.1] at hrecorded
      exact hrecorded
    · trivial

end Safe

/-! ## Steps -/

/-- **Reservations, roots and grants stay as they are**, and no outcome of the root authority is added. -/
structure RootsAside (s s' : System) : Prop where
  get : ∀ key, ofRoot key = true → s'.store.get key = s.store.get key
  outcome : ∀ request, s'.store.outcome request = s.store.outcome request ∨
    s.store.outcome request = none ∧ ∃ outcome, s'.store.outcome request = some outcome ∧
      outcome.operation ∉ ownerOperations

theorem RootsAside.refl (s : System) : RootsAside s s := ⟨fun _ _ => rfl, fun _ => .inl rfl⟩

theorem OtherTxn.aside {outcome} (h : OtherTxn txn) (happlies : s.Applies txn outcome) :
    RootsAside s (committed s txn) where
  get key hkey := by
    refine MemoryState.get_applyMutations_of_untouched fun mutation hm htarget => ?_
    rw [h.targets mutation hm key htarget] at hkey
    cases hkey
  outcome request := by
    rcases outcome_cases_of_applies happlies h.records request with hsame | ⟨hfresh, outcome', hnew, hop⟩
    · exact .inl hsame
    · exact .inr ⟨hfresh, outcome', hnew, hop ▸ h.operation⟩

theorem OwnerEnv.aside {tick} (h : OwnerEnv tick s s') : RootsAside s s' := by
  cases h with
  | tick clock h => exact ⟨fun _ _ => rfl, fun _ => .inl rfl⟩
  | register request lease =>
    obtain ⟨hget, hout⟩ := registerNodeSession_aside s.store s.clock request lease
    refine ⟨fun key hkey => hget key ?_ ?_, fun request' => ?_⟩
    · rintro node rfl
      cases hkey
    · rintro node session rfl
      cases hkey
    · rcases hout request' with hsame | ⟨hfresh, outcome, hnew, hop⟩
      · exact .inl hsame
      · refine .inr ⟨hfresh, outcome, hnew, ?_⟩
        rw [hop]
        decide
  | other txn htxn =>
    rcases s.store.compareAndCommit_eq s.clock txn with hsame | ⟨outcome, happlies, hnext⟩
    · rw [hsame]
      exact .refl s
    · rw [hnext]
      exact htxn.aside happlies

/-- The transactions of the root authority are those that the file system service has in its environment. -/
theorem OwnerIssued.ownerFsTxn (h : OwnerIssued rely s r txn) : OwnerFsTxn txn where
  operation := by
    have hsub : ∀ operation ∈ ownerOperations, operation ∈ [.reserveRoot, .abortRoot, .activateRoot, .acquireRoot,
        .recoverRoot, .beginRootRevocation, .commitRootRevocation, .ackRootCommand] := by decide
    obtain ⟨key, operation, conditions, mutations, result, rfl, hop, -⟩ := h.shape
    exact hsub operation hop
  targets := by
    intro mutation hm key htarget
    cases h <;> simp only [reserveTxn, activateTxn, abortTxn, acquireTxn, ackTxn, recoverTxn, ownerTxn,
      List.cons_append,
      List.nil_append, List.mem_cons, List.not_mem_nil, or_false] at hm <;>
      (rcases hm with rfl | rfl | rfl | rfl <;> cases htarget <;> simp [entityKey])
  records := by
    obtain ⟨key, operation, conditions, mutations, result, rfl, -, hnone⟩ := h.shape
    intro outcome hmem
    rcases List.mem_append.mp hmem with hold | hlast
    · exact absurd hold (hnone outcome)
    · cases List.mem_singleton.mp hlast
      exact ⟨rfl, rfl⟩

/-! ## Calm pools -/

section Calm

variable {tick : Tick} {condition : StepCondition} {rely : OwnerRequest → Rely}
  {c c' : OwnerPool}

/-- Every request of the pool is safe from the present state. -/
abbrev OwnerCalm (rely : OwnerRequest → Rely) (c : OwnerPool) : Prop :=
  Pool.Calm ownerServe rely (ownerGuarantee rely) ownerAnswer c

abbrev OwnerGuarantees (rely : OwnerRequest → Rely) : Prop :=
  Guarantees ownerServe handle rely (ownerGuarantee rely) ownerAnswer

theorem ownerGuarantees (hrefl : ∀ r s, rely r s s)
    (htrans : ∀ r s₁ s₂ s₃, rely r s₁ s₂ → rely r s₂ s₃ → rely r s₁ s₃) : OwnerGuarantees rely :=
  ⟨hrefl, htrans, ownerSafe_handle htrans⟩

/-- What one step of a calm pool is. -/
inductive OwnerStepCase (rely : OwnerRequest → Rely) (condition : StepCondition) (c c' : OwnerPool) :
    Prop
  | aside (h : RootsAside c.state c'.state)
  | commits (i : Nat) (r : OwnerRequest) (txn : MetaTxn) (h : Commits c i r txn c')
      (hissued : OwnerIssued (rely r) c.state r txn) (hcondition : condition c c')

/-- An operation changes nothing, or it is a commit that takes effect. -/
theorem commits_of_act {i op reply} (hact : Pool.Act ownerServe c i r op reply c') :
    c'.state = c.state ∨ ∃ txn, op = .commit txn ∧ Commits c i r txn c' := by
  by_cases hop : ∃ txn, op = .commit txn
  · obtain ⟨txn, rfl⟩ := hop
    rcases serve_commit hact.state with hsame | ⟨outcome, happlies, hstate⟩
    · exact .inl hsame
    · exact .inr ⟨txn, rfl, ⟨reply, hact⟩, ⟨outcome, happlies⟩, hstate⟩
  · exact .inl (serve_eq hact.state fun txn he => hop ⟨txn, he⟩)

theorem OwnerCalm.issued (h : OwnerGuarantees rely) (hcalm : OwnerCalm rely c) {i}
    (hcommits : Commits c i r txn c') : OwnerIssued (rely r) c.state r txn := by
  obtain ⟨reply, hact⟩ := hcommits.act
  exact hcalm.act h hact

theorem OwnerCalm.step_cases (h : OwnerGuarantees rely) (hcalm : OwnerCalm rely c)
    (hstep : OwnerStep tick condition c c') : OwnerStepCase rely condition c c' := by
  cases hstep with
  | step hstep hcondition =>
    cases hstep with
    | act i r op reply hact =>
      rcases commits_of_act hact with hsame | ⟨txn, -, hcommits⟩
      · exact .aside (hsame ▸ .refl _)
      · exact .commits i r txn hcommits (hcalm.issued h hcommits) hcondition
    | arrive r he =>
      subst he
      exact .aside (.refl _)
    | env he hprocs => exact .aside he.aside
  | abandoned habandons =>
    obtain ⟨i, r, p, e, -, rfl⟩ := habandons
    exact .aside (.refl _)

theorem OwnerStepCase.outcome (h : OwnerStepCase rely condition c c') {request outcome}
    (hout : c.state.store.outcome request = some outcome) : c'.state.store.outcome request = some outcome := by
  cases h with
  | aside haside =>
    rcases haside.outcome request with hsame | ⟨hnone, -⟩
    · rw [hsame, hout]
    · rw [hnone] at hout
      cases hout
  | commits i r txn hcommits hissued _ =>
    obtain ⟨_, happlies⟩ := hcommits.applies
    rw [hcommits.state]
    exact outcome_of_applies happlies (fun o ho => (hissued.ownerFsTxn.records o ho).1) hout

/-- Answers given stay right. -/
theorem OwnerStepCase.record (h : OwnerStepCase rely condition c c') (ha : ownerRecord r response c.state) :
    ownerRecord r response c'.state := by
  unfold ownerRecord at ha ⊢
  split
  · obtain ⟨outcome, hout, hop, hresult⟩ := ha
    exact ⟨outcome, h.outcome hout, hop, hresult⟩
  · trivial

/-- **One step of a calm pool**, when a commit leaves the other requests under way what they rely on. -/
theorem OwnerCalm.next (h : OwnerGuarantees rely) (hcalm : OwnerCalm rely c) (hstep : OwnerStep tick condition c c')
    (haside : RootsAside c.state c'.state → ∀ r, rely r c.state c'.state)
    (hothers : ∀ i r txn, condition c c' → Commits c i r txn c' → OwnerIssued (rely r) c.state r txn →
      ∀ j r' p, j ≠ i → c.procs[j]? = some (r', p) → UnderWay handle r' p → rely r' c.state c'.state) :
    OwnerCalm rely c' := by
  cases hstep with
  | step hstep hcondition =>
    refine Pool.Calm.next h hcalm hstep ?_ fun henv => haside henv.aside
    intro i r op reply hact j r' p hij hp hway
    rcases commits_of_act hact with hsame | ⟨txn, -, hcommits⟩
    · rw [hsame]
      exact h.refl _ _
    · exact hothers i r txn hcondition hcommits (hcalm.issued h hcommits) j r' p hij hp hway
  | abandoned habandons => exact Pool.Calm.abandon hcalm habandons

theorem OwnerCalm.answered (h : OwnerGuarantees rely) (hcalm : OwnerCalm rely c) (hstep : OwnerStep tick condition c c')
    (hanswered : Pool.Answered ownerRecord c) : Pool.Answered ownerRecord c' := by
  have hcase := hcalm.step_cases h hstep
  cases hstep with
  | step hstep =>
    exact hanswered.next h hcalm hstep (fun _ _ _ => ownerRecord_of_answer) fun _ _ => hcase.record
  | abandoned habandons => exact hanswered.abandon habandons

/-! ## Any run -/

/-- A request that relies on nothing. -/
def anyChange : OwnerRequest → System → System → Prop := fun _ _ _ => True

theorem anyChange_guarantees : OwnerGuarantees anyChange :=
  ownerGuarantees (fun _ _ => trivial) fun _ _ _ _ _ _ => trivial

section

variable (h : OwnerReachable tick condition c)

include h

theorem OwnerReachable.calm : OwnerCalm anyChange c := by
  obtain ⟨clock, hrun⟩ := h
  induction hrun with
  | refl => exact Pool.Calm.nil _
  | tail _ hstep ih =>
    exact ih.next anyChange_guarantees hstep (fun _ _ => trivial) fun _ _ _ _ _ _ _ _ _ _ _ _ => trivial

theorem OwnerReachable.answered : Pool.Answered ownerRecord c := by
  obtain ⟨clock, hrun⟩ := h
  induction hrun with
  | refl => exact Pool.Answered.nil _
  | tail hbefore hstep ih =>
    exact (OwnerReachable.calm ⟨clock, hbefore⟩).answered anyChange_guarantees hstep ih

theorem OwnerReachable.step_cases (hstep : OwnerStep tick condition c c') :
    OwnerStepCase anyChange condition c c' := h.calm.step_cases anyChange_guarantees hstep

theorem OwnerReachable.step (hstep : OwnerStep tick condition c c') : OwnerReachable tick condition c' := by
  obtain ⟨clock, hrun⟩ := h
  exact ⟨clock, hrun.tail hstep⟩

theorem OwnerReachable.run (hrun : OwnerRun tick condition c c') : OwnerReachable tick condition c' := by
  obtain ⟨clock, hbefore⟩ := h
  exact ⟨clock, hbefore.trans hrun⟩

end

/-- **Invariants of runs**: what other steps leave alone and every transaction of the authority keeps. -/
theorem OwnerReachable.run_invariant {I : System → Prop} (haside : ∀ s s', RootsAside s s' → I s → I s')
    (hcommit : ∀ r s txn outcome, I s → OwnerIssued (anyChange r) s r txn → s.Applies txn outcome →
      I (committed s txn))
    (h : OwnerReachable tick condition c) (hrun : OwnerRun tick condition c c') (hI : I c.state) : I c'.state := by
  induction hrun with
  | refl => exact hI
  | tail hbefore hstep ih =>
    cases (h.run hbefore).step_cases hstep with
    | aside h => exact haside _ _ h ih
    | commits i r txn hcommits hissued _ =>
      obtain ⟨outcome, happlies⟩ := hcommits.applies
      rw [hcommits.state]
      exact hcommit r _ txn outcome ih hissued happlies

end Calm

end Afs.OwnerRoots
