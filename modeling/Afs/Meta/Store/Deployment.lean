import Afs.Meta.Store.CommitLoop

/-!
# `Meta.Store.Deployment` — the store on its backend, with failures and restarts

A `Deployment` is the backend with the process that runs on it, if one does. A commit to the backend can succeed, fail
without effect, or take effect and be reported as failed; a process can stop at any time, and a new one starts from the
snapshot the backend has. The serialisation of snapshots is a parameter, assumed to read back what it has written.

The label of a step says which operations it has applied to what the backend holds and which replies it has sent. A
process that is not poisoned has published what the backend holds (`Mirrors`), so what a turn does to the published
state is what it does to the stored one.

The result is about whole runs: every request is applied at most once, what the backend holds has changed by the
operations that were applied and by nothing else, a stored outcome stays, and a reply reports the stored outcome.
-/

namespace Afs

variable {β : Type}

/-- The serialisation of snapshots. -/
structure SnapshotCodec (β : Type) where
  toVec : PersistedMemoryState → Option β
  fromSlice : β → Option PersistedMemoryState

/-- What was serialised is read back. -/
def SnapshotCodec.Lossless (codec : SnapshotCodec β) : Prop :=
  ∀ snapshot bytes, codec.toVec snapshot = some bytes → codec.fromSlice bytes = some snapshot

/-- `StoreState::from_snapshot` on the bytes. -/
def SnapshotCodec.load (codec : SnapshotCodec β) (bytes : β) : Result StoreState :=
  match codec.fromSlice bytes with
  | none => .error (invalidContract "invalid store snapshot")
  | some snapshot => StoreState.fromSnapshot snapshot

/-- `Store::open`. -/
def openStore (codec : SnapshotCodec β) : Option (UInt64 × β) → Result StoreProcess
  | some (version, bytes) => (codec.load bytes).map fun committed => ⟨committed, version, false⟩
  | none => .ok ⟨StoreState.new, 0, false⟩

structure Deployment (β : Type) where
  backend : Option (UInt64 × β)
  process : Option StoreProcess

/-- A process that is not poisoned takes a turn on operations of the services. -/
structure Deployment.Takes (d : Deployment β) (process : StoreProcess) (turn : Turn) : Prop where
  running : d.process = some process
  live : process.poisoned = false
  serviced : ∀ item ∈ turn.batch, item.2.Serviced

/-- What a step has applied and replied. -/
structure StepLabel where
  applied : List Mutation
  replies : List Reply

/-- The steps of a deployment. A process that crashes during a commit is one whose commit is reported as failed and
    that then stops; it sends fewer replies than the step says. -/
inductive DeploymentStep (codec : SnapshotCodec β) : Deployment β → StepLabel → Deployment β → Prop
  | opened (d : Deployment β) (process : StoreProcess) (h : openStore codec d.backend = .ok process) :
      DeploymentStep codec d ⟨[], []⟩ ⟨d.backend, some process⟩
  | stopped (d : Deployment β) : DeploymentStep codec d ⟨[], []⟩ ⟨d.backend, none⟩
  /-- The batch has committed nothing, and the backend is not asked. -/
  | clean (d : Deployment β) (process : StoreProcess) (turn : Turn) (htakes : d.Takes process turn)
      (hclean : dirty (stage process.committed turn.batch).1 = false) :
      DeploymentStep codec d ⟨[], (process.commitBatch turn).2⟩ ⟨d.backend, some (process.commitBatch turn).1⟩
  /-- The backend has the version it is expected to have and takes the snapshot, whether or not it reports so. -/
  | persisted (d : Deployment β) (process : StoreProcess) (turn : Turn) (version : UInt64) (bytes : β)
      (htakes : d.Takes process turn) (hdirty : dirty (stage process.committed turn.batch).1 = true)
      (hbytes : codec.toVec (stage process.committed turn.batch).2.persisted = some bytes)
      (hexpected : (d.backend.map Prod.fst).getD 0 = process.backendVersion)
      (hreport : ∀ reported, turn.persisted = .ok reported → reported = version) :
      DeploymentStep codec d
        ⟨appliedOperations (stage process.committed turn.batch).1, (process.commitBatch turn).2⟩
        ⟨some (version, bytes), some (process.commitBatch turn).1⟩
  /-- The snapshot cannot be serialised, or the backend fails without taking it. -/
  | failed (d : Deployment β) (process : StoreProcess) (turn : Turn) (text : String)
      (htakes : d.Takes process turn) (hdirty : dirty (stage process.committed turn.batch).1 = true)
      (hpersisted : turn.persisted = .error text) :
      DeploymentStep codec d ⟨[], (process.commitBatch turn).2⟩ ⟨d.backend, some (process.commitBatch turn).1⟩

/-- A run, with what its steps have applied and replied. -/
inductive DeploymentRun (codec : SnapshotCodec β) : Deployment β → StepLabel → Deployment β → Prop
  | refl (d : Deployment β) : DeploymentRun codec d ⟨[], []⟩ d
  | step {d d' d'' : Deployment β} {label label' : StepLabel} (run : DeploymentRun codec d label d')
      (step : DeploymentStep codec d' label' d'') :
      DeploymentRun codec d ⟨label.applied ++ label'.applied, label.replies ++ label'.replies⟩ d''

/-- The outcome that the backend has for a request: what a process would start with. -/
def Deployment.stored (codec : SnapshotCodec β) (d : Deployment β) (request : RequestKey) : Option RequestOutcome :=
  match openStore codec d.backend with
  | .ok process => process.committed.outcome request
  | .error _ => none

/-! ## The running process and the backend -/

section

variable (codec : SnapshotCodec β) (d : Deployment β)

/-- A process that starts now has the content of the state. -/
def Deployment.Holds (state : MemoryState) : Prop :=
  ∃ process, openStore codec d.backend = .ok process ∧ state.SameContent process.committed.toMemoryState

/-- A process that is not poisoned has published what the backend has. -/
def Deployment.Mirrors : Prop :=
  ∀ process, d.process = some process → process.poisoned = false → d.Holds codec process.committed.toMemoryState

/-- What the backend holds has changed by the operations, from what a process would have started with to what it would
    start with now. -/
def Deployment.ChangedBy (operations : List Mutation) (d' : Deployment β) : Prop :=
  ∀ before, openStore codec d.backend = .ok before →
    ∃ after, openStore codec d'.backend = .ok after ∧ AppliedInTurn before.committed operations after.committed

end

variable {codec : SnapshotCodec β} {d d' : Deployment β}

theorem Deployment.Holds.stored {state : StoreState} (h : d.Holds codec state.toMemoryState) :
    d.stored codec = state.outcome := by
  obtain ⟨process, hopen, hsame⟩ := h
  funext request
  rw [Deployment.stored, hopen]
  exact hsame.outcome request

/-- A snapshot that the backend has taken is read back. -/
theorem holds_of_persisted (hcodec : codec.Lossless) {state : StoreState} {bytes : β}
    (hbytes : codec.toVec state.persisted = some bytes) (version : UInt64) (process : Option StoreProcess) :
    Deployment.Holds codec ⟨some (version, bytes), process⟩ state.toMemoryState := by
  obtain ⟨loaded, hloaded, hsame⟩ := state.fromSnapshot_persisted
  refine ⟨⟨loaded, version, false⟩, ?_, hsame⟩
  rw [openStore, SnapshotCodec.load, hcodec _ _ hbytes]
  simp only [hloaded]
  rfl

theorem Deployment.Mirrors.of_poisoned (backend : Option (UInt64 × β)) {process}
    (h : process.poisoned = true) : Deployment.Mirrors codec ⟨backend, some process⟩ := by
  intro running hrunning hlive
  cases hrunning
  rw [h] at hlive
  cases hlive

/-- **A step keeps the published state and the backend together**, and the backend keeps its snapshot or takes that of
    a batch the process has executed. -/
theorem DeploymentStep.mirrors (hcodec : codec.Lossless) {label : StepLabel} (h : DeploymentStep codec d label d')
    (hmirrors : d.Mirrors codec) :
    d'.Mirrors codec ∧ (d'.backend = d.backend ∧ label.applied = [] ∨ ∃ process turn, d.Takes process turn ∧
      label.applied = appliedOperations (stage process.committed turn.batch).1 ∧
      d'.Holds codec (stage process.committed turn.batch).2.toMemoryState) := by
  cases h with
  | opened process hopen =>
    refine ⟨fun running hrunning _ => ?_, .inl ⟨rfl, rfl⟩⟩
    cases hrunning
    exact ⟨process, hopen, .refl _⟩
  | stopped => exact ⟨by rintro _ ⟨⟩, .inl ⟨rfl, rfl⟩⟩
  | clean process turn htakes hclean =>
    have hfails : ¬turn.Fails process.committed := fun hfails => by simp [hfails.1] at hclean
    obtain ⟨-, hstate, -⟩ := commitBatch_of_not_fails hfails
    rw [oneByOne_eq_stage, stage_of_not_dirty hclean] at hstate
    refine ⟨fun running hrunning _ => ?_, .inl ⟨rfl, rfl⟩⟩
    cases hrunning
    rw [hstate]
    exact hmirrors process htakes.running htakes.live
  | persisted process turn version bytes htakes hdirty hbytes =>
    have hholds := holds_of_persisted hcodec hbytes version (some (process.commitBatch turn).1)
    refine ⟨?_, .inr ⟨process, turn, htakes, rfl, hholds⟩⟩
    cases hpersisted : turn.persisted with
    | ok reported =>
      have hfails : ¬turn.Fails process.committed := by
        rintro ⟨_, _, herror⟩
        simp [hpersisted] at herror
      obtain ⟨-, hstate, -⟩ := commitBatch_of_not_fails hfails
      rw [oneByOne_eq_stage] at hstate
      intro running hrunning _
      cases hrunning
      rw [hstate]
      exact hholds
    | error text => exact .of_poisoned _ (by rw [(commitBatch_of_fails ⟨hdirty, text, hpersisted⟩).2])
  | failed _ _ text _ hdirty hpersisted =>
    exact ⟨.of_poisoned _ (by rw [(commitBatch_of_fails ⟨hdirty, text, hpersisted⟩).2]), .inl ⟨rfl, rfl⟩⟩

/-- A step changes what the backend holds by the operations it applies. -/
theorem DeploymentStep.changedBy (hcodec : codec.Lossless) {label} (h : DeploymentStep codec d label d')
    (hmirrors : d.Mirrors codec) : d.ChangedBy codec label.applied d' := by
  intro before hbefore
  obtain ⟨-, ⟨hbackend, happlied⟩ | ⟨process, turn, htakes, happlied, after, hafter, hsame⟩⟩ :=
    h.mirrors hcodec hmirrors
  · rw [happlied, hbackend]
    exact ⟨before, hbefore, .refl⟩
  · obtain ⟨started, hstarted, hpublished⟩ := hmirrors process htakes.running htakes.live
    obtain rfl : started = before := Except.ok.inj (hstarted.symm.trans hbefore)
    rw [happlied]
    have hstaged := stage_applied process.committed turn.batch
    exact ⟨after, hafter, ((AppliedInTurn.refl.loaded hpublished.symm).trans hstaged).loaded hsame⟩

/-- A turn that does not fail publishes its copy and replies what it has executed. -/
theorem once_of_not_fails {process turn} (htakes : d.Takes process turn) (h : ¬turn.Fails process.committed) :
    Once process.committed.outcome (appliedRequests (stage process.committed turn.batch).1)
      (process.commitBatch turn).2 (process.commitBatch turn).1.committed.outcome := by
  obtain ⟨hreplies, hstate, -⟩ := commitBatch_of_not_fails h
  rw [hreplies, hstate, oneByOne_eq_stage]
  exact stage_once htakes.serviced _

/-- A step records outcomes once. -/
theorem DeploymentStep.once (hcodec : codec.Lossless) {label : StepLabel} (h : DeploymentStep codec d label d')
    (hmirrors : d.Mirrors codec) :
    Once (d.stored codec) (label.applied.map Mutation.request) label.replies (d'.stored codec) := by
  cases h with
  | opened | stopped => exact .refl _
  | clean process turn htakes hclean =>
    have hfails : ¬turn.Fails process.committed := fun hfails => by simp [hfails.1] at hclean
    obtain ⟨-, hstate, -⟩ := commitBatch_of_not_fails hfails
    rw [oneByOne_eq_stage, stage_of_not_dirty hclean] at hstate
    have honce := once_of_not_fails htakes hfails
    rw [appliedRequests, appliedOperations_of_not_dirty hclean, hstate,
      ← (hmirrors process htakes.running htakes.live).stored] at honce
    exact honce
  | persisted process turn version _ htakes hdirty hbytes =>
    rw [(hmirrors process htakes.running htakes.live).stored,
      (holds_of_persisted hcodec hbytes version (some (process.commitBatch turn).1)).stored]
    cases hpersisted : turn.persisted with
    | ok reported =>
      have hfails : ¬turn.Fails process.committed := by
        rintro ⟨-, _, herror⟩
        simp [hpersisted] at herror
      obtain ⟨-, hstate, -⟩ := commitBatch_of_not_fails hfails
      rw [oneByOne_eq_stage] at hstate
      exact hstate ▸ once_of_not_fails htakes hfails
    | error text =>
      -- the snapshot is there but nobody is told so
      obtain ⟨hrefused, -⟩ := commitBatch_of_fails ⟨hdirty, text, hpersisted⟩
      exact (stage_once htakes.serviced _).of_errors hrefused.not_ok
  | failed _ _ text _ hdirty hpersisted =>
    obtain ⟨hrefused, -⟩ := commitBatch_of_fails ⟨hdirty, text, hpersisted⟩
    exact (Once.refl _).of_errors hrefused.not_ok

/-- A run records outcomes once, and changes what the backend holds by the operations it applies. -/
theorem DeploymentRun.once (hcodec : codec.Lossless) {label} (h : DeploymentRun codec d label d')
    (hmirrors : d.Mirrors codec) :
    Once (d.stored codec) (label.applied.map Mutation.request) label.replies (d'.stored codec) ∧
      d.ChangedBy codec label.applied d' ∧ d'.Mirrors codec := by
  induction h with
  | refl => exact ⟨.refl _, fun before hbefore => ⟨before, hbefore, .refl⟩, hmirrors⟩
  | step run step ih =>
    obtain ⟨honce, hchanged, hmirrors'⟩ := ih
    refine ⟨?_, fun before hbefore => ?_, (step.mirrors hcodec hmirrors').1⟩
    · rw [List.map_append]
      exact honce.append (step.once hcodec hmirrors')
    · obtain ⟨mid, hmid, happlied⟩ := hchanged before hbefore
      obtain ⟨after, hafter, happlied'⟩ := step.changedBy hcodec hmirrors' mid hmid
      exact ⟨after, hafter, happlied.trans happlied'⟩

/-- **Exactly-once commit.** In every run of a deployment that starts with no process, with any batches, retries,
    failed commits and restarts: no request is applied twice, and only one without an outcome is; what the backend
    holds has changed by the operations that were applied, each once, and by nothing else, so a retry that is answered
    from the stored outcome leaves entities, revision and events as they are; the outcome stored for a request stays;
    a reply reports the stored outcome, or none where none was stored; and an operation that is acknowledged was
    applied. -/
theorem exactly_once_commit (hcodec : codec.Lossless) {start d d' : Deployment β} {earlier label : StepLabel}
    (hstart : start.process = none) (hbefore : DeploymentRun codec start earlier d)
    (hrun : DeploymentRun codec d label d') :
    ((earlier.applied ++ label.applied).map Mutation.request).Nodup ∧
    d.ChangedBy codec label.applied d' ∧
    (∀ mutation ∈ label.applied, d.stored codec mutation.request = none ∧ d'.stored codec mutation.request ≠ none) ∧
    (∀ request outcome, d.stored codec request = some outcome → d'.stored codec request = some outcome) ∧
    (∀ mutation reply, (mutation, .ok reply) ∈ label.replies →
      (∀ outcome, reply.reported = some outcome → d'.stored codec mutation.request = some outcome) ∧
      (reply.reported = none → d.stored codec mutation.request = none)) ∧
    (∀ mutation revision outcome, (mutation, .ok (.committed revision outcome)) ∈ label.replies →
      mutation.request ∈ label.applied.map Mutation.request) := by
  have hmirrors : start.Mirrors codec := by
    intro process hprocess
    rw [hstart] at hprocess
    cases hprocess
  obtain ⟨honce, -, hmirrors'⟩ := hbefore.once hcodec hmirrors
  obtain ⟨honce', hchanged, -⟩ := hrun.once hcodec hmirrors'
  refine ⟨?_, hchanged, fun mutation hmem => ?_, honce'.kept, honce'.reported, honce'.acknowledged⟩
  · rw [List.map_append]
    exact (honce.append honce').nodup
  · exact honce'.fresh _ (List.mem_map_of_mem hmem)

/-! A node registers, the process stops, and the request is sent again to the next one: it is answered from the stored
outcome, and has been applied once. -/

/-- Snapshots that are kept as they are. -/
def plainSnapshots : SnapshotCodec PersistedMemoryState := ⟨some, some⟩

theorem plainSnapshots_lossless : plainSnapshots.Lossless := by
  intro snapshot bytes h
  cases h
  rfl

/-- A registration that has an outcome is answered with it. -/
theorem stage_registering_again {s outcome} (h : s.outcome (registering "a").request = some outcome) :
    stage s [(2000, registering "a")] =
      ([⟨2000, registering "a", .ok (.conditionFailed s.revision (some outcome))⟩], s) := by
  have hexecute : (registering "a").execute 2000 s = (.ok (.conditionFailed s.revision (some outcome)), s) := by
    simp only [registering, Mutation.execute, Mutation.request, StoreState.registerNodeSession] at h ⊢
    rw [if_neg (by decide), h]
  simp only [stage, hexecute]

theorem exactly_once_commit_after_restart :
    ∃ (label : StepLabel) (d : Deployment PersistedMemoryState) (revision : StoreRevision),
      DeploymentRun plainSnapshots ⟨none, none⟩ label d ∧
        (registering "a", .ok (.committed 1 (registeredOutcome "a"))) ∈ label.replies ∧
        (registering "a", .ok (.conditionFailed revision (some (registeredOutcome "a")))) ∈ label.replies ∧
        Deployment.ChangedBy plainSnapshots ⟨none, none⟩ [registering "a"] d ∧
        d.stored plainSnapshots (registering "a").request = some (registeredOutcome "a") := by
  have hreplies : (freshProcess.commitBatch (registerTurn "a" (.ok 1))).2 =
      [(registering "a", .ok (.committed 1 (registeredOutcome "a")))] := rfl
  have hserviced : (registering "a").Serviced := by
    simp [registering, Mutation.Serviced]
  have hopened := DeploymentRun.step (.refl ⟨none, none⟩) (.opened ⟨none, none⟩ freshProcess
    (show openStore plainSnapshots none = _ from rfl))
  have hregistered := DeploymentRun.step hopened (.persisted _ freshProcess (registerTurn "a" (.ok 1)) 1 _
    ⟨rfl, rfl, by simpa [registerTurn] using hserviced⟩ (by decide +kernel) rfl rfl (by simp [registerTurn]))
  have hstopped := DeploymentRun.step hregistered (.stopped _)
  -- the next process has the outcome from the snapshot
  obtain ⟨loaded, hloaded, hsame⟩ := (stage StoreState.new (registerTurn "a" (.ok 1)).batch).2.fromSnapshot_persisted
  have houtcome : loaded.outcome (registering "a").request = some (registeredOutcome "a") := hsame.outcome _
  have hreopened := DeploymentRun.step hstopped (.opened _ ⟨loaded, 1, false⟩ (by
    rw [openStore, SnapshotCodec.load]
    exact congrArg (Except.map _) hloaded))
  have hstage := stage_registering_again houtcome
  have hclean : dirty (stage loaded [(2000, registering "a")]).1 = false := by
    rw [hstage]
    rfl
  have hretried := DeploymentRun.step hreopened (.clean _ ⟨loaded, 1, false⟩ ⟨[(2000, registering "a")], .ok 1⟩
    ⟨rfl, rfl, by simpa using hserviced⟩ hclean)
  have hretry : (StoreProcess.commitBatch ⟨loaded, 1, false⟩ ⟨[(2000, registering "a")], .ok 1⟩).2 =
      [(registering "a", .ok (.conditionFailed loaded.revision (some (registeredOutcome "a"))))] := by
    simp only [StoreProcess.commitBatch, hstage]
    rfl
  obtain ⟨-, hchanged, -, -, hreported, -⟩ := exactly_once_commit plainSnapshots_lossless rfl (.refl _) hretried
  have hmem : (registering "a", .ok (.committed 1 (registeredOutcome "a"))) ∈
      ([] ++ [] ++ (freshProcess.commitBatch (registerTurn "a" (.ok 1))).2 ++ [] ++ [] ++
        (StoreProcess.commitBatch ⟨loaded, 1, false⟩ ⟨[(2000, registering "a")], .ok 1⟩).2 : List Reply) := by
    simp [hreplies]
  refine ⟨_, _, loaded.revision, hretried, hmem, ?_, hchanged, (hreported _ _ hmem).1 _ rfl⟩
  simp [hretry]

end Afs
