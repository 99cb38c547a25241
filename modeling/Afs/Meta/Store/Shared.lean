import Afs.Meta.Store.Deployment
import Mathlib.Data.List.Induction

/-!
# `Meta.Store.Shared` — several stores on one backend

Two processes, or any number of them, run on the same backend. Each has its own copy of the state and learns of the
others only when a commit of its own is refused. A commit is sent, taken or refused by the backend, and reported, in
separate steps, and anything may happen in between; a commit of a process that has stopped may still reach the
backend.

`history` is what the backend has taken, in order, with the versions it has given. A store that is not poisoned has
the state of some version of it (`Knows`), because the backend takes a commit only from a store that knows the newest
one. Everything that is acknowledged is then in the history, and the history is a sequence of states each of which has
changed by the operations applied in it and by nothing else (`stores_share_one_history`).

A read takes the published state while the store is available and answers from it afterwards; a `MetaReadView` keeps
it for any number of reads. Whether the store is still available is not asked again, so a view that is open when a
commit is lost goes on serving the old state (`view_serves_after_lost_commit`).
-/

namespace Afs

open List Function

variable {β ι : Type}

/-! ## The stores and the backend -/

/-- A commit that the backend is asked for: the version it expects, and the batch on the state it was executed on. -/
structure Attempt where
  expected : UInt64
  base : StoreState
  batch : List (UInt64 × Mutation)

def Attempt.executed (attempt : Attempt) : List Executed := (stage attempt.base attempt.batch).1

def Attempt.result (attempt : Attempt) : StoreState := (stage attempt.base attempt.batch).2

/-- A commit that the backend has taken, with the version it has given to it. -/
structure Commit extends Attempt where
  version : UInt64

/-- A store, with the batch it has sent to the backend and the answer, once there is one. -/
structure SharedStore where
  process : StoreProcess
  inFlight : Option (List (UInt64 × Mutation) × Option (Except String UInt64))

structure Shared (β ι : Type) where
  backend : Option (UInt64 × β)
  stores : ι → Option SharedStore
  /-- The states that reads and views of a store have taken and may still answer from. -/
  views : List (ι × StoreState)
  /-- The commits of processes that have stopped. The backend may still receive them. -/
  strays : List Attempt
  /-- The commits that the backend has taken. -/
  history : List Commit

def Shared.initial : Shared β ι := ⟨none, fun _ => none, [], [], []⟩

/-- The version that a commit has to expect. -/
def storedVersion (backend : Option (UInt64 × β)) : UInt64 := (backend.map Prod.fst).getD 0

/-- `commit`: the backend takes a snapshot for the version that it has, under a new one. The local file and Redis count
    their versions; etcd gives the revision of its whole cluster, which has grown since by any number. -/
structure Takes (codec : SnapshotCodec β) (backend : Option (UInt64 × β)) (attempt : Attempt)
    (backend' : Option (UInt64 × β)) (version : UInt64) : Prop where
  expected : storedVersion backend = attempt.expected
  newer : attempt.expected < version
  stored : ∃ bytes, codec.toVec attempt.result.persisted = some bytes ∧ backend' = some (version, bytes)

/-- What can be seen of a step from outside. -/
inductive SharedEvent (ι : Type)
  | opened (i : ι)
  | stopped (i : ι)
  /-- A read was served from this state. -/
  | served (i : ι) (state : StoreState)
  | replied (i : ι) (replies : List Reply)
  /-- The backend has reported an error. -/
  | lost (i : ι) (replies : List Reply)
  | internal

/-- The commit that the store has sent and that the backend has not answered stays on its way. -/
def straysOf : Option SharedStore → List Attempt
  | some ⟨process, some (batch, none)⟩ => [⟨process.backendVersion, process.committed, batch⟩]
  | _ => []

variable [DecidableEq ι]

/-- The views of a process end with it. -/
def Shared.viewsWithout (s : Shared β ι) (i : ι) : List (ι × StoreState) := s.views.filter (·.1 ≠ i)

/-- A step of one of the stores or of the backend. -/
inductive SharedStep (codec : SnapshotCodec β) : Shared β ι → SharedEvent ι → Shared β ι → Prop
  | opened (s : Shared β ι) (i : ι) (process : StoreProcess) (h : openStore codec s.backend = .ok process) :
      SharedStep codec s (.opened i)
        { s with
          stores := Function.update s.stores i (some ⟨process, none⟩)
          views := s.viewsWithout i
          strays := s.strays ++ straysOf (s.stores i) }
  | stopped (s : Shared β ι) (i : ι) :
      SharedStep codec s (.stopped i)
        { s with
          stores := Function.update s.stores i none
          views := s.viewsWithout i
          strays := s.strays ++ straysOf (s.stores i) }
  /-- A read or `read_view` takes the published state, if the store is available. -/
  | pinned (s : Shared β ι) (i : ι) (store : SharedStore) (state : StoreState) (hstore : s.stores i = some store)
      (hvisible : store.process.visible = .ok state) :
      SharedStep codec s .internal { s with views := s.views ++ [(i, state)] }
  /-- `MetaReadView::read`, or the end of a read: it answers from the state that was taken. -/
  | served (s : Shared β ι) (i : ι) (state : StoreState) (hview : (i, state) ∈ s.views) :
      SharedStep codec s (.served i state) s
  /-- Views are dropped. -/
  | released (s : Shared β ι) (views : List (ι × StoreState)) (hviews : views <+ s.views) :
      SharedStep codec s .internal { s with views }
  /-- A batch that has committed nothing is answered at once. -/
  | answered (s : Shared β ι) (i : ι) (process : StoreProcess) (batch : List (UInt64 × Mutation))
      (hstore : s.stores i = some ⟨process, none⟩) (hlive : process.poisoned = false)
      (hclean : dirty (stage process.committed batch).1 = false) :
      SharedStep codec s (.replied i ((stage process.committed batch).1.map Executed.reply)) s
  | asked (s : Shared β ι) (i : ι) (process : StoreProcess) (batch : List (UInt64 × Mutation))
      (hstore : s.stores i = some ⟨process, none⟩) (hlive : process.poisoned = false)
      (hserviced : ∀ item ∈ batch, item.2.Serviced) (hdirty : dirty (stage process.committed batch).1 = true) :
      SharedStep codec s .internal
        { s with stores := Function.update s.stores i (some ⟨process, some (batch, none)⟩) }
  /-- The backend takes the commit. It may report an error nevertheless. -/
  | taken (s : Shared β ι) (i : ι) (process : StoreProcess) (batch : List (UInt64 × Mutation))
      (backend' : Option (UInt64 × β)) (version : UInt64) (answer : Except String UInt64)
      (hstore : s.stores i = some ⟨process, some (batch, none)⟩)
      (htakes : Takes codec s.backend ⟨process.backendVersion, process.committed, batch⟩ backend' version)
      (hanswer : ∀ reported, answer = .ok reported → reported = version) :
      SharedStep codec s .internal
        { s with
          backend := backend'
          stores := Function.update s.stores i (some ⟨process, some (batch, some answer)⟩)
          history := s.history ++ [⟨⟨process.backendVersion, process.committed, batch⟩, version⟩] }
  /-- The snapshot cannot be serialised, the backend has another version, or it fails without taking the commit. -/
  | refused (s : Shared β ι) (i : ι) (process : StoreProcess) (batch : List (UInt64 × Mutation)) (text : String)
      (hstore : s.stores i = some ⟨process, some (batch, none)⟩) :
      SharedStep codec s .internal
        { s with stores := Function.update s.stores i (some ⟨process, some (batch, some (.error text))⟩) }
  | reported (s : Shared β ι) (i : ι) (process : StoreProcess) (batch : List (UInt64 × Mutation)) (version : UInt64)
      (hstore : s.stores i = some ⟨process, some (batch, some (.ok version))⟩) :
      SharedStep codec s (.replied i (process.commitBatch ⟨batch, .ok version⟩).2)
        { s with stores := Function.update s.stores i (some ⟨(process.commitBatch ⟨batch, .ok version⟩).1, none⟩) }
  | lost (s : Shared β ι) (i : ι) (process : StoreProcess) (batch : List (UInt64 × Mutation)) (text : String)
      (hstore : s.stores i = some ⟨process, some (batch, some (.error text))⟩) :
      SharedStep codec s (.lost i (process.commitBatch ⟨batch, .error text⟩).2)
        { s with stores := Function.update s.stores i (some ⟨(process.commitBatch ⟨batch, .error text⟩).1, none⟩) }
  /-- A poisoned store refuses what it is asked. -/
  | rejected (s : Shared β ι) (i : ι) (process : StoreProcess) (batch : List (UInt64 × Mutation)) (text : String)
      (hstore : s.stores i = some ⟨process, none⟩) (hpoisoned : process.poisoned = true) :
      SharedStep codec s (.replied i (batch.map fun item => (item.2, .error (unavailable text)))) s
  /-- The commit of a process that has stopped arrives late. -/
  | late (s : Shared β ι) (attempt : Attempt) (backend' : Option (UInt64 × β)) (version : UInt64)
      (hstray : attempt ∈ s.strays) (htakes : Takes codec s.backend attempt backend' version) :
      SharedStep codec s .internal { s with backend := backend', history := s.history ++ [⟨attempt, version⟩] }

/-- A run, with its events. -/
inductive SharedRun (codec : SnapshotCodec β) : Shared β ι → List (SharedEvent ι) → Shared β ι → Prop
  | refl (s : Shared β ι) : SharedRun codec s [] s
  | step {s s' s'' trace event} (run : SharedRun codec s trace s')
      (step : SharedStep codec s' event s'') : SharedRun codec s (trace ++ [event]) s''

/-! ## Histories -/

/-- The state after the commits of a history. -/
def lastState (history : List Commit) : StoreState :=
  (history.getLast?.map fun commit => commit.result).getD StoreState.new

/-- The version that the backend has after the commits of a history. -/
def lastVersion (history : List Commit) : UInt64 := (history.getLast?.map Commit.version).getD 0

/-- The operations that a history has applied, in order. -/
def appliedIn (history : List Commit) : List Mutation := history.flatMap fun commit => appliedOperations commit.executed

/-- The commit follows a history: it was executed on a state with the content that the history has left, for the version
    that the history has left, and got a newer one. -/
structure Follows (history : List Commit) (commit : Commit) : Prop where
  expected : lastVersion history = commit.expected
  newer : commit.expected < commit.version
  base : (lastState history).SameContent commit.base.toMemoryState
  serviced : ∀ item ∈ commit.batch, item.2.Serviced

/-- **A linear history**: each commit follows the ones before. -/
inductive Linear : List Commit → Prop
  | nil : Linear []
  | snoc {history : List Commit} {commit : Commit} (h : Linear history) (hfollows : Follows history commit) :
      Linear (history ++ [commit])

variable {history known later : List Commit} {commit : Commit}

theorem lastState_concat (history : List Commit) (commit : Commit) :
    lastState (history ++ [commit]) = commit.result := by
  rw [lastState, getLast?_concat]
  rfl

theorem lastVersion_concat (history : List Commit) (commit : Commit) :
    lastVersion (history ++ [commit]) = commit.version := by
  rw [lastVersion, getLast?_concat]
  rfl

theorem appliedIn_concat (history : List Commit) (commit : Commit) :
    appliedIn (history ++ [commit]) = appliedIn history ++ appliedOperations commit.executed := by
  simp [appliedIn]

theorem Commit.once (commit : Commit) (h : ∀ item ∈ commit.batch, item.2.Serviced) :
    Once commit.base.outcome (appliedRequests commit.executed) (commit.executed.map Executed.reply)
      commit.result.outcome :=
  stage_once h commit.base

theorem Linear.last (h : Linear (history ++ [commit])) : Linear history ∧ Follows history commit := by
  generalize hwhole : history ++ [commit] = whole at h
  cases h with
  | nil => simp at hwhole
  | snoc hbefore hfollows =>
    obtain ⟨rfl, hcommit⟩ := append_inj' hwhole rfl
    obtain rfl := (cons.inj hcommit).1
    exact ⟨hbefore, hfollows⟩

/-- The versions of a history grow. -/
theorem Linear.version_le (h : Linear (known ++ later)) :
    (lastVersion known).toNat + later.length ≤ (lastVersion (known ++ later)).toNat := by
  induction later using reverseRecOn with
  | nil => simp
  | append_singleton later commit ih =>
    rw [← append_assoc] at h ⊢
    obtain ⟨hbefore, hfollows⟩ := h.last
    have hknown := ih hbefore
    have hnewer := UInt64.lt_iff_toNat_lt.mp hfollows.newer
    rw [hfollows.expected] at hknown
    rw [lastVersion_concat, length_append, length_singleton]
    omega

/-- What comes later in a history adds to the outcomes. -/
theorem Linear.once (h : Linear (known ++ later)) :
    Linear known ∧ ∃ replies, Once (lastState known).outcome ((appliedIn later).map Mutation.request) replies
      (lastState (known ++ later)).outcome := by
  induction later using reverseRecOn with
  | nil =>
    rw [append_nil] at h ⊢
    exact ⟨h, [], .refl _⟩
  | append_singleton later commit ih =>
    rw [← append_assoc] at h ⊢
    obtain ⟨hbefore, hfollows⟩ := h.last
    obtain ⟨hknown, replies, honce⟩ := ih hbefore
    have hsame : commit.base.outcome = (lastState (known ++ later)).outcome :=
      funext fun request => hfollows.base.outcome request
    have hnext := commit.once hfollows.serviced
    rw [hsame] at hnext
    refine ⟨hknown, replies ++ commit.executed.map Executed.reply, ?_⟩
    rw [lastState_concat, appliedIn_concat, map_append]
    exact honce.append hnext

/-- **The state of a history has changed by what the history has applied**, and by nothing else. -/
theorem Linear.applied (h : Linear history) :
    AppliedInTurn StoreState.new (appliedIn history) (lastState history) := by
  induction h with
  | nil => exact .refl
  | @snoc history commit _ hfollows ih =>
    rw [lastState_concat, appliedIn_concat]
    exact (ih.loaded hfollows.base).trans (stage_applied commit.base commit.batch)

/-! ## What the stores know -/

/-- The state has the content that the history had at a version. -/
def Knows (history : List Commit) (version : UInt64) (state : StoreState) : Prop :=
  ∃ known, known <+: history ∧ lastVersion known = version ∧ (lastState known).SameContent state.toMemoryState

/-- The commit is in the history. -/
def Recorded (history : List Commit) (commit : Commit) : Prop := ∃ known, known ++ [commit] <+: history

/-- What is known of a commit on its way. An answer that is no error says that the commit is in the history. -/
structure InFlight (history : List Commit) (process : StoreProcess) (batch : List (UInt64 × Mutation))
    (answer : Option (Except String UInt64)) : Prop where
  live : process.poisoned = false
  serviced : ∀ item ∈ batch, item.2.Serviced
  dirty : dirty (stage process.committed batch).1 = true
  recorded : ∀ version, answer = some (.ok version) →
    Recorded history ⟨⟨process.backendVersion, process.committed, batch⟩, version⟩

/-- The backend has what the history has left, and everybody else knows a version of it. -/
structure SharedInv (codec : SnapshotCodec β) (s : Shared β ι) : Prop where
  linear : Linear s.history
  version : storedVersion s.backend = lastVersion s.history
  stored : ∃ process, openStore codec s.backend = .ok process ∧
    process.backendVersion = storedVersion s.backend ∧ process.poisoned = false ∧
    (lastState s.history).SameContent process.committed.toMemoryState
  knows : ∀ i store, s.stores i = some store → store.process.poisoned = false →
    Knows s.history store.process.backendVersion store.process.committed
  inFlight : ∀ i process batch answer, s.stores i = some ⟨process, some (batch, answer)⟩ →
    InFlight s.history process batch answer
  strays : ∀ attempt ∈ s.strays, Knows s.history attempt.expected attempt.base ∧
    ∀ item ∈ attempt.batch, item.2.Serviced

variable {version : UInt64} {state : StoreState} {process : StoreProcess} {batch : List (UInt64 × Mutation)}
  {entry : Option SharedStore} {mutation : Mutation} {replies : List Reply} {revision : StoreRevision}
  {outcome : RequestOutcome} {attempt : Attempt} {codec : SnapshotCodec β} {s s' : Shared β ι} {event : SharedEvent ι}

theorem Knows.append (h : Knows history version state) (more : List Commit) :
    Knows (history ++ more) version state := by
  obtain ⟨known, hprefix, hrest⟩ := h
  exact ⟨known, hprefix.trans (prefix_append _ _), hrest⟩

theorem InFlight.append {answer} (h : InFlight history process batch answer)
    (more : List Commit) : InFlight (history ++ more) process batch answer :=
  { h with
    recorded := by
      intro version hanswer
      obtain ⟨known, hprefix⟩ := h.recorded version hanswer
      exact ⟨known, hprefix.trans (prefix_append _ _)⟩ }

/-- A store that knows the newest version knows the newest state. -/
theorem Knows.newest (h : Knows history version state) (hlinear : Linear history)
    (hversion : lastVersion history = version) : (lastState history).SameContent state.toMemoryState := by
  obtain ⟨known, ⟨later, rfl⟩, hknown, hsame⟩ := h
  -- a version that is still the newest has no commits behind it
  have hlater := hlinear.version_le
  rw [hversion, hknown] at hlater
  obtain rfl : later = [] := length_eq_zero_iff.mp (by omega)
  rwa [append_nil]

omit [DecidableEq ι] in
/-- A commit that the backend takes is executed on its newest state, and becomes the newest. -/
theorem SharedInv.taken (hcodec : codec.Lossless) (h : SharedInv codec s) {backend'}
    (htakes : Takes codec s.backend attempt backend' version) (hknows : Knows s.history attempt.expected attempt.base)
    (hserviced : ∀ item ∈ attempt.batch, item.2.Serviced) :
    SharedInv codec { s with backend := backend', history := s.history ++ [⟨attempt, version⟩] } := by
  obtain ⟨hexpected, hnewer, bytes, hbytes, rfl⟩ := htakes
  have hcurrent : lastVersion s.history = attempt.expected := h.version.symm.trans hexpected
  obtain ⟨loaded, hloaded, hsame⟩ := attempt.result.fromSnapshot_persisted
  refine ⟨h.linear.snoc ⟨hcurrent, hnewer, hknows.newest h.linear hcurrent, hserviced⟩, ?_,
    ⟨⟨loaded, version, false⟩, ?_, rfl, rfl, ?_⟩, ?_, ?_, ?_⟩
  · rw [lastVersion_concat]
    rfl
  · rw [openStore, SnapshotCodec.load, hcodec _ _ hbytes]
    simp only [hloaded]
    rfl
  · rw [lastState_concat]
    exact hsame
  · exact fun i store hstore hlive => (h.knows i store hstore hlive).append _
  · exact fun i process batch answer hstore => (h.inFlight i process batch answer hstore).append _
  · exact fun other hother => ⟨(h.strays other hother).1.append _, (h.strays other hother).2⟩

omit [DecidableEq ι] in
/-- What a store that has stopped leaves behind. -/
theorem SharedInv.straysOf (h : SharedInv codec s) (i : ι) : ∀ attempt ∈ s.strays ++ straysOf (s.stores i),
    Knows s.history attempt.expected attempt.base ∧ ∀ item ∈ attempt.batch, item.2.Serviced := by
  intro attempt hattempt
  rcases mem_append.mp hattempt with hattempt | hattempt
  · exact h.strays attempt hattempt
  · rw [Afs.straysOf.eq_def] at hattempt
    split at hattempt
    · next process batch hstore =>
      obtain rfl := mem_singleton.mp hattempt
      have hflight := h.inFlight i process batch none hstore
      exact ⟨h.knows i _ hstore hflight.live, hflight.serviced⟩
    · cases hattempt

variable {i : ι}

/-- A step that leaves the backend alone. -/
theorem SharedInv.local (h : SharedInv codec s) {views strays}
    (hknows : ∀ store, entry = some store → store.process.poisoned = false →
      Knows s.history store.process.backendVersion store.process.committed)
    (hinFlight : ∀ process batch answer, entry = some ⟨process, some (batch, answer)⟩ →
      InFlight s.history process batch answer)
    (hstrays : ∀ attempt ∈ strays, Knows s.history attempt.expected attempt.base ∧
      ∀ item ∈ attempt.batch, item.2.Serviced) :
    SharedInv codec { s with stores := update s.stores i entry, views, strays } := by
  have hcases : ∀ {j store}, update s.stores i entry j = some store → entry = some store ∨ s.stores j = some store := by
    intro j store hstore
    by_cases hj : j = i
    · rw [hj, update_self] at hstore
      exact .inl hstore
    · rw [update_of_ne hj] at hstore
      exact .inr hstore
  exact
    { h with
      knows := fun j store hstore hlive => (hcases hstore).elim (hknows store · hlive) (h.knows j store · hlive)
      inFlight := fun j process batch answer hstore =>
        (hcases hstore).elim (hinFlight process batch answer) (h.inFlight j process batch answer)
      strays := hstrays }

theorem commitBatch_of_dirty (h : dirty (stage process.committed batch).1 = true) :
    process.commitBatch ⟨batch, .ok version⟩ =
      (⟨(stage process.committed batch).2, version, process.poisoned⟩,
        (stage process.committed batch).1.map Executed.reply) := by
  simp [StoreProcess.commitBatch, h]

/-- **A step keeps the stores and the history together.** -/
theorem SharedStep.inv (hcodec : codec.Lossless) (hstep : SharedStep codec s event s')
    (h : SharedInv codec s) : SharedInv codec s' := by
  cases hstep with
  | opened i process hopen =>
    obtain ⟨loaded, hloaded, hversion, hlive, hsame⟩ := h.stored
    obtain rfl : loaded = process := Except.ok.inj (hloaded.symm.trans hopen)
    refine h.local ?_ nofun (h.straysOf i)
    rintro _ ⟨⟩ -
    exact ⟨s.history, prefix_refl _, by rw [hversion, h.version], hsame⟩
  | stopped i => exact h.local nofun nofun (h.straysOf i)
  | pinned | released => exact { h with }
  | served | answered | rejected => exact h
  | asked i _ _ hstore hlive hserviced hdirty =>
    have hknown := h.knows i _ hstore hlive
    refine h.local ?_ ?_ h.strays
    · rintro _ ⟨⟩ -
      exact hknown
    · rintro _ _ _ ⟨⟩
      exact ⟨hlive, hserviced, hdirty, nofun⟩
  | taken i process batch backend' version answer hstore htakes hanswer =>
    have hflight := h.inFlight i process batch none hstore
    have hknown := h.knows i _ hstore hflight.live
    have htaken := h.taken hcodec htakes hknown hflight.serviced
    refine htaken.local ?_ ?_ htaken.strays
    · rintro _ ⟨⟩ -
      exact hknown.append _
    · rintro _ _ _ ⟨⟩
      refine ⟨hflight.live, hflight.serviced, hflight.dirty, fun reported hreported => ?_⟩
      rw [hanswer reported (Option.some.inj hreported)]
      exact ⟨s.history, prefix_refl _⟩
  | refused i process batch text hstore =>
    have hflight := h.inFlight i process batch none hstore
    have hknown := h.knows i _ hstore hflight.live
    refine h.local ?_ ?_ h.strays
    · rintro _ ⟨⟩ -
      exact hknown
    · rintro _ _ _ ⟨⟩
      exact { hflight with recorded := nofun }
  | reported i process batch version hstore =>
    have hflight := h.inFlight i process batch _ hstore
    obtain ⟨known, hprefix⟩ := hflight.recorded version rfl
    rw [commitBatch_of_dirty hflight.dirty]
    refine h.local ?_ (by simp) h.strays
    rintro _ ⟨⟩ -
    -- the version after the commit, whatever the others have done since
    refine ⟨known ++ [⟨⟨process.backendVersion, process.committed, batch⟩, version⟩], hprefix, ?_, ?_⟩
    · rw [lastVersion_concat]
    · rw [lastState_concat]
      exact .refl _
  | lost i process batch text hstore =>
    have hflight := h.inFlight i process batch _ hstore
    have hfails : Turn.Fails process.committed ⟨batch, .error text⟩ := ⟨hflight.dirty, text, rfl⟩
    rw [(commitBatch_of_fails hfails).2]
    refine h.local ?_ (by simp) h.strays
    rintro _ ⟨⟩ hlive
    cases hlive
  | late attempt backend' version hstray htakes =>
    obtain ⟨hknown, hserviced⟩ := h.strays attempt hstray
    exact h.taken hcodec htakes hknown hserviced

omit [DecidableEq ι] in
theorem sharedInv_initial : SharedInv codec (Shared.initial : Shared β ι) where
  linear := .nil
  version := rfl
  stored := ⟨⟨StoreState.new, 0, false⟩, rfl, rfl, rfl, .refl _⟩
  knows := nofun
  inFlight := nofun
  strays := nofun

variable {trace : List (SharedEvent ι)}

theorem SharedRun.inv (hcodec : codec.Lossless) (hrun : SharedRun codec s trace s')
    (h : SharedInv codec s) : SharedInv codec s' := by
  induction hrun with
  | refl => exact h
  | step run step ih => exact step.inv hcodec ih

/-! ## Acknowledgements -/

/-- The reply is that of a commit in the history. -/
def Acknowledged (history : List Commit) (mutation : Mutation) (reply : TxnOutcome) : Prop :=
  ∃ commit, Recorded history commit ∧ ∃ now, ⟨now, mutation, .ok reply⟩ ∈ commit.executed

theorem Acknowledged.append {reply} (h : Acknowledged history mutation reply) (more : List Commit) :
    Acknowledged (history ++ more) mutation reply := by
  obtain ⟨commit, ⟨known, hprefix⟩, hreply⟩ := h
  exact ⟨commit, ⟨known, hprefix.trans (prefix_append _ _)⟩, hreply⟩

theorem SharedStep.extends (hstep : SharedStep codec s event s') : ∃ more, s'.history = s.history ++ more := by
  cases hstep with
  | taken => exact ⟨_, rfl⟩
  | late => exact ⟨_, rfl⟩
  | _ => exact ⟨[], (append_nil _).symm⟩

/-- A store says "committed" only of a commit that the backend has taken. -/
theorem SharedStep.acknowledged (hstep : SharedStep codec s event s') (h : SharedInv codec s)
    (hevent : event = .replied i replies) (hreply : (mutation, .ok (.committed revision outcome)) ∈ replies) :
    Acknowledged s'.history mutation (.committed revision outcome) := by
  cases hstep with
  | answered _ _ batch _ _ hclean =>
    -- nothing was committed by the batch
    cases hevent
    obtain ⟨executed, hexecuted, heq⟩ := mem_map.mp hreply
    have hcommitted := any_eq_false.mp hclean executed hexecuted
    have hresult : executed.result = .ok (.committed revision outcome) := congrArg Prod.snd heq
    simp [Executed.committed, hresult] at hcommitted
  | reported j process batch version hstore =>
    cases hevent
    have hflight := h.inFlight _ process batch _ hstore
    rw [commitBatch_of_dirty hflight.dirty] at hreply
    obtain ⟨⟨now, executed, result⟩, hexecuted, heq⟩ := mem_map.mp hreply
    cases heq
    exact ⟨_, hflight.recorded version rfl, now, hexecuted⟩
  | opened | stopped | pinned | served | released | asked | taken | refused | lost | late => cases hevent
  | rejected =>
    cases hevent
    simp at hreply

theorem SharedRun.acknowledged (hcodec : codec.Lossless)
    (hrun : SharedRun codec s trace s') (h : SharedInv codec s) (hevent : .replied i replies ∈ trace)
    (hreply : (mutation, .ok (.committed revision outcome)) ∈ replies) :
    Acknowledged s'.history mutation (.committed revision outcome) := by
  induction hrun with
  | refl => cases hevent
  | step run step ih =>
    rcases mem_append.mp hevent with hevent | hevent
    · obtain ⟨more, hmore⟩ := step.extends
      rw [hmore]
      exact (ih hevent).append more
    · exact step.acknowledged (run.inv hcodec h) (mem_singleton.mp hevent).symm hreply

/-- An acknowledged commit is in the outcomes from then on, and was applied once. -/
theorem Linear.acknowledged (h : Linear history)
    (hacknowledged : Acknowledged history mutation (.committed revision outcome)) :
    ((appliedIn history).map Mutation.request).count mutation.request = 1 ∧
      ∃ known commit, known ++ [commit] <+: history ∧ mutation ∈ appliedOperations commit.executed ∧
        ∀ later, known ++ [commit] <+: later → later <+: history →
          (lastState later).outcome mutation.request = some outcome := by
  obtain ⟨commit, ⟨known, hprefix⟩, now, hexecuted⟩ := hacknowledged
  have happlied : mutation ∈ appliedOperations commit.executed :=
    mem_map.mpr ⟨_, mem_filter.mpr ⟨hexecuted, rfl⟩, rfl⟩
  refine ⟨?_, known, commit, hprefix, happlied, ?_⟩
  · -- no request is applied twice in a history
    have hwhole : Linear ([] ++ history) := h
    obtain ⟨-, _, honce⟩ := hwhole.once
    apply count_eq_one_of_mem honce.nodup
    obtain ⟨more, rfl⟩ := hprefix
    exact mem_map_of_mem (mem_flatMap.mpr ⟨commit, by simp, happlied⟩)
  · rintro later ⟨more, rfl⟩ ⟨rest, rfl⟩
    have hlater : Linear (known ++ [commit] ++ more) := h.once.1
    obtain ⟨hcommit, _, honce⟩ := hlater.once
    apply honce.kept _ _
    rw [lastState_concat]
    have hreply : (mutation, .ok (.committed revision outcome)) ∈ commit.executed.map Executed.reply :=
      mem_map.mpr ⟨_, hexecuted, rfl⟩
    exact ((commit.once hcommit.last.2.serviced).reported mutation _ hreply).1 outcome rfl

/-! ## After a lost commit -/

/-- The store serves a read or grants what it was asked. -/
def SharedEvent.Speaks (i : ι) (event : SharedEvent ι) : Prop :=
  (∃ state, event = .served i state) ∨
    ∃ replies mutation outcome, (event = .replied i replies ∨ event = .lost i replies) ∧
      (mutation, .ok outcome) ∈ replies

omit [DecidableEq ι] in
theorem SharedEvent.not_speaks {i j : ι} (h : ∀ mutation outcome, (mutation, .ok outcome) ∉ replies) :
    ¬(SharedEvent.replied j replies).Speaks i ∧ ¬(SharedEvent.lost j replies).Speaks i := by
  constructor
  all_goals
    rintro (⟨_, hevent⟩ | ⟨_, mutation, outcome, hevent | hevent, hreply⟩)
    all_goals cases hevent
    exact h mutation outcome hreply

/-- The store is poisoned, or there is none, and no view of it is open. -/
structure Silent (s : Shared β ι) (i : ι) : Prop where
  poisoned : ∀ store, s.stores i = some store → store.process.poisoned = true ∧ store.inFlight = none
  views : ∀ state, (i, state) ∉ s.views

omit [DecidableEq ι] in
theorem Silent.not_live {inFlight}
    (h : Silent s i) (hstore : s.stores i = some ⟨process, inFlight⟩) (hlive : process.poisoned = false) : False := by
  have hpoisoned := (h.poisoned _ hstore).1
  rw [hlive] at hpoisoned
  cases hpoisoned

omit [DecidableEq ι] in
theorem Silent.not_inFlight {flight} (h : Silent s i)
    (hstore : s.stores i = some ⟨process, some flight⟩) : False := nomatch (h.poisoned _ hstore).2

/-- Another store may do what it likes. -/
theorem Silent.update {i j : ι} (h : Silent s i) (hij : i ≠ j) (s' : Shared β ι)
    (hstores : s'.stores = update s.stores j entry) (hviews : s'.views ⊆ s.views) : Silent s' i := by
  refine ⟨fun store hstore => ?_, fun state hview => h.views state (hviews hview)⟩
  rw [hstores, update_of_ne hij] at hstore
  exact h.poisoned store hstore

/-- A store that is silent stays so until a new one is opened in its place. -/
theorem SharedStep.silent (hstep : SharedStep codec s event s') (h : Silent s i) (hopened : event ≠ .opened i) :
    ¬event.Speaks i ∧ Silent s' i := by
  cases hstep with
  | opened j =>
    have hij : i ≠ j := fun hij => hopened (by rw [hij])
    exact ⟨by simp [SharedEvent.Speaks], h.update hij _ rfl (filter_subset_self _)⟩
  | stopped j =>
    refine ⟨by simp [SharedEvent.Speaks], ?_⟩
    by_cases hij : i = j
    · subst hij
      exact ⟨by simp, fun state hview => h.views state (mem_of_mem_filter hview)⟩
    · exact h.update hij _ rfl (filter_subset_self _)
  | pinned j store state hstore hvisible =>
    -- a poisoned store is not available
    refine ⟨by simp [SharedEvent.Speaks], h.poisoned, fun pinned hview => ?_⟩
    rcases mem_append.mp hview with hview | hview
    · exact h.views pinned hview
    · cases mem_singleton.mp hview
      rw [StoreProcess.visible, (h.poisoned _ hstore).1] at hvisible
      cases hvisible
  | served j state hview =>
    refine ⟨?_, h⟩
    rintro (⟨_, hevent⟩ | ⟨_, _, _, hevent | hevent, -⟩)
    · cases hevent
      exact h.views _ hview
    · cases hevent
    · cases hevent
  | released views hviews =>
    exact ⟨by simp [SharedEvent.Speaks], h.poisoned, fun state hview => h.views state (hviews.subset hview)⟩
  | answered _ _ _ hstore hlive =>
    refine ⟨?_, h⟩
    rintro (⟨_, hevent⟩ | ⟨_, _, _, hevent | hevent, -⟩)
    · cases hevent
    · cases hevent
      exact h.not_live hstore hlive
    · cases hevent
  | asked j _ _ hstore hlive =>
    have hij : i ≠ j := fun hij => h.not_live (hij ▸ hstore) hlive
    exact ⟨by simp [SharedEvent.Speaks], h.update hij _ rfl (Subset.refl _)⟩
  | taken j process batch backend' version answer hstore | refused j process batch text hstore
  | reported j process batch version hstore | lost j process batch text hstore =>
    have hij : i ≠ j := fun hij => h.not_inFlight (hij ▸ hstore)
    exact ⟨by simp [SharedEvent.Speaks, hij.symm], h.update hij _ rfl (Subset.refl _)⟩
  | rejected _ _ _ text => exact ⟨(SharedEvent.not_speaks (AllRefused.of_map (unavailable text)).not_ok).1, h⟩
  | late => exact ⟨by simp [SharedEvent.Speaks], h.poisoned, h.views⟩

/-- The step that loses a commit refuses all of the batch and leaves the views of the store open. -/
theorem SharedStep.lost_silent (hstep : SharedStep codec s (.lost i replies) s') (h : SharedInv codec s) :
    ¬(SharedEvent.lost i replies).Speaks i ∧ s'.views = s.views ∧ ((∀ state, (i, state) ∉ s.views) → Silent s' i) := by
  cases hstep with
  | lost _ process batch text hstore =>
    have hflight := h.inFlight i process batch _ hstore
    have hfails : Turn.Fails process.committed ⟨batch, .error text⟩ := ⟨hflight.dirty, text, rfl⟩
    obtain ⟨hrefused, hpoisoned⟩ := commitBatch_of_fails hfails
    refine ⟨(SharedEvent.not_speaks hrefused.not_ok).2, rfl, fun hviews => ⟨fun store hstore' => ?_, hviews⟩⟩
    simp only [update_self, hpoisoned] at hstore'
    cases hstore'
    exact ⟨rfl, rfl⟩

theorem SharedRun.silent (hrun : SharedRun codec s trace s') (h : Silent s i) (hopened : .opened i ∉ trace) :
    (∀ event ∈ trace, ¬event.Speaks i) ∧ Silent s' i := by
  induction hrun with
  | refl => exact ⟨by simp, h⟩
  | @step _ _ trace event run step ih =>
    simp only [mem_append, mem_singleton, not_or] at hopened
    obtain ⟨hspeaks, hsilent⟩ := ih hopened.1
    obtain ⟨hlast, hsilent'⟩ := step.silent hsilent (Ne.symm hopened.2)
    refine ⟨fun other hother => ?_, hsilent'⟩
    rcases mem_append.mp hother with hother | hother
    · exact hspeaks other hother
    · rwa [mem_singleton.mp hother]

/-- **After a lost commit the store is silent for ever exactly if no view of it was open.** -/
theorem SharedStep.lost_speaks_iff (hstep : SharedStep codec s (.lost i replies) s') (h : SharedInv codec s) :
    (∀ later s'', SharedRun codec s' later s'' → .opened i ∉ later → ∀ event ∈ later, ¬event.Speaks i) ↔
      ∀ state, (i, state) ∉ s.views := by
  obtain ⟨-, hviews, hsilent⟩ := hstep.lost_silent h
  constructor
  · intro hnever state hview
    -- the open view is read
    have hserved : SharedStep codec s' (.served i state) s' := .served s' i state (hviews ▸ hview)
    exact hnever _ s' ((SharedRun.refl s').step hserved) (by simp) _ (mem_singleton_self _) (.inl ⟨state, rfl⟩)
  · intro hnone later s'' hrun hopened
    exact (hrun.silent (hsilent hnone) hopened).1

theorem SharedRun.extends (hrun : SharedRun codec s trace s') : s.history <+: s'.history := by
  induction hrun with
  | refl => exact prefix_rfl
  | step run step ih =>
    obtain ⟨more, hmore⟩ := step.extends
    rw [hmore]
    exact ih.trans (prefix_append _ _)

/-- **The stores of one backend share one history.** What the backend has taken is a linear history that only grows, and
    a new process starts from its end; each of its states has changed from the empty one by the operations applied so
    far, and by nothing else. Every mutation that a store has acknowledged was applied once in it, and its outcome is in
    every state of the history from then on. A store that loses a commit grants nothing with it; it grants and serves
    nothing afterwards exactly if no read or view of it is open at the loss. -/
theorem stores_share_one_history (hcodec : codec.Lossless) (hrun : SharedRun codec Shared.initial trace s) :
    Linear s.history ∧
    (∃ process, openStore codec s.backend = .ok process ∧
      (lastState s.history).SameContent process.committed.toMemoryState) ∧
    (∀ more s', SharedRun codec s more s' → s.history <+: s'.history) ∧
    (∀ known, known <+: s.history → AppliedInTurn StoreState.new (appliedIn known) (lastState known)) ∧
    (∀ i replies mutation revision outcome, .replied i replies ∈ trace →
      (mutation, .ok (.committed revision outcome)) ∈ replies →
      ((appliedIn s.history).map Mutation.request).count mutation.request = 1 ∧
        ∃ known commit, known ++ [commit] <+: s.history ∧ mutation ∈ appliedOperations commit.executed ∧
          ∀ later, known ++ [commit] <+: later → later <+: s.history →
            (lastState later).outcome mutation.request = some outcome) ∧
    ∀ i replies s', SharedStep codec s (.lost i replies) s' → ¬(SharedEvent.lost i replies).Speaks i ∧
      ((∀ later s'', SharedRun codec s' later s'' → .opened i ∉ later → ∀ event ∈ later, ¬event.Speaks i) ↔
        ∀ state, (i, state) ∉ s.views) := by
  have hinv := hrun.inv hcodec sharedInv_initial
  obtain ⟨process, hopen, -, -, hsame⟩ := hinv.stored
  refine ⟨hinv.linear, ⟨process, hopen, hsame⟩, fun more s' hmore => hmore.extends, ?_, ?_, ?_⟩
  · rintro known ⟨later, hlater⟩
    have hlinear := hinv.linear
    rw [← hlater] at hlinear
    exact hlinear.once.1.applied
  · intro i replies mutation revision outcome hevent hreply
    exact hinv.linear.acknowledged (hrun.acknowledged hcodec sharedInv_initial hevent hreply)
  · intro i replies s' hstep
    exact ⟨(hstep.lost_silent hinv).1, hstep.lost_speaks_iff hinv⟩

/-! Two stores are opened, and the second takes a view. The first registers a node; the second has not seen that and
loses its own registration. -/

def registrations (node : String) : List (UInt64 × Mutation) := [(1000, registering node)]

theorem registrations_serviced (node : String) : ∀ item ∈ registrations node, item.2.Serviced := by
  simp [registrations, registering, Mutation.Serviced]

def registered : StoreState := (stage StoreState.new (registrations "a")).2

/-- The second store is about to be told that its commit is refused. It has the given views. -/
theorem second_store_refused {views} (hviews : views <+ [(true, StoreState.new)]) :
    ∃ (trace : List (SharedEvent Bool)) (s : Shared PersistedMemoryState Bool),
      SharedRun plainSnapshots Shared.initial trace s ∧
      .replied false [(registering "a", .ok (.committed 1 (registeredOutcome "a")))] ∈ trace ∧
      s.views = views ∧ lastState s.history = registered ∧
      s.stores true =
        some ⟨freshProcess, some (registrations "b", some (.error "store backend version conflict"))⟩ := by
  have hstart : SharedRun plainSnapshots Shared.initial ([] : List (SharedEvent Bool)) Shared.initial := .refl _
  have hfirst := hstart.step (.opened _ false freshProcess rfl)
  have hsecond := hfirst.step (.opened _ true freshProcess rfl)
  have hpinned := hsecond.step (.pinned _ true ⟨freshProcess, none⟩ StoreState.new rfl rfl)
  have hreleased := hpinned.step (.released _ views hviews)
  have hasked := hreleased.step
    (.asked _ false freshProcess (registrations "a") rfl rfl (registrations_serviced "a") (by decide +kernel))
  -- the backend gives version 7
  have htaken := hasked.step
    (.taken _ false freshProcess (registrations "a") (some (7, registered.persisted)) 7 (.ok 7) rfl
      ⟨rfl, by decide, _, rfl, rfl⟩ (by simp))
  have hreported := htaken.step (.reported _ false freshProcess (registrations "a") 7 rfl)
  -- the second store still expects version 0
  have hstale := hreported.step
    (.asked _ true freshProcess (registrations "b") rfl rfl (registrations_serviced "b") (by decide +kernel))
  have hrefused := hstale.step (.refused _ true freshProcess (registrations "b") "store backend version conflict" rfl)
  exact ⟨_, _, hrefused, mem_append_left _ (mem_append_left _ (mem_append_right _ (mem_singleton_self _))),
    rfl, rfl, rfl⟩

theorem stores_share_one_history_of_two :
    ∃ (trace : List (SharedEvent Bool)) (s s' : Shared PersistedMemoryState Bool) (replies : List Reply),
      SharedRun plainSnapshots Shared.initial trace s ∧ SharedStep plainSnapshots s (.lost true replies) s' ∧
      ((appliedIn s.history).map Mutation.request).count (registering "a").request = 1 ∧
      ∀ later s'', SharedRun plainSnapshots s' later s'' → .opened true ∉ later →
        ∀ event ∈ later, ¬event.Speaks true := by
  obtain ⟨trace, s, hrun, hreplied, hviews, -, hstore⟩ := second_store_refused (nil_sublist _)
  obtain ⟨-, -, -, -, hacknowledged, hsilent⟩ := stores_share_one_history plainSnapshots_lossless hrun
  have hlost : SharedStep plainSnapshots s _ _ := .lost s true freshProcess (registrations "b") _ hstore
  have happlied := hacknowledged false _ (registering "a") 1 (registeredOutcome "a") hreplied (mem_singleton_self _)
  exact ⟨trace, s, _, _, hrun, hlost, happlied.1, (hsilent true _ _ hlost).2.mpr (by simp [hviews])⟩

/-- **A view goes on serving after its store has lost a commit**: it does not have the node that the first store has
    registered. -/
theorem view_serves_after_lost_commit :
    ∃ (trace : List (SharedEvent Bool)) (s s' : Shared PersistedMemoryState Bool) (replies : List Reply),
      SharedRun plainSnapshots Shared.initial trace s ∧ SharedStep plainSnapshots s (.lost true replies) s' ∧
      SharedStep plainSnapshots s' (.served true StoreState.new) s' ∧
      (lastState s'.history).outcome (registering "a").request = some (registeredOutcome "a") ∧
      StoreState.new.outcome (registering "a").request = none := by
  obtain ⟨trace, s, hrun, -, hviews, hlast, hstore⟩ := second_store_refused (Sublist.refl _)
  have hlost : SharedStep plainSnapshots s _ _ := .lost s true freshProcess (registrations "b") _ hstore
  refine ⟨trace, s, _, _, hrun, hlost, .served _ true StoreState.new (by simp [hviews]), ?_, rfl⟩
  simp only [hlast]
  rfl

end Afs
