import Afs.Lib.Cursor
import Afs.Meta.Store.Deployment

/-!
# `Meta.Store.EventLog` — the log of changes

Every change of an entity is logged with the revision of its transaction and its position within it. The log is ordered
by revision and only grows at its end, past the revision of the state (`EventLog.Ordered`, `EventLog.Grows`). Both are
properties of one operation, and carry over to a batch and to a run of the deployment with failures and restarts.
-/

namespace Afs

open List UInt64

/-! ## The event log -/

/-- What watchers see of a state. -/
structure EventLog where
  revision : StoreRevision
  events : List WatchEvent

variable {mid last : EventLog} {more : List WatchEvent} {label : StepLabel}

def MemoryState.log (state : MemoryState) : EventLog := ⟨state.revision, state.events⟩

/-- The revision of an event, as a stamp. -/
def WatchEvent.stamp (event : WatchEvent) : Nat := event.revision.toNat

/-- The event stands before another in the order that `validate_order` asks for. -/
def WatchEvent.Before (event later : WatchEvent) : Prop :=
  event.revision < later.revision ∨ event.revision = later.revision ∧ event.eventIndex < later.eventIndex

namespace EventLog

/-- The counters of the log have not run out. -/
def InRange (log : EventLog) : Prop := log.revision < UInt64.maxValue ∧ log.events.length ≤ 2 ^ 32

/-- **The log is ordered**: by revision in any case, and by the position within a revision as long as the counters have
    not run out. -/
structure Ordered (log : EventLog) : Prop where
  sorted : Cursor.Sorted WatchEvent.stamp log.events
  positive : ∀ event ∈ log.events, 0 < event.revision
  bounded : ∀ event ∈ log.events, event.revision ≤ log.revision
  positioned : log.InRange → log.events.Pairwise WatchEvent.Before

/-- **The log grows** at its end, by events after the revision it had, which is the last there is if it has run out. -/
def Grows (log log' : EventLog) : Prop :=
  log.revision ≤ log'.revision ∧
    ∃ more, log'.events = log.events ++ more ∧ ∀ event ∈ more, log.revision.next ≤ event.revision

theorem toNat_next (revision : StoreRevision) :
    (StoreRevision.next revision).toNat = min (revision.toNat + 1) 18446744073709551615 := by
  simp [StoreRevision.next]

theorem Grows.refl (log : EventLog) : log.Grows log := ⟨UInt64.le_refl _, [], (append_nil _).symm, by simp⟩

theorem Grows.trans {log : EventLog} (h : log.Grows mid) (h' : mid.Grows last) : log.Grows last := by
  obtain ⟨hle, more, hmore, hpast⟩ := h
  obtain ⟨hle', more', hmore', hpast'⟩ := h'
  refine ⟨UInt64.le_trans hle hle', more ++ more', by rw [hmore', hmore, append_assoc], fun event hmem => ?_⟩
  rcases mem_append.mp hmem with hmem | hmem
  · exact hpast event hmem
  · -- the revision may have advanced in between
    have hlast := hpast' event hmem
    rw [le_iff_toNat_le, toNat_next] at hlast ⊢
    rw [le_iff_toNat_le] at hle
    omega

/-- Events of a revision after the log's are past every cursor in it, unless the cursor stands at the last revision
    there is. -/
theorem Grows.between {log log' : EventLog} (h : log.Grows log') {cursor}
    (hcursor : cursor ≤ log.revision) (hlast : cursor < maxValue) (start : Nat) :
    Cursor.between WatchEvent.stamp log'.events start cursor.toNat =
      Cursor.between WatchEvent.stamp log.events start cursor.toNat := by
  obtain ⟨-, more, hmore, hpast⟩ := h
  rw [hmore]
  refine Cursor.between_append fun event hmem => ?_
  have hnext := hpast event hmem
  rw [le_iff_toNat_le, toNat_next] at hnext
  rw [le_iff_toNat_le] at hcursor
  rw [lt_iff_toNat_lt, toNat_maxValue] at hlast
  rw [WatchEvent.stamp]
  omega

/-- **Appending the events of one revision**, in the order of their positions, keeps the order. -/
theorem Ordered.append {log : EventLog} (h : log.Ordered) (hmore : ∀ event ∈ more, event.revision = log.revision.next)
    (hpositioned : log.events.length + more.length ≤ 2 ^ 32 → more.Pairwise (·.eventIndex < ·.eventIndex)) :
    (⟨log.revision.next, log.events ++ more⟩ : EventLog).Ordered := by
  have hle : log.revision ≤ StoreRevision.next log.revision := by
    rw [le_iff_toNat_le, toNat_next]
    have := log.revision.toNat_lt
    omega
  have hstamps : ∀ event ∈ log.events, ∀ later ∈ more, event.stamp ≤ later.stamp := by
    intro event hevent later hlater
    rw [WatchEvent.stamp, WatchEvent.stamp, ← le_iff_toNat_le, hmore later hlater]
    exact UInt64.le_trans (h.bounded event hevent) hle
  have hpositive : 0 < StoreRevision.next log.revision := by
    rw [UInt64.lt_iff_toNat_lt, toNat_next, UInt64.toNat_zero]
    omega
  refine ⟨pairwise_append.mpr ⟨h.sorted, ?_, hstamps⟩, fun event hevent => ?_, fun event hevent => ?_,
    fun hrange => ?_⟩
  · refine pairwise_of_forall_mem_list fun event hevent later hlater => ?_
    rw [WatchEvent.stamp, WatchEvent.stamp, hmore event hevent, hmore later hlater]
  · rcases mem_append.mp hevent with hevent | hevent
    · exact h.positive event hevent
    · exact (hmore event hevent) ▸ hpositive
  · rcases mem_append.mp hevent with hevent | hevent
    · exact UInt64.le_trans (h.bounded event hevent) hle
    · exact (hmore event hevent) ▸ UInt64.le_refl _
  · obtain ⟨hrevision, hlength⟩ := hrange
    rw [length_append] at hlength
    rw [lt_iff_toNat_lt, toNat_next, toNat_maxValue] at hrevision
    have hadvances : log.revision < StoreRevision.next log.revision := by
      rw [lt_iff_toNat_lt, toNat_next]
      omega
    have hold : log.InRange := by
      refine ⟨?_, by omega⟩
      rw [lt_iff_toNat_lt, toNat_maxValue]
      omega
    refine pairwise_append.mpr ⟨h.positioned hold, ?_, fun event hevent later hlater => .inl ?_⟩
    · refine (hpositioned hlength).imp_of_mem fun hevent hlater hindex => .inr ⟨?_, hindex⟩
      rw [hmore _ hevent, hmore _ hlater]
    · rw [hmore later hlater]
      exact UInt64.lt_of_le_of_lt (h.bounded event hevent) hadvances

theorem Grows.append (log : EventLog) (hmore : ∀ event ∈ more, event.revision = log.revision.next) :
    log.Grows ⟨log.revision.next, log.events ++ more⟩ := by
  refine ⟨?_, more, rfl, fun event hevent => hmore event hevent ▸ UInt64.le_refl _⟩
  rw [le_iff_toNat_le, toNat_next]
  have := log.revision.toNat_lt
  omega

end EventLog

/-! ## What an operation does to the log -/

/-- The events of a list of mutations at a revision, numbered from `index`. -/
theorem MemoryState.events_foldl_applyMutation (mutations : List TxnMutation) (state : MemoryState) (index : UInt32) :
    (mutations.foldl applyMutation (state, index)).1.revision = state.revision ∧
      ∃ more, (mutations.foldl applyMutation (state, index)).1.events = state.events ++ more ∧
        (∀ event ∈ more, event.revision = state.revision) ∧
        (index.toNat + more.length ≤ 2 ^ 32 →
          (∀ event ∈ more, index ≤ event.eventIndex) ∧ more.Pairwise (·.eventIndex < ·.eventIndex)) := by
  induction mutations generalizing state index with
  | nil => exact ⟨rfl, [], (append_nil _).symm, by simp, by simp⟩
  | cons mutation rest ih =>
    -- a put and a delete log one event at `index`
    have hlogged : ∀ (next : MemoryState) (event : WatchEvent), next.revision = state.revision →
        next.events = state.events ++ [event] → event.revision = state.revision → event.eventIndex = index →
        (rest.foldl applyMutation (next, index + 1)).1.revision = state.revision ∧
          ∃ more, (rest.foldl applyMutation (next, index + 1)).1.events = state.events ++ more ∧
            (∀ event ∈ more, event.revision = state.revision) ∧
            (index.toNat + more.length ≤ 2 ^ 32 →
              (∀ event ∈ more, index ≤ event.eventIndex) ∧ more.Pairwise (·.eventIndex < ·.eventIndex)) := by
      intro next event hnext hevents hrevision hindex
      obtain ⟨hsame, more, hmore, hrevisions, hpositions⟩ := ih next (index + 1)
      refine ⟨hsame.trans hnext, event :: more, ?_, ?_, fun hlength => ?_⟩
      · rw [hmore, hevents, append_assoc, singleton_append]
      · exact forall_mem_cons.mpr ⟨hrevision, fun later hlater => (hrevisions later hlater).trans hnext⟩
      · rw [length_cons] at hlength
        by_cases hnone : more = []
        · rw [hnone]
          exact ⟨by simp [hindex], pairwise_singleton _ _⟩
        · have hpositive := length_pos_iff.mpr hnone
          have hsucc : (index + 1).toNat = index.toNat + 1 := by
            rw [UInt32.toNat_add, UInt32.toNat_one, Nat.mod_eq_of_lt (by omega)]
          obtain ⟨hlater, hpairwise⟩ := hpositions (by rw [hsucc]; omega)
          have hpast : ∀ later ∈ more, index < later.eventIndex := by
            intro later hmem
            have hle := hlater later hmem
            rw [UInt32.le_iff_toNat_le, hsucc] at hle
            rw [UInt32.lt_iff_toNat_lt]
            omega
          refine ⟨forall_mem_cons.mpr ⟨hindex ▸ UInt32.le_refl _, fun later hmem => ?_⟩,
            pairwise_cons.mpr ⟨hindex ▸ hpast, hpairwise⟩⟩
          exact UInt32.le_of_lt (hpast later hmem)
    rw [foldl_cons]
    cases mutation with
    | put entity => exact hlogged (state.putAt index _ entity) _ rfl rfl rfl rfl
    | delete key => exact hlogged (state.deleteAt index key) _ rfl rfl rfl rfl
    | recordRequestOutcome outcome => exact ih (state.recordOutcome outcome) index

/-- The log of a state that an operation has left: the one before, or the one before with the events of the next
    revision. -/
structure EventLog.Advances (log log' : EventLog) : Prop where
  grows : log.Grows log'
  ordered : log.Ordered → log'.Ordered

theorem EventLog.Advances.refl (log : EventLog) : log.Advances log := ⟨.refl log, id⟩

theorem EventLog.Advances.trans {log : EventLog} (h : log.Advances mid) (h' : mid.Advances last) :
    log.Advances last :=
  ⟨h.grows.trans h'.grows, h'.ordered ∘ h.ordered⟩

theorem EventLog.Advances.append (log : EventLog) (hmore : ∀ event ∈ more, event.revision = log.revision.next)
    (hpositioned : log.events.length + more.length ≤ 2 ^ 32 → more.Pairwise (·.eventIndex < ·.eventIndex)) :
    log.Advances ⟨log.revision.next, log.events ++ more⟩ :=
  ⟨.append log hmore, fun h => h.append hmore hpositioned⟩

theorem advances_applyMutations (s : StoreState) (mutations : List TxnMutation) :
    s.log.Advances (s.applyMutations mutations).log := by
  obtain ⟨hrevision, more, hmore, hrevisions, hpositions⟩ := MemoryState.events_foldl_applyMutation mutations
    { s.toMemoryState with revision := s.revision.next } 0
  have hlog : (s.applyMutations mutations).log = ⟨s.revision.next, s.events ++ more⟩ :=
    congrArg₂ EventLog.mk hrevision hmore
  rw [hlog]
  refine .append s.log hrevisions fun hlength => (hpositions ?_).2
  rw [UInt32.toNat_zero]
  omega

theorem advances_applyRegistration (s : StoreState) (session : NodeSession)
    (nodeEpochs : AList (fun _ : String => UInt64)) (outcome : RequestOutcome) :
    s.log.Advances (s.applyRegistration session nodeEpochs outcome).log := by
  have hlog : (s.applyRegistration session nodeEpochs outcome).log = ⟨s.revision.next, s.events ++
      [⟨s.revision.next, UInt32.ofNat s.events.length, .nodeSession session.nodeId session.sessionId,
          .put (.nodeSession session)⟩,
        ⟨s.revision.next, UInt32.ofNat (s.events.length + 1), .currentNodeSession session.nodeId,
          .put (.nodeSession session)⟩]⟩ := by
    simp [StoreState.applyRegistration, MemoryState.log, MemoryState.recordOutcome, MemoryState.putAt]
  rw [hlog]
  refine .append s.log (by simp [MemoryState.log]) fun hlength => ?_
  -- the positions are places in the log, which fit a `u32` as long as the log does
  have hfits : s.events.length + 2 ≤ 2 ^ 32 := hlength
  simp only [pairwise_pair]
  rw [UInt32.lt_iff_toNat_lt, UInt32.toNat_ofNat_of_lt' (by rw [UInt32.size]; omega),
    UInt32.toNat_ofNat_of_lt' (by rw [UInt32.size]; omega)]
  omega

theorem advances_execute (s : StoreState) (now : UInt64) (mutation : Mutation) :
    s.log.Advances (mutation.execute now s).2.log := by
  cases mutation with
  | transaction txn =>
    simp only [Mutation.execute]
    rcases s.compareAndCommit_eq now txn with hsame | ⟨outcome, -, hnext⟩
    · rw [hsame]
      exact .refl _
    · rw [hnext]
      exact advances_applyMutations s txn.mutations
  | registerNode request lease =>
    have hcases := s.registerNodeSession_cases now request lease
    simp only [Mutation.execute]
    generalize (s.registerNodeSession now request lease).1 = reply at hcases
    generalize (s.registerNodeSession now request lease).2 = next at hcases ⊢
    cases hcases with
    | registered session nodeEpochs => exact advances_applyRegistration s session nodeEpochs _
    | _ => exact .refl _

theorem advances_stage (s : StoreState) (batch : List (UInt64 × Mutation)) :
    s.log.Advances (stage s batch).2.log := by
  induction batch generalizing s with
  | nil => exact .refl _
  | cons item rest ih => exact (advances_execute s item.1 item.2).trans (ih _)

/-! ## The log of a deployment -/

variable {β : Type} {codec : SnapshotCodec β} {d d' : Deployment β}

section

variable (codec : SnapshotCodec β) (d : Deployment β)

/-- The log that a process would start with. -/
def Deployment.log : EventLog :=
  match openStore codec d.backend with
  | .ok process => process.committed.log
  | .error _ => ⟨0, []⟩

end

theorem Deployment.Holds.log {state} (h : d.Holds codec state) : d.log codec = state.log := by
  obtain ⟨process, hopen, hsame⟩ := h
  rw [Deployment.log, hopen]
  exact congrArg₂ EventLog.mk hsame.revision hsame.events

/-- The log of a deployment advances. -/
theorem DeploymentStep.advances (hcodec : codec.Lossless) (h : DeploymentStep codec d label d')
    (hmirrors : d.Mirrors codec) : (d.log codec).Advances (d'.log codec) := by
  obtain ⟨-, ⟨hkept, -⟩ | ⟨process, turn, htakes, -, hholds⟩⟩ := h.mirrors hcodec hmirrors
  · have hsame : d'.log codec = d.log codec := by rw [Deployment.log, Deployment.log, hkept]
    exact hsame ▸ .refl _
  · rw [hholds.log, (hmirrors process htakes.running htakes.live).log]
    exact advances_stage process.committed turn.batch

end Afs
