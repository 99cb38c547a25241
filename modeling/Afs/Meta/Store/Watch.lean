import Afs.Meta.Store.EventLog

/-!
# `Meta.Store.Watch` — watchers of the event log

`watch` answers the events after a revision, cut at the end of a revision, and where to resume. A watcher polls, with
commits, failures and restarts of the store between two polls.

What a watcher has received is the part of the log between the revision it started from and its cursor. Counters that
have run out (the revision saturates, the position of an event is a `u32`) are caught by `validateOrder`: the poll fails
and the cursor stays.
-/

namespace Afs

open List UInt64

/-! ## Watching -/

/-- `WatchBatch::Events`. The store keeps its whole log, so it never reports a compacted one. -/
structure WatchBatch where
  (startRevision nextRevision : StoreRevision)
  events : List WatchEvent

/-- The loop of `validate_order`, with the position of the event before. -/
def validatePositions (start : StoreRevision) : Option (StoreRevision × UInt32) → List WatchEvent →
    Result (Option (StoreRevision × UInt32))
  | previous, [] => .ok previous
  | previous, event :: rest =>
    if event.revision ≤ start || previous.any fun position =>
        event.revision < position.1 || event.revision = position.1 && event.eventIndex ≤ position.2 then
      .error (invalidContract "watch events must be strictly ordered")
    else validatePositions start (some (event.revision, event.eventIndex)) rest

def WatchBatch.validateOrder (batch : WatchBatch) : Result Unit := do
  let previous ← validatePositions batch.startRevision none batch.events
  if previous.any fun position => position.1 ≥ batch.nextRevision then
    .error (invalidContract "next_revision must be greater than the last event")
  else .ok ()

/-- If a positive limit is exceeded, the events up to the end of the revision that the limit falls into. -/
def cutAtLimit (limit : Nat) (events : List WatchEvent) : List WatchEvent :=
  if h : 0 < limit ∧ limit < events.length then
    let cutoff := events[limit - 1].revision
    events.filter fun event => event.revision ≤ cutoff
  else events

section

variable (state : MemoryState) (after : StoreRevision) (limit : Nat)

/-- The events that a poll answers. -/
def MemoryState.watchedEvents : List WatchEvent :=
  cutAtLimit limit (state.events.filter fun event => after < event.revision)

/-- The batch that a poll answers, if it is in order. -/
def MemoryState.watchBatch : WatchBatch :=
  let events := state.watchedEvents after limit
  ⟨after, (events.getLast?.map (StoreRevision.next ·.revision)).getD after.next, events⟩

/-- `MetaStore::watch` on the authority state. -/
def MemoryState.watch : Result WatchBatch := do
  let batch := state.watchBatch after limit
  batch.validateOrder
  return batch

end

/-- `Store::watch`. -/
def StoreProcess.watch (process : StoreProcess) (after : StoreRevision) (limit : Nat) : Result WatchBatch := do
  let state ← process.visible
  state.watch after limit

/-- Where the next poll may resume: before `next_revision`, or after the last revision of the batch, which is
    complete. -/
def WatchBatch.resumePoints (batch : WatchBatch) : List StoreRevision :=
  [batch.nextRevision - 1, (batch.events.getLast?.map (·.revision)).getD batch.startRevision]

/-! ## One poll -/

theorem validatePositions_eq_ok {start previous last events} (h : validatePositions start previous events = .ok last) :
    last = (events.getLast?.map fun event => (event.revision, event.eventIndex)).or previous := by
  induction events generalizing previous with
  | nil =>
    cases h
    rfl
  | cons event rest ih =>
    rw [validatePositions] at h
    split at h
    · cases h
    rw [ih h, getLast?_cons]
    cases rest.getLast? <;> rfl

theorem validatePositions_of_ordered {start events}
    (hstart : ∀ event ∈ events, start < event.revision) (hordered : events.Pairwise WatchEvent.Before) {previous}
    (hprevious : ∀ position ∈ previous, ∀ event ∈ events,
      position.1 < event.revision ∨ position.1 = event.revision ∧ position.2 < event.eventIndex) :
    ∃ last, validatePositions start previous events = .ok last := by
  induction events generalizing previous with
  | nil => exact ⟨previous, rfl⟩
  | cons event rest ih =>
    obtain ⟨hfirst, hrest⟩ := pairwise_cons.mp hordered
    obtain ⟨hevent, hlater⟩ := forall_mem_cons.mp hstart
    have hafter : previous.any (fun position =>
        event.revision < position.1 || event.revision = position.1 && event.eventIndex ≤ position.2) = false := by
      cases previous with
      | none => rfl
      | some position =>
        simp only [Option.any_some, Bool.or_eq_false_iff, Bool.and_eq_false_imp, decide_eq_true_eq,
          decide_eq_false_iff_not]
        rcases hprevious position rfl event (mem_cons_self ..) with hlt | ⟨heq, hlt⟩
        · refine ⟨fun hgt => UInt64.lt_irrefl _ (UInt64.lt_trans hlt hgt), fun heq => ?_⟩
          exact absurd hlt (heq ▸ UInt64.lt_irrefl _)
        · exact ⟨heq ▸ UInt64.lt_irrefl _, fun _ => UInt32.not_le.mpr hlt⟩
    rw [validatePositions, if_neg (by simpa [hafter] using hevent)]
    refine ih hlater hrest fun position hposition later hmem => ?_
    cases hposition
    exact hfirst later hmem

theorem exists_cutAtLimit (limit : Nat) (events : List WatchEvent) :
    ∃ cutoff : WatchEvent → Bool,
      (∀ event later, cutoff later = true → event.stamp ≤ later.stamp → cutoff event = true) ∧
      cutAtLimit limit events = events.filter cutoff ∧ (events ≠ [] → cutAtLimit limit events ≠ []) := by
  unfold cutAtLimit
  split
  · next hlimit =>
    refine ⟨fun event => event.revision ≤ events[limit - 1].revision, fun event later hlater hle => ?_,
      rfl, fun _ => ?_⟩
    · simp only [decide_eq_true_eq, le_iff_toNat_le] at hlater ⊢
      exact le_trans hle hlater
    · -- the event at the limit is kept
      have hkept : events[limit - 1] ∈ events.filter fun event => event.revision ≤ events[limit - 1].revision :=
        mem_filter.mpr ⟨getElem_mem _, decide_eq_true (UInt64.le_refl _)⟩
      exact ne_nil_of_mem hkept
  · exact ⟨fun _ => true, fun _ _ _ _ => rfl, (filter_true _).symm, fun hne => hne⟩

namespace MemoryState

variable {state : MemoryState} {after : StoreRevision} {limit : Nat} {batch : WatchBatch}

theorem watch_eq_ok (h : state.watch after limit = .ok batch) :
    batch = state.watchBatch after limit ∧
      ∀ last, batch.events.getLast? = some last → last.revision < batch.nextRevision := by
  simp only [watch, bind, Except.bind] at h
  split at h
  · cases h
  next hvalid =>
  cases h
  refine ⟨rfl, fun last hlast => ?_⟩
  simp only [WatchBatch.validateOrder, bind, Except.bind] at hvalid
  split at hvalid
  · cases hvalid
  next position hposition =>
  split at hvalid
  · cases hvalid
  next hnext =>
  rw [validatePositions_eq_ok hposition, hlast] at hnext
  simpa using hnext

/-- The polled events are those after the revision that lie at or before some revision, and some if there are any. -/
theorem watchedEvents_eq (state : MemoryState) (after : StoreRevision) (limit : Nat) :
    ∃ cutoff : WatchEvent → Bool,
      (∀ event later, cutoff later = true → event.stamp ≤ later.stamp → cutoff event = true) ∧
      state.watchedEvents after limit =
        (state.events.filter fun event => after.toNat < event.stamp).filter cutoff ∧
      ((state.events.filter fun event => after.toNat < event.stamp) ≠ [] → state.watchedEvents after limit ≠ []) := by
  have hstamp : (state.events.filter fun event => after < event.revision) =
      state.events.filter fun event => after.toNat < event.stamp :=
    filter_congr fun event _ => decide_eq_decide.mpr lt_iff_toNat_lt
  unfold watchedEvents
  exact exists_cutAtLimit limit _

/-- **A poll answers a part of the log**: nothing, or the events between the revision asked for and the end of another,
    which is not the last there is. -/
theorem events_of_watch (hordered : state.log.Ordered) (h : state.watch after limit = .ok batch) :
    (batch.events = [] ∧ batch.nextRevision = after.next) ∨
      ∃ last, batch.events.getLast? = some last ∧ after < last.revision ∧ last.revision ≤ state.revision ∧
        last.revision < maxValue ∧ batch.nextRevision = last.revision.next ∧
        batch.events = Cursor.between WatchEvent.stamp state.events after.toNat last.revision.toNat := by
  obtain ⟨hbatch, hvalid⟩ := watch_eq_ok h
  obtain ⟨cutoff, hcutoff, hcut, -⟩ := watchedEvents_eq state after limit
  have hpart : batch.events = (state.events.filter fun event => after.toNat < event.stamp).filter cutoff := by
    rw [hbatch]
    exact hcut
  have hnext : batch.nextRevision = (batch.events.getLast?.map (StoreRevision.next ·.revision)).getD after.next := by
    rw [hbatch]
    rfl
  have hmem : ∀ event ∈ batch.events, event ∈ state.events ∧ after < event.revision := by
    intro event hevent
    rw [hpart, mem_filter, mem_filter, decide_eq_true_eq] at hevent
    exact ⟨hevent.1.1, lt_iff_toNat_lt.mpr hevent.1.2⟩
  by_cases hne : batch.events = []
  · exact .inl ⟨hne, by rw [hnext, hne]; rfl⟩
  · have hlast := getLast?_eq_some_getLast hne
    obtain ⟨hlogged, hafter⟩ := hmem _ (getLast_mem hne)
    have hfollows : batch.nextRevision = StoreRevision.next (batch.events.getLast hne).revision := by
      rw [hnext, hlast]
      rfl
    have hbelow := hvalid _ hlast
    rw [hfollows, lt_iff_toNat_lt, EventLog.toNat_next] at hbelow
    refine .inr ⟨batch.events.getLast hne, hlast, hafter, hordered.bounded _ hlogged, ?_, hfollows, ?_⟩
    · rw [lt_iff_toNat_lt, toNat_maxValue]
      omega
    · exact Cursor.filter_eq_between hordered.sorted hcutoff hpart hne

/-- **A poll succeeds** as long as the counters have not run out, and answers something if there is anything after the
    revision asked for. -/
theorem exists_watch (hordered : state.log.Ordered) (hrange : state.log.InRange) (after : StoreRevision)
    (limit : Nat) :
    ∃ batch, state.watch after limit = .ok batch ∧
      (batch.events = [] → ∀ event ∈ state.events, event.revision ≤ after) := by
  obtain ⟨cutoff, -, hcut, hsome⟩ := watchedEvents_eq state after limit
  have hsublist : (state.watchedEvents after limit).Sublist state.events := by
    rw [hcut]
    exact filter_sublist.trans filter_sublist
  have hafter : ∀ event ∈ state.watchedEvents after limit, after < event.revision := by
    intro event hmem
    rw [hcut, mem_filter, mem_filter, decide_eq_true_eq] at hmem
    exact lt_iff_toNat_lt.mpr hmem.1.2
  obtain ⟨position, hposition⟩ := validatePositions_of_ordered hafter ((hordered.positioned hrange).sublist hsublist)
    (fun position hposition => absurd hposition (Option.not_mem_none position))
  have hbelow : position.any (fun position => position.1 ≥ (state.watchBatch after limit).nextRevision) = false := by
    rw [validatePositions_eq_ok hposition]
    cases hlast : (state.watchedEvents after limit).getLast? with
    | none => rfl
    | some last =>
      have hle : last.revision ≤ state.revision := hordered.bounded last (hsublist.subset (mem_of_getLast? hlast))
      have hmax : state.revision < maxValue := hrange.1
      have hlt : last.revision < StoreRevision.next last.revision := by
        rw [le_iff_toNat_le] at hle
        rw [lt_iff_toNat_lt, toNat_maxValue] at hmax
        rw [lt_iff_toNat_lt, EventLog.toNat_next]
        omega
      simpa [watchBatch, hlast] using hlt
  have hvalid : (state.watchBatch after limit).validateOrder = .ok () := by
    show (validatePositions after none (state.watchedEvents after limit) >>= _) = _
    rw [hposition]
    simp only [bind, Except.bind, hbelow, Bool.false_eq_true, if_false]
  refine ⟨state.watchBatch after limit, ?_, fun hnil event hmem => ?_⟩
  · simp only [watch, hvalid, bind, Except.bind]
    rfl
  · by_contra hlater
    refine hsome ?_ hnil
    refine ne_nil_of_mem (mem_filter.mpr ⟨hmem, ?_⟩)
    rw [decide_eq_true_eq, WatchEvent.stamp, ← lt_iff_toNat_lt]
    exact UInt64.not_le.mp hlater

end MemoryState

/-! ## Watchers -/

variable {β : Type} {codec : SnapshotCodec β}

/-- A watcher: the revision it resumes after, and the batches it has received. -/
structure Watcher where
  cursor : StoreRevision
  batches : List WatchBatch

/-- All that the watcher has received, in order. -/
def Watcher.received (watcher : Watcher) : List WatchEvent := watcher.batches.flatMap (·.events)

/-- The steps of a deployment with a watcher. A poll that fails delivers nothing, and the watcher tries again from where
    it is. -/
inductive WatchedStep (codec : SnapshotCodec β) : Deployment β × Watcher → Deployment β × Watcher → Prop
  | store {d d' label} (watcher : Watcher) (h : DeploymentStep codec d label d') :
      WatchedStep codec (d, watcher) (d', watcher)
  | polled {d watcher process limit batch resume} (hrunning : d.process = some process) (hlimit : 0 < limit)
      (hbatch : process.watch watcher.cursor limit = .ok batch) (hresume : resume ∈ batch.resumePoints) :
      WatchedStep codec (d, watcher) (d, ⟨resume, watcher.batches ++ [batch]⟩)
  | refused {d watcher process limit e} (hrunning : d.process = some process) (hlimit : 0 < limit)
      (herror : process.watch watcher.cursor limit = .error e) : WatchedStep codec (d, watcher) (d, watcher)

abbrev WatchedRun (codec : SnapshotCodec β) := Relation.ReflTransGen (WatchedStep codec)

/-- Where the cursor stands: where it started, or at the end of a revision of the log. A watcher that starts at the last
    revision there is steps back by one, and receives nothing either way. -/
inductive CursorAt (start : StoreRevision) (log : EventLog) (cursor : StoreRevision) : Prop
  | started (h : cursor = start)
  | steppedBack (hstart : start = UInt64.maxValue) (hcursor : cursor = UInt64.maxValue - 1)
  | advanced (hstart : start < cursor) (hlog : cursor ≤ log.revision) (hlast : cursor < UInt64.maxValue)

/-- **What a watcher has received** is the part of the log between its start and its cursor, in batches that share no
    revision. -/
structure Watched (start : StoreRevision) (log : EventLog) (watcher : Watcher) : Prop where
  received : watcher.received = Cursor.between WatchEvent.stamp log.events start.toNat watcher.cursor.toNat
  cursor : CursorAt start log watcher.cursor
  apart : watcher.batches.Pairwise fun batch later =>
    ∀ event ∈ batch.events, ∀ next ∈ later.events, event.revision < next.revision

theorem CursorAt.cursor_le_start {start cursor log} (h : CursorAt start log cursor) :
    cursor ≤ start ∨ start < cursor ∧ cursor ≤ log.revision ∧ cursor < maxValue := by
  cases h with
  | started h => exact .inl (h ▸ UInt64.le_refl _)
  | steppedBack hstart hcursor => exact .inl (hstart ▸ le_maxValue _)
  | advanced hstart hlog hlast => exact .inr ⟨hstart, hlog, hlast⟩

/-- The log advances, and what has been received stays the part it was. -/
theorem Watched.grows {start log log' watcher}
    (h : Watched start log watcher) (hgrows : log.Grows log') : Watched start log' watcher := by
  refine ⟨h.received.trans ?_, ?_, h.apart⟩
  · rcases h.cursor.cursor_le_start with hle | ⟨-, hlog, hlast⟩
    · rw [le_iff_toNat_le] at hle
      rw [Cursor.between_eq_nil hle, Cursor.between_eq_nil hle]
    · exact (hgrows.between hlog hlast _).symm
  · cases h.cursor with
    | started h => exact .started h
    | steppedBack hstart hcursor => exact .steppedBack hstart hcursor
    | advanced hstart hlog hlast => exact .advanced hstart (UInt64.le_trans hlog hgrows.1) hlast

/-- A received event is past the start and not past the cursor. -/
theorem Watched.mem {start log watcher} (h : Watched start log watcher)
    {batch} (hbatch : batch ∈ watcher.batches) {event} (hevent : event ∈ batch.events) :
    start < event.revision ∧ event.revision ≤ watcher.cursor := by
  have hmem : event ∈ watcher.received := mem_flatMap.mpr ⟨batch, hbatch, hevent⟩
  rw [h.received, Cursor.mem_between] at hmem
  exact ⟨lt_iff_toNat_lt.mpr hmem.2.1, le_iff_toNat_le.mpr hmem.2.2⟩

/-- Before the next revision is the revision itself, unless it is the last there is. -/
theorem next_sub_one {revision} (h : revision < maxValue) : StoreRevision.next revision - 1 = revision := by
  rw [UInt64.lt_iff_toNat_lt, UInt64.toNat_maxValue] at h
  have hnext := EventLog.toNat_next revision
  rw [← UInt64.toNat_inj, UInt64.toNat_sub_of_le, hnext, UInt64.toNat_one]
  · omega
  · rw [le_iff_toNat_le, hnext, toNat_one]
    omega

section Polled

variable {start resume : StoreRevision} {state : MemoryState} {watcher : Watcher} {limit : Nat} {batch : WatchBatch}

/-- A poll that answers nothing leaves the cursor, or steps it back from the last revision there is. -/
theorem Watched.polled_nothing (h : Watched start state.log watcher) (hstart : batch.startRevision = watcher.cursor)
    (hevents : batch.events = []) (hnext : batch.nextRevision = StoreRevision.next watcher.cursor)
    (hresume : resume ∈ batch.resumePoints) : Watched start state.log ⟨resume, watcher.batches ++ [batch]⟩ := by
  have hreceived : (⟨resume, watcher.batches ++ [batch]⟩ : Watcher).received = watcher.received := by
    simp [Watcher.received, hevents]
  have hapart : (watcher.batches ++ [batch]).Pairwise fun batch later =>
      ∀ event ∈ batch.events, ∀ next ∈ later.events, event.revision < next.revision := by
    refine pairwise_append.mpr ⟨h.apart, pairwise_singleton _ _, fun earlier _ later hlater event _ => ?_⟩
    rw [mem_singleton.mp hlater, hevents]
    simp
  simp only [WatchBatch.resumePoints, hevents, getLast?_nil, Option.map_none, Option.getD_none, hstart, hnext,
    mem_cons, not_mem_nil, or_false] at hresume
  by_cases hlast : watcher.cursor < UInt64.maxValue
  · rw [next_sub_one hlast, or_self] at hresume
    exact ⟨hreceived.trans (hresume ▸ h.received), hresume ▸ h.cursor, hapart⟩
  · -- only a start at the last revision leads there
    have hmax : watcher.cursor = UInt64.maxValue :=
      UInt64.le_antisymm (UInt64.le_maxValue _) (UInt64.not_lt.mp hlast)
    have hstarted : start = UInt64.maxValue := by
      cases h.cursor with
      | started hsame => exact hsame.symm.trans hmax
      | steppedBack hstart _ => exact hstart
      | advanced _ _ hbelow => exact absurd hbelow hlast
    have hle : ∀ cursor : StoreRevision, cursor.toNat ≤ start.toNat :=
      fun cursor => UInt64.le_iff_toNat_le.mp (hstarted ▸ UInt64.le_maxValue cursor)
    refine ⟨?_, ?_, hapart⟩
    · rw [hreceived, h.received, Cursor.between_eq_nil (hle _), Cursor.between_eq_nil (hle _)]
    · rcases hresume with hback | hsame
      · refine .steppedBack hstarted (hback.trans ?_)
        rw [hmax]
        decide
      · exact .started (hsame.trans (hmax.trans hstarted.symm))

/-- **A poll delivers the next part of the log.** -/
theorem Watched.polled (hordered : state.log.Ordered) (h : Watched start state.log watcher)
    (hbatch : state.watch watcher.cursor limit = .ok batch) (hresume : resume ∈ batch.resumePoints) :
    Watched start state.log ⟨resume, watcher.batches ++ [batch]⟩ := by
  rcases MemoryState.events_of_watch hordered hbatch with
    ⟨hevents, hnext⟩ | ⟨last, hlast, hafter, hlogged, hbelow, hnext, hevents⟩
  · exact h.polled_nothing (by rw [(MemoryState.watch_eq_ok hbatch).1]; rfl) hevents hnext hresume
  · have hcursor : resume = last.revision := by
      simpa [WatchBatch.resumePoints, hlast, hnext, next_sub_one hbelow] using hresume
    have hstart : start ≤ watcher.cursor := by
      cases h.cursor with
      | started hsame => exact hsame ▸ UInt64.le_refl _
      | steppedBack _ hback =>
        -- past the cursor there is only the last revision, which no poll answers
        rw [hback, lt_iff_toNat_lt] at hafter
        rw [lt_iff_toNat_lt] at hbelow
        have hvalue : (maxValue - 1).toNat + 1 = maxValue.toNat := by decide
        omega
      | advanced hstart _ _ => exact UInt64.le_of_lt hstart
    subst hcursor
    refine ⟨?_, .advanced (UInt64.lt_of_le_of_lt hstart hafter) hlogged hbelow, ?_⟩
    · have hreceived : (⟨last.revision, watcher.batches ++ [batch]⟩ : Watcher).received =
          watcher.received ++ batch.events := by
        simp [Watcher.received]
      rw [hreceived, h.received, hevents]
      exact Cursor.between_append_between hordered.sorted (le_iff_toNat_le.mp hstart)
        (UInt64.le_iff_toNat_le.mp (UInt64.le_of_lt hafter))
    · refine pairwise_append.mpr ⟨h.apart, pairwise_singleton _ _, ?_⟩
      intro earlier hearlier later hlater event hevent next hmem
      rw [mem_singleton.mp hlater, hevents, Cursor.mem_between] at hmem
      exact UInt64.lt_of_le_of_lt (h.mem hearlier hevent).2 (UInt64.lt_iff_toNat_lt.mpr hmem.2.1)

end Polled

/-- The state of a deployment with a watcher, along a run. -/
structure WatchedDeployment (codec : SnapshotCodec β) (start : StoreRevision) (d : Deployment β) (watcher : Watcher) :
    Prop where
  mirrors : d.Mirrors codec
  ordered : (d.log codec).Ordered
  watched : Watched start (d.log codec) watcher

theorem WatchedDeployment.initial (codec : SnapshotCodec β) (start : StoreRevision) :
    WatchedDeployment codec start ⟨none, none⟩ ⟨start, []⟩ := by
  have hlog : Deployment.log codec (⟨none, none⟩ : Deployment β) = ⟨0, []⟩ := rfl
  refine ⟨nofun, ?_, ?_⟩
  · rw [hlog]
    exact ⟨.nil, by simp, by simp, fun _ => .nil⟩
  · exact ⟨(Cursor.between_eq_nil le_rfl).symm, .started rfl, .nil⟩

theorem WatchedDeployment.step (hcodec : codec.Lossless) {start d d' watcher watcher'}
    (h : WatchedDeployment codec start d watcher)
    (hstep : WatchedStep codec (d, watcher) (d', watcher')) : WatchedDeployment codec start d' watcher' := by
  cases hstep with
  | store _ hstep =>
    have hadvances := hstep.advances hcodec h.mirrors
    exact ⟨(hstep.mirrors hcodec h.mirrors).1, hadvances.ordered h.ordered, h.watched.grows hadvances.grows⟩
  | polled hrunning _ hbatch hresume =>
    unfold StoreProcess.watch StoreProcess.visible at hbatch
    split at hbatch
    · cases hbatch
    next hlive =>
    have hlog := (h.mirrors _ hrunning (Bool.eq_false_iff.mpr hlive)).log
    refine ⟨h.mirrors, h.ordered, ?_⟩
    rw [hlog]
    exact (hlog ▸ h.watched).polled (hlog ▸ h.ordered) hbatch hresume
  | refused _ _ _ => exact h

theorem WatchedDeployment.run (hcodec : codec.Lossless) {start d watcher}
    (h : WatchedRun codec (⟨none, none⟩, ⟨start, []⟩) (d, watcher)) : WatchedDeployment codec start d watcher := by
  generalize hlast : (d, watcher) = last at h
  induction h generalizing d watcher with
  | refl =>
    cases hlast
    exact .initial codec start
  | tail _ hstep ih =>
    subst hlast
    exact (ih rfl).step hcodec hstep

/-- **Watch delivers every event exactly once.** In every run of a deployment from an empty backend, with commits,
    failures and restarts between the polls of a watcher that uses any positive limits and resumes before
    `next_revision` or after the last revision of the batch: what it has received is the log from its start to its
    cursor, without a gap and in order; two batches share no revision; and as long as the counters of the log have not
    run out, a process that serves at all answers a poll, and with an empty batch only if nothing is left. -/
theorem watch_delivers_exactly_once (hcodec : codec.Lossless) {start : StoreRevision} {d : Deployment β}
    {watcher : Watcher} (hrun : WatchedRun codec (⟨none, none⟩, ⟨start, []⟩) (d, watcher)) :
    (∃ before after, (d.log codec).events = before ++ watcher.received ++ after ∧
      (∀ event ∈ before, event.revision ≤ start) ∧ (start = 0 → before = []) ∧
      ∀ event ∈ after, watcher.cursor < event.revision) ∧
    (watcher.batches.Pairwise fun batch later =>
      ∀ event ∈ batch.events, ∀ next ∈ later.events, event.revision < next.revision) ∧
    ((d.log codec).InRange → ∀ process, d.process = some process → process.poisoned = false → ∀ limit,
      ∃ batch, process.watch watcher.cursor limit = .ok batch ∧
        (batch.events = [] → ∀ event ∈ (d.log codec).events, event.revision ≤ watcher.cursor)) := by
  obtain ⟨hmirrors, hordered, hwatched⟩ := WatchedDeployment.run hcodec hrun
  refine ⟨?_, hwatched.apart, fun hrange process hrunning hlive limit => ?_⟩
  · obtain ⟨before, after, hlog, hbefore, hafter⟩ :=
      Cursor.exists_append_between_append hordered.sorted start.toNat watcher.cursor.toNat
    have hstart : ∀ event ∈ before, event.revision ≤ start :=
      fun event hevent => le_iff_toNat_le.mpr (hbefore event hevent)
    refine ⟨before, after, hwatched.received ▸ hlog, hstart, fun hzero => ?_,
      fun event hevent => lt_iff_toNat_lt.mpr (hafter event hevent)⟩
    refine eq_nil_iff_forall_not_mem.mpr fun event hevent => ?_
    have hpositive := hordered.positive event (by rw [hlog]; simp [hevent])
    exact UInt64.not_lt.mpr (hzero ▸ hstart event hevent) hpositive
  · have hlog := (hmirrors process hrunning hlive).log
    rw [hlog] at hordered hrange ⊢
    obtain ⟨batch, hbatch, hempty⟩ := MemoryState.exists_watch hordered hrange watcher.cursor limit
    have hvisible : process.visible = .ok process.committed := by simp [StoreProcess.visible, hlive]
    refine ⟨batch, ?_, hempty⟩
    rw [StoreProcess.watch, hvisible]
    exact hbatch

/-! A node registers, which logs two events at one revision. A poll with limit 1 gets both. -/

def registeredProcess : StoreProcess := (freshProcess.commitBatch (registerTurn "a" (.ok 1))).1

theorem watch_delivers_exactly_once_of_registration :
    ∃ (d : Deployment PersistedMemoryState) (watcher : Watcher),
      WatchedRun plainSnapshots (⟨none, none⟩, ⟨0, []⟩) (d, watcher) ∧ watcher.received.length = 2 ∧
        ∃ after, (d.log plainSnapshots).events = watcher.received ++ after := by
  have hserviced : ∀ item ∈ (registerTurn "a" (.ok 1)).batch, item.2.Serviced := by
    simp [registerTurn, registering, Mutation.Serviced]
  have hopened := Relation.ReflTransGen.single (WatchedStep.store ⟨0, []⟩
    (.opened ⟨none, none⟩ freshProcess (show openStore plainSnapshots none = _ from rfl)))
  have hregistered := hopened.tail (.store _ (.persisted _ freshProcess (registerTurn "a" (.ok 1)) 1 _
    ⟨rfl, rfl, hserviced⟩ (by decide +kernel) rfl rfl (by simp [registerTurn])))
  have hpolled := hregistered.tail (.polled rfl Nat.one_pos
    (show registeredProcess.watch 0 1 = .ok (registeredProcess.committed.watchBatch 0 1) from rfl)
    (mem_cons_self ..))
  obtain ⟨⟨before, after, hlog, -, hbefore, -⟩, -, -⟩ := watch_delivers_exactly_once plainSnapshots_lossless hpolled
  rw [hbefore rfl, nil_append] at hlog
  exact ⟨_, _, hpolled, by decide +kernel, after, hlog⟩

end Afs
