import Afs.Meta.Store.CommitLoop

/-!
# `Meta.Store.Sessions` — node sessions and their epochs

A node registers the session of its process; the session becomes the current one of the node and is fenced by the next
one. `SessionsFollow` says what happens to the sessions along a run: epochs only grow, and the current session of a
node either stays the same under the same epoch or has been followed by one with an epoch above all earlier ones.

A session that was replaced is only turned away once its own lease has expired. While it lives, its process can register
it again and take the node back from its successor (`live_session_returns`), so `replaced_session_stays_replaced` is
about runs in which a session is registered when it is new or current.
-/

open Relation (ReflTransGen)

namespace Afs

open StoreState

variable {s s' s'' : StoreState} {node : String}

variable {session : NodeSession} {lease : NodeSessionLease} {sessionId : String}

namespace StoreState

/-- The session is the current one of the node. -/
def CurrentSession (s : StoreState) (node : String) (session : NodeSession) : Prop :=
  s.get (.currentNodeSession node) = some (.nodeSession session)

/-- The last epoch given to a session of the node. -/
def nodeEpoch (s : StoreState) (node : String) : UInt64 := (s.nodeEpochs.lookup node).getD 0

end StoreState

/-! ## Runs -/

/-- The keys under which sessions are recorded. -/
def MetaKey.ofSession : MetaKey → Bool
  | .nodeSession _ _ => true
  | .currentNodeSession _ => true
  | _ => false

/-- What the registrations of a run meet. -/
abbrev RegisterCondition := StoreState → NodeSessionLease → Prop

/-- The steps of the store: registrations, and transactions that write records other than sessions. -/
inductive SessionStep (condition : RegisterCondition) (s : StoreState) : StoreState → Prop
  | register (now : UInt64) (request : RequestKey) (lease : NodeSessionLease) (h : condition s lease) :
      SessionStep condition s (s.registerNodeSession now request lease).2
  | commit (now : UInt64) (txn : MetaTxn)
      (h : ∀ mutation ∈ txn.mutations, ∀ key, mutation.target = some key → key.ofSession = false) :
      SessionStep condition s (s.compareAndCommit now txn).2

abbrev SessionRun (condition : RegisterCondition) := ReflTransGen (SessionStep condition)

/-- The session to register is new or the current one of its node, and the epochs of the node are not used up. -/
def newOrCurrent : RegisterCondition := fun s lease =>
  (s.get (.nodeSession lease.nodeId lease.sessionId) = none ∨
    ∃ session, s.CurrentSession lease.nodeId session ∧ session.sessionId = lease.sessionId) ∧
  s.nodeEpoch lease.nodeId ≠ .maxValue

/-! ## One step -/

/-- The epoch of a registration, and the epochs it leaves. -/
inductive EpochCase (s : StoreState) (lease : NodeSessionLease) :
    UInt64 → AList (fun _ : String => UInt64) → Prop
  | renewed (current : NodeSession) (h : s.CurrentSession lease.nodeId current)
      (hsame : current.sessionId = lease.sessionId) : EpochCase s lease current.leaseEpoch s.nodeEpochs
  | next (epoch : UInt64) (h : epoch = (s.nodeEpoch lease.nodeId).saturatingAdd 1) :
      EpochCase s lease epoch (s.nodeEpochs.insert lease.nodeId epoch)

theorem registrationEpoch_cases (s : StoreState) (now : UInt64) (lease : NodeSessionLease) :
    EpochCase s lease (s.registrationEpoch now lease).1 (s.registrationEpoch now lease).2 := by
  unfold registrationEpoch
  split
  · next session hcurrent =>
    split
    · next hsame => exact .renewed session hcurrent hsame.1
    · exact .next _ rfl
  · exact .next _ rfl

/-- A registration leaves the state as it is or makes the session the current one. -/
theorem registerNodeSession_eq (s : StoreState) (now : UInt64) (request : RequestKey) (lease : NodeSessionLease) :
    (s.registerNodeSession now request lease).2 = s ∨
    ∃ session nodeEpochs outcome, session.nodeId = lease.nodeId ∧ session.sessionId = lease.sessionId ∧
      EpochCase s lease session.leaseEpoch nodeEpochs ∧
      (s.registerNodeSession now request lease).2 = s.applyRegistration session nodeEpochs outcome := by
  unfold registerNodeSession
  split
  · exact .inl rfl
  split
  · exact .inl rfl
  split
  · exact .inl rfl
  split
  · exact .inl rfl
  · exact .inr ⟨_, _, _, rfl, rfl, registrationEpoch_cases s now lease, rfl⟩

theorem nodeEpochs_applyMutations (state : MemoryState) (mutations : List TxnMutation) :
    (state.applyMutations mutations).nodeEpochs = state.nodeEpochs := by
  suffices hfold : ∀ start : MemoryState × UInt32,
      (mutations.foldl MemoryState.applyMutation start).1.nodeEpochs = start.1.nodeEpochs from hfold _
  induction mutations with
  | nil => exact fun _ => rfl
  | cons mutation rest ih =>
    intro start
    rw [List.foldl_cons, ih]
    cases mutation <;> rfl

/-- Two states with the same sessions. -/
structure SameSessions (s s' : StoreState) : Prop where
  nodeEpochs : s'.nodeEpochs = s.nodeEpochs
  get : ∀ key : MetaKey, key.ofSession = true → s'.get key = s.get key

theorem SameSessions.nodeEpoch (h : SameSessions s s') (node : String) : s'.nodeEpoch node = s.nodeEpoch node := by
  rw [StoreState.nodeEpoch, h.nodeEpochs]
  rfl

theorem SameSessions.current (h : SameSessions s s') :
    s'.CurrentSession node session ↔ s.CurrentSession node session := by
  rw [StoreState.CurrentSession, h.get _ rfl]
  rfl

/-- A transaction that does not write sessions leaves them as they are. -/
theorem sameSessions_compareAndCommit (s : StoreState) (now : UInt64) {txn}
    (h : ∀ mutation ∈ txn.mutations, ∀ key, mutation.target = some key → key.ofSession = false) :
    SameSessions s (s.compareAndCommit now txn).2 := by
  rcases s.compareAndCommit_eq now txn with hsame | ⟨outcome, -, hnext⟩
  · rw [hsame]
    exact ⟨rfl, fun _ _ => rfl⟩
  · rw [hnext]
    refine ⟨nodeEpochs_applyMutations _ _, fun key hkey => ?_⟩
    refine MemoryState.get_applyMutations_of_untouched fun mutation hmem htarget => ?_
    have hother := h mutation hmem key htarget
    rw [hkey] at hother
    cases hother

/-! ## Along a run -/

/-- **What a run does to the sessions.** -/
structure SessionsFollow (s s' : StoreState) : Prop where
  epochs : ∀ node, s.nodeEpoch node ≤ s'.nodeEpoch node
  registered : ∀ node sessionId, s.get (.nodeSession node sessionId) ≠ none →
    s'.get (.nodeSession node sessionId) ≠ none
  current : ∀ node session, s.CurrentSession node session → ∃ session', s'.CurrentSession node session' ∧
    (session'.sessionId = session.sessionId ∧ session'.leaseEpoch = session.leaseEpoch ∨
      s.nodeEpoch node < session'.leaseEpoch)

namespace SessionsFollow

theorem refl (s : StoreState) : SessionsFollow s s :=
  ⟨fun _ => UInt64.le_refl _, fun _ _ h => h, fun _ session h => ⟨session, h, .inl ⟨rfl, rfl⟩⟩⟩

theorem trans (h : SessionsFollow s s') (h' : SessionsFollow s' s'') : SessionsFollow s s'' where
  epochs node := UInt64.le_trans (h.epochs node) (h'.epochs node)
  registered node sessionId hfound := h'.registered _ _ (h.registered _ _ hfound)
  current node session hcurrent := by
    obtain ⟨session', hcurrent', hstep⟩ := h.current node session hcurrent
    obtain ⟨session'', hcurrent'', hstep'⟩ := h'.current node session' hcurrent'
    refine ⟨session'', hcurrent'', ?_⟩
    rcases hstep' with ⟨hid, hepoch⟩ | hlater
    · rw [hid, hepoch]
      exact hstep
    · exact .inr (UInt64.lt_of_le_of_lt (h.epochs node) hlater)

theorem of_same (h : SameSessions s s') : SessionsFollow s s' where
  epochs node := by
    rw [h.nodeEpoch]
    exact UInt64.le_refl _
  registered node sessionId hfound := by
    rw [h.get _ rfl]
    exact hfound
  current node session hcurrent := ⟨session, h.current.mpr hcurrent, .inl ⟨rfl, rfl⟩⟩

end SessionsFollow

/-- What holds of the sessions in every state of a run: the current session of a node is registered, and its epoch was
    given to the node. -/
def SessionsKept (s : StoreState) : Prop :=
  ∀ node session, s.CurrentSession node session →
    s.get (.nodeSession node session.sessionId) ≠ none ∧ session.leaseEpoch ≤ s.nodeEpoch node

theorem SessionsKept.of_same (hkept : SessionsKept s) (h : SameSessions s s') : SessionsKept s' := by
  intro node session hcurrent
  rw [h.get _ rfl, h.nodeEpoch]
  exact hkept node session (h.current.mp hcurrent)

variable {nodeEpochs : AList (fun _ : String => UInt64)}

theorem EpochCase.epochs_le {epoch}
    (h : EpochCase s lease epoch nodeEpochs) (node : String) : s.nodeEpoch node ≤ (nodeEpochs.lookup node).getD 0 := by
  cases h with
  | renewed => exact UInt64.le_refl _
  | next _ hepoch =>
    by_cases hnode : node = lease.nodeId
    · subst hnode
      rw [AList.lookup_insert, Option.getD_some, hepoch, UInt64.le_iff_toNat_le, UInt64.toNat_saturatingAdd]
      have := (s.nodeEpoch lease.nodeId).toNat_lt
      omega
    · rw [AList.lookup_insert_ne hnode]
      exact UInt64.le_refl _

/-- The session that a registration puts, with what was current before. -/
theorem sessionsFollow_register (outcome : RequestOutcome)
    (hnode : session.nodeId = lease.nodeId) (hid : session.sessionId = lease.sessionId)
    (hepoch : EpochCase s lease session.leaseEpoch nodeEpochs) (hmax : s.nodeEpoch lease.nodeId ≠ .maxValue) :
    SessionsFollow s (s.applyRegistration session nodeEpochs outcome) where
  epochs := hepoch.epochs_le
  registered node sessionId hfound := by
    rw [get_applyRegistration]
    split
    · simp
    split
    · simp
    · exact hfound
  current node current hcurrent := by
    by_cases hsame : lease.nodeId = node
    · subst hsame
      refine ⟨session, by rw [StoreState.CurrentSession, get_applyRegistration, hnode, if_pos rfl], ?_⟩
      rw [hid]
      generalize session.leaseEpoch = epoch at hepoch ⊢
      cases hepoch with
      | renewed renewed hrenewed hrenewedId =>
        cases hcurrent.symm.trans hrenewed
        exact .inl ⟨hrenewedId.symm, rfl⟩
      | next _ hnext =>
        refine .inr ?_
        rw [hnext, UInt64.lt_iff_toNat_lt, UInt64.toNat_saturatingAdd]
        have hlt : (s.nodeEpoch lease.nodeId).toNat < 18446744073709551615 := by
          have hne : (s.nodeEpoch lease.nodeId).toNat ≠ 18446744073709551615 := by
            rw [← UInt64.toNat_maxValue]
            exact fun h => hmax (UInt64.toNat_inj.mp h)
          have := (s.nodeEpoch lease.nodeId).toNat_lt
          omega
        have hone : (1 : UInt64).toNat = 1 := rfl
        omega
    · refine ⟨current, ?_, .inl ⟨rfl, rfl⟩⟩
      rw [StoreState.CurrentSession, get_applyRegistration, hnode, if_neg (by simpa using hsame),
        if_neg (by simp)]
      exact hcurrent

theorem sessionsKept_register (outcome : RequestOutcome)
    (hnode : session.nodeId = lease.nodeId) (hepoch : EpochCase s lease session.leaseEpoch nodeEpochs)
    (hkept : SessionsKept s) : SessionsKept (s.applyRegistration session nodeEpochs outcome) := by
  intro node current hcurrent
  rw [StoreState.CurrentSession, get_applyRegistration, hnode] at hcurrent
  show _ ∧ _ ≤ (nodeEpochs.lookup node).getD 0
  rw [get_applyRegistration, if_neg (by simp), hnode]
  by_cases hsame : lease.nodeId = node
  · subst hsame
    rw [if_pos rfl] at hcurrent
    cases hcurrent
    refine ⟨by simp, ?_⟩
    generalize session.leaseEpoch = epoch at hepoch ⊢
    cases hepoch with
    | renewed renewed hrenewed _ => exact (hkept _ _ hrenewed).2
    | next _ _ =>
      rw [AList.lookup_insert]
      exact UInt64.le_refl _
  · rw [if_neg (by simpa using hsame), if_neg (by simp)] at hcurrent
    obtain ⟨hfound, hle⟩ := hkept node current hcurrent
    refine ⟨?_, UInt64.le_trans hle (hepoch.epochs_le node)⟩
    rw [if_neg (by simp [hsame])]
    exact hfound

theorem SessionStep.follow (h : SessionStep newOrCurrent s s') (hkept : SessionsKept s) :
    SessionsFollow s s' ∧ SessionsKept s' := by
  cases h with
  | register now request lease hcondition =>
    rcases registerNodeSession_eq s now request lease with
      hsame | ⟨session, nodeEpochs, outcome, hnode, hid, hepoch, hnext⟩
    · rw [hsame]
      exact ⟨.refl s, hkept⟩
    · rw [hnext]
      exact ⟨sessionsFollow_register outcome hnode hid hepoch hcondition.2,
        sessionsKept_register outcome hnode hepoch hkept⟩
  | commit now txn htxn =>
    have hsame := sameSessions_compareAndCommit s now htxn
    exact ⟨.of_same hsame, hkept.of_same hsame⟩

theorem SessionRun.follow (h : SessionRun newOrCurrent s s') (hkept : SessionsKept s) :
    SessionsFollow s s' ∧ SessionsKept s' := by
  induction h with
  | refl => exact ⟨.refl s, hkept⟩
  | tail _ hstep ih =>
    obtain ⟨hfollow, hkept'⟩ := ih
    obtain ⟨hnext, hkept''⟩ := hstep.follow hkept'
    exact ⟨hfollow.trans hnext, hkept''⟩

/-! ## Replaced sessions -/

/-- The session was registered for the node, and another one is current. -/
def ReplacedSession (s : StoreState) (node sessionId : String) : Prop :=
  s.get (.nodeSession node sessionId) ≠ none ∧
    ∃ session, s.CurrentSession node session ∧ session.sessionId ≠ sessionId

theorem SessionStep.replaced (h : SessionStep newOrCurrent s s') (hreplaced : ReplacedSession s node sessionId) :
    ReplacedSession s' node sessionId := by
  obtain ⟨hfound, current, hcurrent, hne⟩ := hreplaced
  cases h with
  | register now request lease hcondition =>
    rcases registerNodeSession_eq s now request lease with
      hsame | ⟨session, nodeEpochs, outcome, hnode, hid, hepoch, hnext⟩
    · rw [hsame]
      exact ⟨hfound, current, hcurrent, hne⟩
    · have hfollow := sessionsFollow_register outcome hnode hid hepoch hcondition.2
      rw [hnext]
      refine ⟨hfollow.registered _ _ hfound, ?_⟩
      by_cases hsame : lease.nodeId = node
      · subst hsame
        refine ⟨session, by rw [StoreState.CurrentSession, get_applyRegistration, hnode, if_pos rfl], ?_⟩
        -- a registered session that is not current does not meet the condition
        rw [hid]
        rintro rfl
        rcases hcondition.1 with hnew | ⟨current', hcurrent', hid'⟩
        · exact hfound hnew
        · cases hcurrent.symm.trans hcurrent'
          exact hne hid'
      · refine ⟨current, ?_, hne⟩
        rw [StoreState.CurrentSession, get_applyRegistration, hnode, if_neg (by simpa using hsame),
          if_neg (by simp)]
        exact hcurrent
  | commit now txn htxn =>
    have hsame := sameSessions_compareAndCommit s now htxn
    exact ⟨by rw [hsame.get _ rfl]; exact hfound, current, hsame.current.mpr hcurrent, hne⟩

theorem SessionRun.replaced (h : SessionRun newOrCurrent s s') (hreplaced : ReplacedSession s node sessionId) :
    ReplacedSession s' node sessionId := by
  induction h with
  | refl => exact hreplaced
  | tail _ hstep ih => exact hstep.replaced ih

theorem sessionsKept_new : SessionsKept new := nofun

/-- **A replaced node session stays replaced**, in every run that registers only sessions that are new or current and
    does not use up the epochs of a node. Between two states of such a run the epoch is greater whenever the current
    session of a node is another one, so one epoch belongs to one session; and a session that is no longer current is
    not current in any later state. -/
theorem replaced_session_stays_replaced (hstart : SessionRun newOrCurrent .new s) (hrun : SessionRun newOrCurrent s s')
    (hlater : SessionRun newOrCurrent s' s'') {session session' : NodeSession}
    (hcurrent : s.CurrentSession node session) (hcurrent' : s'.CurrentSession node session') :
    (session'.sessionId ≠ session.sessionId → session.leaseEpoch < session'.leaseEpoch) ∧
    (session'.leaseEpoch = session.leaseEpoch → session'.sessionId = session.sessionId) ∧
    (session'.sessionId ≠ session.sessionId → ∀ session'', s''.CurrentSession node session'' →
      session''.sessionId ≠ session.sessionId) := by
  obtain ⟨-, hkept⟩ := hstart.follow sessionsKept_new
  obtain ⟨hfollow, -⟩ := hrun.follow hkept
  obtain ⟨hregistered, hepoch⟩ := hkept node session hcurrent
  have hlt : session'.sessionId ≠ session.sessionId → session.leaseEpoch < session'.leaseEpoch := by
    intro hne
    obtain ⟨followed, hfollowed, hstep⟩ := hfollow.current node session hcurrent
    cases hcurrent'.symm.trans hfollowed
    rcases hstep with ⟨hid, -⟩ | hlater
    · exact absurd hid hne
    · exact UInt64.lt_of_le_of_lt hepoch hlater
  refine ⟨hlt, fun hsame => ?_, fun hne session'' hcurrent'' => ?_⟩
  · by_contra hne
    have := hlt hne
    rw [hsame] at this
    exact UInt64.lt_irrefl _ this
  · have hreplaced : ReplacedSession s' node session.sessionId :=
      ⟨hfollow.registered _ _ hregistered, session', hcurrent', hne⟩
    obtain ⟨-, current, hnow, hother⟩ := hlater.replaced hreplaced
    cases hcurrent''.symm.trans hnow
    exact hother

/-! Two processes of one node. -/

def sessionLease (sessionId : String) : NodeSessionLease := { nodeLease "node-a" with sessionId }

/-- The process registers its session, as `register_node` does for it: the caller is the node with the session. -/
def registerSession (s : StoreState) (sessionId requestId : String) : StoreState :=
  (s.registerNodeSession 1000 ⟨"node-a/" ++ sessionId, requestId⟩ (sessionLease sessionId)).2

def currentSessionId (s : StoreState) : Option String :=
  match s.get (.currentNodeSession "node-a") with
  | some (.nodeSession session) => some session.sessionId
  | _ => none

def firstProcess : StoreState := registerSession .new "session-1" "start"
def secondProcess : StoreState := registerSession firstProcess "session-2" "start"

theorem currentSession_of_id (h : currentSessionId s = some sessionId) :
    ∃ session, s.CurrentSession "node-a" session ∧ session.sessionId = sessionId := by
  unfold currentSessionId at h
  split at h
  · next session hcurrent => exact ⟨session, hcurrent, Option.some.inj h⟩
  · cases h

theorem replaced_session_stays_replaced_by_second_process :
    ∃ session session', firstProcess.CurrentSession "node-a" session ∧
      secondProcess.CurrentSession "node-a" session' ∧ session.leaseEpoch < session'.leaseEpoch := by
  obtain ⟨session, hcurrent, hid⟩ :=
    currentSession_of_id (show currentSessionId firstProcess = some "session-1" by decide +kernel)
  obtain ⟨session', hcurrent', hid'⟩ :=
    currentSession_of_id (show currentSessionId secondProcess = some "session-2" by decide +kernel)
  have hfirst : SessionRun newOrCurrent .new firstProcess :=
    .single (.register _ _ _ ⟨.inl (by decide +kernel), by decide +kernel⟩)
  have hsecond : SessionRun newOrCurrent firstProcess secondProcess :=
    .single (.register _ _ _ ⟨.inl (by decide +kernel), by decide +kernel⟩)
  obtain ⟨hlt, -⟩ := replaced_session_stays_replaced hfirst hsecond .refl hcurrent hcurrent'
  exact ⟨session, session', hcurrent, hcurrent', hlt (by rw [hid, hid']; decide)⟩

/-- The first process is still alive when the second one has registered, and renews its session: it is current again. -/
theorem live_session_returns :
    SessionRun (fun _ _ => True) .new firstProcess ∧
    SessionRun (fun _ _ => True) firstProcess secondProcess ∧
    SessionRun (fun _ _ => True) secondProcess (registerSession secondProcess "session-1" "heartbeat") ∧
    currentSessionId firstProcess = some "session-1" ∧ currentSessionId secondProcess = some "session-2" ∧
    currentSessionId (registerSession secondProcess "session-1" "heartbeat") = some "session-1" :=
  ⟨.single (.register _ _ _ trivial), .single (.register _ _ _ trivial), .single (.register _ _ _ trivial),
    by decide +kernel, by decide +kernel, by decide +kernel⟩

end Afs
