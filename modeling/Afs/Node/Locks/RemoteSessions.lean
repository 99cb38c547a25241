import Afs.Dfs
import Afs.Lib.Runs
import Mathlib.Data.List.AList
import Mathlib.Data.Finset.Basic

/-!
# `Node.Locks.RemoteSessions` — the remote locks of an ingress session

A node whose lock requests go to remote owners keeps, for every inode, an entry for the ingress session that asked for a
lock (`remote_lock_authority_sessions`), and the owner that it has last resolved with the epoch of its lease
(`remote_lock_authorities`). The release of the session contacts the recorded owner of every inode with an entry.

A request goes to the owner it has resolved itself, and records that owner whatever is recorded: a reply of Meta that
arrives late puts back an owner that is one no more. So an owner can hold locks of the session without being contacted
for two reasons: the entry is gone, or another owner is recorded.

The machine is the calling node with the threads of one session, and what the owners have granted to it. Every
critical section is a step. The lock table of an owner is not modelled: a request that has reached it is granted or
refused at some time, a granted lock may be lost at any time, and the release of the session takes all of its locks.
An interrupt of a blocked request has the owner refuse it, or makes the registration of its waiter fail. Requests that
unlock touch no entry and are left out, as is the background retry of releases that have failed. Entries of other
sessions matter only to the limits; `full` says that one was reached.
-/

namespace Afs.Locks

open Runs Function Finset

inductive RemoteSessionState
  | pendingClose | active

/-- Where a lock request stands in `setlk`. -/
inductive RequestPhase
  | resolved | noted | routed | sent | failed | forgetting | done
  deriving DecidableEq

/-- What the owner has done with a request. -/
inductive RequestStatus
  | unsent | pending | granted | refused
  deriving DecidableEq

/-- `DfsRemoteLockAuthority`: who has the write lease of an inode, and the epoch of the lease. -/
structure RemoteLockAuthority where
  (ownerNodeId ownerSessionId : String)
  leaseEpoch : UInt64
  deriving DecidableEq

structure RemoteRequest where
  inode : InodeId
  /-- The authority that the request has resolved, and goes to. -/
  authority : RemoteLockAuthority
  /-- The request may block, under a waiter id. -/
  blocks : Bool
  phase : RequestPhase
  /-- `remote_session_was_new`. -/
  isNew : Bool
  status : RequestStatus

/-- A request that ends without a lock removes the entry that it has made. -/
def RemoteRequest.giveUp (request : RemoteRequest) : RemoteRequest :=
  { request with phase := if request.isNew then .forgetting else .done }

/-- Where a lock is: the inode, and the authority that has granted it. -/
abbrev LockPlace := InodeId × RemoteLockAuthority

def RemoteRequest.place (request : RemoteRequest) : LockPlace := (request.inode, request.authority)

/-- The request has made the entry and is not done. -/
def RemoteRequest.First (request : RemoteRequest) : Prop := request.isNew = true ∧ request.phase ≠ .done

/-- The owner has the request or will get it. -/
def RemoteRequest.MayBeGranted (request : RemoteRequest) : Prop :=
  request.phase = .noted ∨ request.phase = .routed ∨ request.status = .pending

inductive ReleasePhase
  | marked | released

structure RemoteSessions where
  /-- `remote_lock_authority_sessions`: the entries of this session. -/
  sessions : AList fun _ : InodeId => RemoteSessionState
  /-- `remote_lock_authorities`. -/
  authorities : InodeId → Option RemoteLockAuthority
  requests : Nat → Option RemoteRequest
  /-- The releases in progress, each with the authority it has taken from `remote_lock_authorities`. -/
  releases : Nat → Option (LockPlace × ReleasePhase)
  /-- The requests whose locks an authority holds. -/
  held : LockPlace → Finset Nat
  /-- The authorities that have released the session. -/
  released : Finset LockPlace

namespace RemoteSessions

def new : RemoteSessions := ⟨∅, fun _ => none, fun _ => none, fun _ => none, fun _ => ∅, ∅⟩

/-- The authority that `release_lock_session` contacts for an inode. -/
def contacts (s : RemoteSessions) (inode : InodeId) : Option RemoteLockAuthority :=
  if (s.sessions.lookup inode).isSome then s.authorities inode else none

def setRequest (s : RemoteSessions) (n : Nat) (request : RemoteRequest) : RemoteSessions :=
  { s with requests := Function.update s.requests n (some request) }

/-- How an RPC of a request ends at the caller. -/
inductive Reply
  | ok | interrupted | failed

inductive CancelReply
  | cancelled (acknowledged : Bool) | granted | unknown

inductive Event
  /-- `remote_lock_authority`, with the lease that Meta has answered, at any time before. -/
  | resolve (n : Nat) (inode : InodeId) (authority : RemoteLockAuthority) (blocks : Bool)
  /-- `reclaim_idle_remote_lock_authorities`. -/
  | dropAuthority (inode : InodeId)
  | note (n : Nat) (full : Bool)
  | route (n : Nat) (registered : Bool)
  | send (n : Nat)
  | grant (n : Nat)
  | refuse (n : Nat)
  | lose (n : Nat)
  | reply (n : Nat) (reply : Reply) (marked : Bool)
  | cancel (n : Nat) (reply : CancelReply)
  | forget (n : Nat)
  | beginRelease (task : Nat) (place : LockPlace)
  | ownerRelease (task : Nat)
  | endRelease (task : Nat) (ok : Bool)

/-- `note_remote_lock_session`. -/
def noteSession (s : RemoteSessions) (n : Nat) (request : RemoteRequest) (full : Bool) : RemoteSessions :=
  match s.sessions.lookup request.inode with
  | some .pendingClose => s.setRequest n { request with phase := .done }
  | some .active => s.setRequest n { request with phase := .noted, isNew := false }
  | none =>
    if full then s.setRequest n { request with phase := .done }
    else { s.setRequest n { request with phase := .noted, isNew := true } with
      sessions := s.sessions.insert request.inode .active }

/-- A step of a request that is ready for it. -/
def withRequest (s : RemoteSessions) (n : Nat) (ready : RemoteRequest → Bool)
    (next : RemoteRequest → RemoteSessions) : Option RemoteSessions :=
  match s.requests n with
  | some request => if ready request then some (next request) else none
  | none => none

/-- What an owner can have answered. An answer that does not come says nothing. -/
def Reply.possible (request : RemoteRequest) : Reply → Bool
  | .ok => request.status = .granted
  | .interrupted => request.status = .refused
  | .failed => true

def CancelReply.possible (request : RemoteRequest) (held : Bool) : CancelReply → Bool
  | .cancelled _ => request.status ≠ .granted || !held
  | .granted => request.status = .granted
  | .unknown => true

/-- The rest of `setlk` after the reply of the owner. -/
def afterReply (request : RemoteRequest) (marked : Bool) : Reply → RemoteRequest
  | .ok => { request with phase := .done }
  | .interrupted => if request.blocks && marked then request.giveUp else { request with phase := .done }
  | .failed => { request with phase := if request.blocks then .failed else .done }

/-- The rest of `setlk` after an attempt to cancel the request. -/
def afterCancel (request : RemoteRequest) : CancelReply → RemoteRequest
  | .cancelled true => { request.giveUp with status := .refused }
  | .cancelled false => { request with phase := .done, status := .refused }
  | .granted | .unknown => { request with phase := .done }

/-- The end of `release_remote_lock_session_once`. -/
def endRelease (s : RemoteSessions) (task : Nat) (ok : Bool) : Option RemoteSessions :=
  match s.releases task, ok with
  | some (place, .released), true => some { s with
      sessions := s.sessions.erase place.1
      releases := Function.update s.releases task none }
  | some _, false => some { s with releases := Function.update s.releases task none }
  | _, _ => none

def step (s : RemoteSessions) : Event → Option RemoteSessions
  | .resolve n inode authority blocks =>
    if (s.requests n).isSome then none
    else some { s.setRequest n ⟨inode, authority, blocks, .resolved, false, .unsent⟩ with
      authorities := Function.update s.authorities inode (some authority) }
  | .dropAuthority inode => some { s with authorities := Function.update s.authorities inode none }
  | .note n full => s.withRequest n (fun request => request.phase = .resolved) fun request =>
      s.noteSession n request full
  | .route n registered =>
    s.withRequest n (fun request => request.phase = .noted && request.blocks) fun request =>
      s.setRequest n (if registered then { request with phase := .routed } else request.giveUp)
  | .send n =>
    s.withRequest n (fun request => request.phase = if request.blocks then .routed else .noted) fun request =>
      s.setRequest n { request with phase := .sent, status := .pending }
  | .grant n =>
    s.withRequest n (fun request => request.status = .pending) fun request =>
      { s.setRequest n { request with status := .granted } with
        held := Function.update s.held request.place (insert n (s.held request.place)) }
  | .refuse n =>
    s.withRequest n (fun request => request.status = .pending) fun request =>
      s.setRequest n { request with status := .refused }
  | .lose n =>
    s.withRequest n (fun _ => true) fun request =>
      { s with held := Function.update s.held request.place ((s.held request.place).erase n) }
  | .reply n reply marked =>
    s.withRequest n (fun request => request.phase = .sent && reply.possible request) fun request =>
      s.setRequest n (afterReply request marked reply)
  | .cancel n reply =>
    s.withRequest n (fun request => request.phase = .failed && reply.possible request (n ∈ s.held request.place))
      fun request => s.setRequest n (afterCancel request reply)
  | .forget n =>
    s.withRequest n (fun request => request.phase = .forgetting) fun request =>
      { s.setRequest n { request with phase := .done } with sessions := s.sessions.erase request.inode }
  | .beginRelease task place =>
    if (s.releases task).isSome then none
    else some { s with
      sessions := if (s.sessions.lookup place.1).isSome then s.sessions.insert place.1 .pendingClose else s.sessions
      releases := Function.update s.releases task (some (place, .marked)) }
  | .ownerRelease task =>
    match s.releases task with
    | some (place, .marked) => some { s with
        held := Function.update s.held place ∅
        released := insert place s.released
        releases := Function.update s.releases task (some (place, .released)) }
    | _ => none
  | .endRelease task ok => s.endRelease task ok

/-- Nothing depends on the authority recorded for the inode: it has no entry, no request is about to ask for one, and no
    release is in progress. -/
structure Idle (s : RemoteSessions) (inode : InodeId) : Prop where
  entry : s.sessions.lookup inode = none
  requests : ∀ n request, s.requests n = some request → request.inode = inode → request.phase ≠ .resolved
  releases : ∀ task place phase, s.releases task = some (place, phase) → place.1 ≠ inode

/-- **The condition on the steps**: while the request that has made the entry of an inode is in progress, no other one
    asks for the entry; an authority grants nothing after it has released the session; the authority recorded for an
    inode is replaced by another one or dropped only while nothing depends on it; and a release contacts the authority
    that is recorded. -/
def Orderly (s : RemoteSessions) : Event → Prop
  | .resolve _ inode authority _ => s.authorities inode = some authority ∨ s.Idle inode
  | .dropAuthority inode => s.Idle inode
  | .note n _ => ∀ request, s.requests n = some request → ∀ m other, s.requests m = some other →
      other.inode = request.inode → ¬other.First
  | .grant n => ∀ request, s.requests n = some request → request.place ∉ s.released
  | .beginRelease _ place => s.authorities place.1 = some place.2
  | _ => True

/-! ## The invariant -/

/-- **What holds in every orderly run.** -/
structure Inv (s : RemoteSessions) : Prop where
  quiet : ∀ place ∈ s.released, s.held place = ∅
  /-- An authority can grant a request only while the entry is there and the authority is the recorded one. -/
  entry : ∀ n request, s.requests n = some request → request.MayBeGranted → request.place ∉ s.released →
    (s.sessions.lookup request.inode).isSome ∧ s.authorities request.inode = some request.authority
  held : ∀ place, ∀ n ∈ s.held place, (s.sessions.lookup place.1).isSome ∧ s.authorities place.1 = some place.2 ∧
    ∃ request, s.requests n = some request ∧ request.place = place ∧ request.status = .granted
  /-- Nothing else is granted while the request that has made the entry is in progress. -/
  alone : ∀ n request, s.requests n = some request → request.First →
    (∀ place : LockPlace, place.1 = request.inode → s.held place ⊆ {n}) ∧
    ∀ m other, m ≠ n → s.requests m = some other → other.inode = request.inode → other.MayBeGranted →
      other.place ∈ s.released
  forgetting : ∀ n request, s.requests n = some request → request.phase = .forgetting →
    request.isNew = true ∧ (request.status = .unsent ∨ request.status = .refused)
  early : ∀ n request, s.requests n = some request →
    (request.phase = .resolved ∨ request.phase = .noted ∨ request.phase = .routed) → request.status = .unsent
  releases : ∀ task place phase, s.releases task = some (place, phase) →
    s.authorities place.1 = some place.2 ∧ (phase = .released → place ∈ s.released)
  resolved : ∀ n request, s.requests n = some request → request.phase = .resolved →
    s.authorities request.inode = some request.authority

theorem requests_setRequest {s : RemoteSessions} {n m : Nat} {request other : RemoteRequest} :
    (s.setRequest n request).requests m = some other ↔
      m = n ∧ other = request ∨ m ≠ n ∧ s.requests m = some other := by
  unfold setRequest
  by_cases hm : m = n
  · subst hm
    simp [eq_comm]
  · simp [hm]

/-- What holds of a request as it is now and of all others holds of all requests. -/
theorem forall_setRequest {s : RemoteSessions} {n : Nat} {request : RemoteRequest} {P : Nat → RemoteRequest → Prop}
    (hnew : P n request) (hold : ∀ m other, s.requests m = some other → P m other) (m : Nat) (other : RemoteRequest)
    (hm : (s.setRequest n request).requests m = some other) : P m other := by
  obtain ⟨rfl, rfl⟩ | ⟨-, hm⟩ := requests_setRequest.mp hm
  · exact hnew
  · exact hold m other hm

/-- A request goes on, without becoming one that may be granted or has made the entry. -/
structure Follows (s : RemoteSessions) (n : Nat) (old request : RemoteRequest) : Prop where
  place : request.place = old.place
  may : request.MayBeGranted → old.MayBeGranted
  first : request.First → old.First
  held : n ∈ s.held old.place → request.status = .granted
  forgetting : request.phase = .forgetting →
    request.isNew = true ∧ (request.status = .unsent ∨ request.status = .refused)
  early : request.phase = .noted ∨ request.phase = .routed → request.status = .unsent
  resolved : request.phase ≠ .resolved

variable {s : RemoteSessions} {n : Nat} {old request : RemoteRequest}

theorem Follows.inode (h : Follows s n old request) : request.inode = old.inode := congrArg Prod.fst h.place

theorem Inv.setRequest (h : Inv s) (hold : s.requests n = some old) (hfollows : Follows s n old request) :
    Inv (s.setRequest n request) where
  quiet := h.quiet
  entry := by
    refine forall_setRequest (fun hmay hreleased => ?_) h.entry
    have hauthority : request.authority = old.authority := congrArg Prod.snd hfollows.place
    rw [hfollows.place] at hreleased
    rw [hfollows.inode, hauthority]
    exact h.entry n old hold (hfollows.may hmay) hreleased
  held := by
    intro place m hm
    obtain ⟨hentry, hauthority, other, hother, rfl, hgranted⟩ := h.held place m hm
    refine ⟨hentry, hauthority, ?_⟩
    by_cases hmn : m = n
    · subst hmn
      rw [hold] at hother
      cases hother
      exact ⟨request, requests_setRequest.mpr (.inl ⟨rfl, rfl⟩), hfollows.place, hfollows.held hm⟩
    · exact ⟨other, requests_setRequest.mpr (.inr ⟨hmn, hother⟩), rfl, hgranted⟩
  alone := by
    intro m first hm hfirst
    -- the request is seen as the first one, or as one of the others
    obtain ⟨rfl, rfl⟩ | ⟨hmn, hm⟩ := requests_setRequest.mp hm
    · obtain ⟨hheld, hothers⟩ := h.alone m old hold (hfollows.first hfirst)
      rw [hfollows.inode]
      refine ⟨hheld, ?_⟩
      intro k other hk hother hinode hmay
      obtain ⟨rfl, -⟩ | ⟨-, hother⟩ := requests_setRequest.mp hother
      · exact absurd rfl hk
      · exact hothers k other hk hother hinode hmay
    · obtain ⟨hheld, hothers⟩ := h.alone m first hm hfirst
      refine ⟨hheld, ?_⟩
      intro k other hk hother hinode hmay
      obtain ⟨rfl, rfl⟩ | ⟨-, hother⟩ := requests_setRequest.mp hother
      · rw [hfollows.place]
        exact hothers k old hk hold (hfollows.inode ▸ hinode) (hfollows.may hmay)
      · exact hothers k other hk hother hinode hmay
  forgetting := forall_setRequest hfollows.forgetting h.forgetting
  early := forall_setRequest (fun hphase => hfollows.early (hphase.resolve_left hfollows.resolved)) h.early
  releases := h.releases
  resolved := forall_setRequest (fun hphase => absurd hphase hfollows.resolved) h.resolved

/-- A request gets the entry, which it makes if there is none. -/
theorem Inv.noted (h : Inv s) (hold : s.requests n = some old) (hphase : old.phase = .resolved)
    {sessions : AList fun _ : InodeId => RemoteSessionState} {isNew : Bool}
    (hkeep : ∀ inode, (sessions.lookup inode).isSome ↔ (s.sessions.lookup inode).isSome ∨ inode = old.inode)
    (hnew : isNew = true → s.sessions.lookup old.inode = none)
    (hfirst : ∀ m other, s.requests m = some other → other.inode = old.inode → ¬other.First) :
    Inv { s.setRequest n { old with phase := .noted, isNew := isNew } with sessions := sessions } where
  quiet := h.quiet
  entry := by
    refine forall_setRequest (fun _ _ => ⟨(hkeep _).mpr (.inr rfl), h.resolved n old hold hphase⟩) ?_
    intro m other hm hmay hreleased
    obtain ⟨hentry, hauthority⟩ := h.entry m other hm hmay hreleased
    exact ⟨(hkeep _).mpr (.inl hentry), hauthority⟩
  held := by
    intro place m hm
    obtain ⟨hentry, hauthority, other, hother, rfl, hgranted⟩ := h.held place m hm
    refine ⟨(hkeep _).mpr (.inl hentry), hauthority, ?_⟩
    by_cases hmn : m = n
    · subst hmn
      rw [hold] at hother
      cases hother
      rw [h.early m old hold (.inl hphase)] at hgranted
      cases hgranted
    · exact ⟨other, requests_setRequest.mpr (.inr ⟨hmn, hother⟩), rfl, hgranted⟩
  alone := by
    intro m first hm hisFirst
    obtain ⟨rfl, rfl⟩ | ⟨hmn, hm⟩ := requests_setRequest.mp hm
    · -- there was no entry, so that nothing was held and nothing could be granted
      have hnone := hnew hisFirst.1
      refine ⟨?_, ?_⟩
      · intro place hplace k hk
        have hentry := (h.held place k hk).1
        rw [hplace, hnone] at hentry
        cases hentry
      · intro k other hk hother hinode hmay
        obtain ⟨rfl, -⟩ | ⟨-, hother⟩ := requests_setRequest.mp hother
        · exact absurd rfl hk
        · by_contra hreleased
          have hentry := (h.entry k other hother hmay hreleased).1
          rw [hinode] at hentry
          simp only [hnone] at hentry
          cases hentry
    · obtain ⟨hheld, hothers⟩ := h.alone m first hm hisFirst
      refine ⟨hheld, ?_⟩
      intro k other hk hother hinode hmay
      obtain ⟨-, rfl⟩ | ⟨-, hother⟩ := requests_setRequest.mp hother
      · exact absurd hisFirst (hfirst m first hm hinode.symm)
      · exact hothers k other hk hother hinode hmay
  forgetting := forall_setRequest nofun h.forgetting
  early := forall_setRequest (fun _ => h.early n old hold (.inl hphase)) h.early
  releases := h.releases
  resolved := forall_setRequest nofun h.resolved

theorem isSome_lookup_erase {sessions : AList fun _ : InodeId => RemoteSessionState} {inode i : InodeId} :
    ((sessions.erase inode).lookup i).isSome ↔ i ≠ inode ∧ (sessions.lookup i).isSome := by
  by_cases hi : i = inode
  · subst hi
    simp
  · simp [AList.lookup_erase_ne hi, hi]

/-- An entry may go when nothing is held and nothing can be granted. -/
theorem Inv.eraseEntry (h : Inv s) {inode : InodeId} (hheld : ∀ place : LockPlace, place.1 = inode → s.held place = ∅)
    (hmay : ∀ m other, s.requests m = some other → other.inode = inode → other.MayBeGranted →
      other.place ∈ s.released) :
    Inv { s with sessions := s.sessions.erase inode } :=
  { h with
    entry := by
      intro m other hm hothermay hreleased
      obtain ⟨hentry, hauthority⟩ := h.entry m other hm hothermay hreleased
      refine ⟨isSome_lookup_erase.mpr ⟨fun hinode => ?_, hentry⟩, hauthority⟩
      exact hreleased (hmay m other hm hinode hothermay)
    held := by
      intro place m hm
      obtain ⟨hentry, hrest⟩ := h.held place m hm
      refine ⟨isSome_lookup_erase.mpr ⟨fun hinode => ?_, hentry⟩, hrest⟩
      rw [hheld place hinode] at hm
      cases hm }

/-- An authority may be replaced or dropped when nothing depends on it. -/
theorem Inv.setAuthority (h : Inv s) {inode} (hidle : s.Idle inode) (authority : Option RemoteLockAuthority) :
    Inv { s with authorities := update s.authorities inode authority } := by
  have hne : ∀ i, (s.sessions.lookup i).isSome → i ≠ inode := by
    rintro i hentry rfl
    rw [hidle.entry] at hentry
    cases hentry
  refine { h with entry := ?_, held := ?_, releases := ?_, resolved := ?_ }
  · intro m other hm hmay hreleased
    obtain ⟨hentry, hauthority⟩ := h.entry m other hm hmay hreleased
    exact ⟨hentry, (update_of_ne (hne _ hentry) ..).trans hauthority⟩
  · intro place m hm
    obtain ⟨hentry, hauthority, hrest⟩ := h.held place m hm
    exact ⟨hentry, (update_of_ne (hne _ hentry) ..).trans hauthority, hrest⟩
  · intro task place phase htask
    obtain ⟨hauthority, hreleased⟩ := h.releases task place phase htask
    exact ⟨(update_of_ne (hidle.releases task place phase htask) ..).trans hauthority, hreleased⟩
  · intro m other hm hphase
    have hother : other.inode ≠ inode := fun hinode => hidle.requests m other hm hinode hphase
    exact (update_of_ne hother ..).trans (h.resolved m other hm hphase)

/-- An authority grants a request of a session that it has not released. -/
theorem Inv.granted (h : Inv s) (hold : s.requests n = some old) (hpending : old.status = .pending)
    (hreleased : old.place ∉ s.released) :
    Inv { s.setRequest n { old with status := .granted } with
      held := update s.held old.place (insert n (s.held old.place)) } := by
  have hmay : old.MayBeGranted := .inr (.inr hpending)
  have hfollows : Follows s n old { old with status := .granted } := by
    have hphase : ∀ phase : RequestPhase, phase = .resolved ∨ phase = .noted ∨ phase = .routed → old.phase ≠ phase := by
      rintro phase hphase rfl
      rw [h.early n old hold hphase] at hpending
      cases hpending
    refine ⟨rfl, fun _ => hmay, id, fun _ => rfl, fun hforget => ?_, fun hearly => ?_, hphase _ (.inl rfl)⟩
    · obtain ⟨-, hstatus | hstatus⟩ := h.forgetting n old hold hforget
      · rw [hpending] at hstatus
        cases hstatus
      · rw [hpending] at hstatus
        cases hstatus
    · rcases hearly with hearly | hearly
      · exact absurd hearly (hphase _ (.inr (.inl rfl)))
      · exact absurd hearly (hphase _ (.inr (.inr rfl)))
  have hset := h.setRequest hold hfollows
  refine { hset with quiet := ?_, held := ?_, alone := ?_ }
  · intro place hplace
    have hne : place ≠ old.place := by
      rintro rfl
      exact hreleased hplace
    show update s.held old.place _ place = ∅
    rw [update_of_ne hne]
    exact h.quiet place hplace
  · intro place m hm
    by_cases hplace : place = old.place
    · subst hplace
      simp only [update_self, mem_insert] at hm
      rcases hm with rfl | hm
      · obtain ⟨hentry, hauthority⟩ := h.entry m old hold hmay hreleased
        exact ⟨hentry, hauthority, _, requests_setRequest.mpr (.inl ⟨rfl, rfl⟩), rfl, rfl⟩
      · exact hset.held old.place m hm
    · simp only [update_of_ne hplace] at hm
      exact hset.held place m hm
  · intro m first hm hfirst
    obtain ⟨hheld, hothers⟩ := hset.alone m first hm hfirst
    refine ⟨fun place hfirstPlace => ?_, hothers⟩
    show update s.held old.place _ place ⊆ {m}
    by_cases hplace : place = old.place
    · -- the request that is granted is the first one itself
      have hinode : old.inode = first.inode := by rw [← hfirstPlace, hplace, RemoteRequest.place]
      have hmn : n = m := by
        by_contra hne
        obtain ⟨rfl, -⟩ | ⟨-, hm⟩ := requests_setRequest.mp hm
        · exact hne rfl
        · exact hreleased ((h.alone m first hm hfirst).2 n old hne hold hinode hmay)
      rw [hplace, update_self, ← hplace, hmn]
      exact insert_subset (mem_singleton_self m) (hheld place hfirstPlace)
    · rw [update_of_ne hplace]
      exact hheld place hfirstPlace

/-- Locks are lost, and the session may be released where none is left. -/
theorem Inv.less (h : Inv s) {held released}
    (hheld : ∀ place, held place ⊆ s.held place) (hmore : s.released ⊆ released)
    (hquiet : ∀ place ∈ released, place ∈ s.released ∨ held place = ∅) :
    Inv { s with held := held, released := released } where
  quiet := by
    intro place hplace
    rcases hquiet place hplace with hplace | hnone
    · exact subset_empty.mp (h.quiet place hplace ▸ hheld place)
    · exact hnone
  entry := fun m other hm hmay hreleased => h.entry m other hm hmay fun hmem => hreleased (hmore hmem)
  held := fun place m hm => h.held place m (hheld place hm)
  alone := by
    intro m first hm hfirst
    obtain ⟨hone, hothers⟩ := h.alone m first hm hfirst
    exact ⟨fun place hplace => (hheld _).trans (hone place hplace),
      fun k other hk hother hinode hmay => hmore (hothers k other hk hother hinode hmay)⟩
  forgetting := h.forgetting
  early := h.early
  releases := fun task place phase htask =>
    ⟨(h.releases task place phase htask).1, fun hphase => hmore ((h.releases task place phase htask).2 hphase)⟩
  resolved := h.resolved

/-- A release begins, goes on or ends. -/
theorem Inv.setRelease (h : Inv s) {task entry}
    (hentry : ∀ place phase, entry = some (place, phase) →
      s.authorities place.1 = some place.2 ∧ (phase = .released → place ∈ s.released)) :
    Inv { s with releases := update s.releases task entry } := by
  refine { h with releases := fun task' place phase htask => ?_ }
  have htask : update s.releases task entry task' = some (place, phase) := htask
  by_cases hsame : task' = task
  · rw [hsame, update_self] at htask
    exact hentry place phase htask
  · rw [update_of_ne hsame] at htask
    exact h.releases task' place phase htask

/-- Entries change their state. -/
theorem Inv.withSessions (h : Inv s) {sessions}
    (hsame : ∀ inode, (sessions.lookup inode).isSome = (s.sessions.lookup inode).isSome) :
    Inv { s with sessions := sessions } :=
  { h with
    entry := fun n request hn hmay hreleased => by
      rw [hsame]
      exact h.entry n request hn hmay hreleased
    held := fun place n hn => by
      rw [hsame]
      exact h.held place n hn }

theorem withRequest_eq_some {ready next t} :
    s.withRequest n ready next = some t ↔ ∃ request, s.requests n = some request ∧ ready request = true ∧
      next request = t := by
  unfold withRequest
  cases s.requests n with
  | none => simp
  | some request => simp

theorem Inv.status_of_held (h : Inv s) (hold : s.requests n = some old) {place} (hheld : n ∈ s.held place) :
    old.status = .granted := by
  obtain ⟨-, -, request, hrequest, -, hgranted⟩ := h.held place n hheld
  rw [hold] at hrequest
  cases hrequest
  exact hgranted

theorem Inv.not_held (h : Inv s) (hold : s.requests n = some old) {status} (hstatus : old.status = status)
    (hne : status ≠ .granted) : n ∉ s.held old.place :=
  fun hmem => hne (hstatus ▸ h.status_of_held hold hmem)

theorem Inv.follows_done (h : Inv s) (hold : s.requests n = some old) :
    Follows s n old { old with phase := .done } where
  place := rfl
  may := by
    rintro (hphase | hphase | hpending)
    · cases hphase
    · cases hphase
    · exact .inr (.inr hpending)
  first := fun hfirst => absurd rfl hfirst.2
  held := h.status_of_held hold
  forgetting := nofun
  early := by
    rintro (hphase | hphase)
    · cases hphase
    · cases hphase
  resolved := nofun

/-- A request gives up once the owner will not grant it. -/
theorem follows_giveUp {status} (hphase : old.phase ≠ .done)
    (hstatus : status = .unsent ∨ status = .refused) (hheld : n ∉ s.held old.place) :
    Follows s n old { old.giveUp with status := status } := by
  have hpending : status ≠ .pending := by rcases hstatus with rfl | rfl <;> exact nofun
  cases hnew : old.isNew with
  | false =>
    refine ⟨rfl, ?_, ?_, fun hmem => absurd hmem hheld, ?_, ?_, ?_⟩
    · simp [RemoteRequest.MayBeGranted, RemoteRequest.giveUp, hnew, hpending]
    · simp [RemoteRequest.First, RemoteRequest.giveUp, hnew]
    · simp [RemoteRequest.giveUp, hnew]
    · simp [RemoteRequest.giveUp, hnew]
    · simp [RemoteRequest.giveUp, hnew]
  | true =>
    refine ⟨rfl, ?_, fun _ => ⟨hnew, hphase⟩, fun hmem => absurd hmem hheld, fun _ => ⟨hnew, hstatus⟩, ?_, ?_⟩
    · simp [RemoteRequest.MayBeGranted, RemoteRequest.giveUp, hnew, hpending]
    · simp [RemoteRequest.giveUp, hnew]
    · simp [RemoteRequest.giveUp, hnew]

theorem Inv.follows_reply (h : Inv s) (hold : s.requests n = some old) (hphase : old.phase = .sent) {reply}
    (hpossible : reply.possible old = true) (marked : Bool) : Follows s n old (afterReply old marked reply) := by
  cases reply with
  | ok => exact h.follows_done hold
  | interrupted =>
    have hrefused : old.status = .refused := by simpa [Reply.possible] using hpossible
    show Follows s n old (if old.blocks && marked then old.giveUp else { old with phase := .done })
    split
    · have hfollows : Follows s n old { old.giveUp with status := old.status } := by
        exact follows_giveUp (by simp [hphase]) (.inr hrefused) (h.not_held hold hrefused nofun)
      exact hfollows
    · exact h.follows_done hold
  | failed =>
    show Follows s n old { old with phase := if old.blocks then .failed else .done }
    by_cases hblocks : old.blocks = true
    · rw [if_pos hblocks]
      refine ⟨rfl, ?_, ?_, h.status_of_held hold, nofun, ?_, nofun⟩
      · rintro (hfailed | hfailed | hpending)
        · cases hfailed
        · cases hfailed
        · exact .inr (.inr hpending)
      · exact fun hfirst => ⟨hfirst.1, by simp [hphase]⟩
      · simp
    · rw [if_neg hblocks]
      exact h.follows_done hold

theorem Inv.follows_cancel (h : Inv s) (hold : s.requests n = some old) (hphase : old.phase = .failed) {reply}
    (hpossible : reply.possible old (n ∈ s.held old.place) = true) : Follows s n old (afterCancel old reply) := by
  cases reply with
  | cancelled acknowledged =>
    have hheld : n ∉ s.held old.place := by
      intro hmem
      have hgranted := h.status_of_held hold hmem
      simp [CancelReply.possible, hgranted, hmem] at hpossible
    cases acknowledged with
    | true => exact follows_giveUp (by simp [hphase]) (.inr rfl) hheld
    | false =>
      refine ⟨rfl, ?_, ?_, fun hmem => absurd hmem hheld, nofun, ?_, nofun⟩
      · simp [afterCancel, RemoteRequest.MayBeGranted]
      · simp [afterCancel, RemoteRequest.First]
      · simp [afterCancel]
  | granted | unknown => exact h.follows_done hold

theorem Inv.follows_refuse (h : Inv s) (hold : s.requests n = some old) (hpending : old.status = .pending) :
    Follows s n old { old with status := .refused } where
  place := rfl
  may := fun _ => .inr (.inr hpending)
  first := id
  held := fun hmem => absurd hmem (h.not_held hold hpending nofun)
  forgetting := fun hforget => ⟨(h.forgetting n old hold hforget).1, .inr rfl⟩
  early := by
    intro hearly
    rw [h.early n old hold (.inr hearly)] at hpending
    cases hpending
  resolved := by
    intro hresolved
    rw [h.early n old hold (.inl hresolved)] at hpending
    cases hpending

/-- A new request, to the authority that is recorded. -/
theorem Inv.resolve (h : Inv s) (hfree : s.requests n = none) {inode : InodeId} {authority : RemoteLockAuthority}
    (hauthority : s.authorities inode = some authority) (blocks : Bool) :
    Inv (s.setRequest n ⟨inode, authority, blocks, .resolved, false, .unsent⟩) where
  quiet := h.quiet
  entry := by
    refine forall_setRequest (fun hmay _ => ?_) h.entry
    rcases hmay with hmay | hmay | hmay <;> cases hmay
  held := by
    intro place m hm
    obtain ⟨hentry, hauthority, other, hother, hrest⟩ := h.held place m hm
    refine ⟨hentry, hauthority, other, requests_setRequest.mpr (.inr ⟨?_, hother⟩), hrest⟩
    rintro rfl
    rw [hfree] at hother
    cases hother
  alone := by
    intro m first hm hfirst
    obtain ⟨-, rfl⟩ | ⟨-, hm⟩ := requests_setRequest.mp hm
    · cases hfirst.1
    · obtain ⟨hheld, hothers⟩ := h.alone m first hm hfirst
      refine ⟨hheld, ?_⟩
      intro k other hk hother hinode hmay
      obtain ⟨-, rfl⟩ | ⟨-, hother⟩ := requests_setRequest.mp hother
      · rcases hmay with hmay | hmay | hmay <;> cases hmay
      · exact hothers k other hk hother hinode hmay
  forgetting := forall_setRequest nofun h.forgetting
  early := forall_setRequest (fun _ => rfl) h.early
  releases := h.releases
  resolved := forall_setRequest (fun _ => hauthority) h.resolved

/-- **Every orderly step keeps the invariant.** -/
theorem Inv.step (h : Inv s) {e : Event} {t : RemoteSessions} (horderly : s.Orderly e) (hstep : s.step e = some t) :
    Inv t := by
  cases e with (try obtain ⟨request, hrequest, hready, rfl⟩ := withRequest_eq_some.mp hstep)
  | resolve n inode authority blocks =>
    rw [RemoteSessions.step] at hstep
    split at hstep
    · cases hstep
    · next hfree =>
      cases hstep
      have hrecorded : Inv { s with authorities := update s.authorities inode (some authority) } := by
        rcases horderly with hsame | hidle
        · rw [← hsame, update_eq_self]
          exact h
        · exact h.setAuthority hidle _
      exact hrecorded.resolve (by simpa using hfree) (update_self ..) blocks
  | dropAuthority inode =>
    cases hstep
    exact h.setAuthority horderly none
  | note n full =>
    have hphase : request.phase = .resolved := of_decide_eq_true hready
    unfold noteSession
    split
    · exact h.setRequest hrequest (h.follows_done hrequest)
    · next hactive =>
      refine h.noted hrequest hphase (fun inode => ⟨.inl, ?_⟩) nofun (horderly request hrequest)
      rintro (hinode | rfl)
      · exact hinode
      · exact Option.isSome_iff_exists.mpr ⟨_, hactive⟩
    · next hnone =>
      split
      · exact h.setRequest hrequest (h.follows_done hrequest)
      · refine h.noted hrequest hphase (fun inode => ?_) (fun _ => hnone) (horderly request hrequest)
        by_cases hinode : inode = request.inode
        · subst hinode
          simp
        · rw [AList.lookup_insert_ne hinode]
          simp [hinode]
  | route n registered =>
    obtain ⟨hphase, -⟩ := Bool.and_eq_true_iff.mp hready
    have hphase : request.phase = .noted := of_decide_eq_true hphase
    have hunsent := h.early n request hrequest (.inr (.inl hphase))
    have hheld := h.not_held hrequest hunsent nofun
    apply h.setRequest hrequest
    split
    · exact ⟨rfl, fun _ => .inl hphase, fun hfirst => ⟨hfirst.1, by simp [hphase]⟩,
        fun hmem => absurd hmem hheld, nofun, fun _ => hunsent, nofun⟩
    · have hfollows : Follows s n request { request.giveUp with status := request.status } :=
        follows_giveUp (by simp [hphase]) (.inl hunsent) hheld
      exact hfollows
  | send n =>
    have hphase : request.phase = .noted ∨ request.phase = .routed := by
      have hready : request.phase = if request.blocks then .routed else .noted := of_decide_eq_true hready
      rw [hready]
      split
      · exact .inr rfl
      · exact .inl rfl
    have hunsent := h.early n request hrequest (.inr hphase)
    refine h.setRequest hrequest ⟨rfl, fun _ => hphase.imp_right .inl, fun hfirst => ⟨hfirst.1, ?_⟩,
      fun hmem => absurd hmem (h.not_held hrequest hunsent nofun), nofun, ?_, nofun⟩
    · rcases hphase with hphase | hphase <;> simp [hphase]
    · rintro (hsent | hsent) <;> cases hsent
  | grant n =>
    exact h.granted hrequest (of_decide_eq_true hready) (horderly request hrequest)
  | refuse n =>
    exact h.setRequest hrequest (h.follows_refuse hrequest (of_decide_eq_true hready))
  | lose n =>
    refine h.less (fun place => ?_) (Finset.Subset.refl _) fun place hplace => .inl hplace
    by_cases hplace : place = request.place
    · rw [hplace, update_self]
      exact erase_subset _ _
    · rw [update_of_ne hplace]
  | reply n reply marked =>
    obtain ⟨hphase, hpossible⟩ := Bool.and_eq_true_iff.mp hready
    exact h.setRequest hrequest (h.follows_reply hrequest (of_decide_eq_true hphase) hpossible marked)
  | cancel n reply =>
    obtain ⟨hphase, hpossible⟩ := Bool.and_eq_true_iff.mp hready
    exact h.setRequest hrequest (h.follows_cancel hrequest (of_decide_eq_true hphase) hpossible)
  | forget n =>
    have hphase : request.phase = .forgetting := of_decide_eq_true hready
    obtain ⟨hnew, hstatus⟩ := h.forgetting n request hrequest hphase
    obtain ⟨hheld, hothers⟩ := h.alone n request hrequest ⟨hnew, by simp [hphase]⟩
    -- the request itself holds nothing, and nothing else was granted since it made the entry
    have hnone : ∀ place : LockPlace, place.1 = request.inode → s.held place = ∅ := by
      intro place hplace
      refine eq_empty_of_forall_notMem fun m hm => ?_
      have hmn := mem_singleton.mp (hheld place hplace hm)
      subst hmn
      rw [h.status_of_held hrequest hm] at hstatus
      rcases hstatus with hstatus | hstatus <;> cases hstatus
    apply (h.setRequest hrequest (h.follows_done hrequest)).eraseEntry hnone
    intro m other hm hinode hmay
    obtain ⟨-, rfl⟩ | ⟨hmn, hm⟩ := requests_setRequest.mp hm
    · rcases hmay with hmay | hmay | hmay
      · cases hmay
      · cases hmay
      · rw [show request.status = .pending from hmay] at hstatus
        rcases hstatus with hstatus | hstatus <;> cases hstatus
    · exact hothers m other hmn hm hinode hmay
  | beginRelease task place =>
    rw [RemoteSessions.step] at hstep
    split at hstep
    · cases hstep
    · have hstep := Option.some.inj hstep
      subst hstep
      have hsessions : Inv { s with sessions :=
          if (s.sessions.lookup place.1).isSome then s.sessions.insert place.1 .pendingClose else s.sessions } := by
        refine h.withSessions fun i => ?_
        split
        · next hsome =>
          by_cases hi : i = place.1
          · subst hi
            simpa using hsome.symm
          · rw [AList.lookup_insert_ne hi]
        · rfl
      refine hsessions.setRelease ?_
      rintro _ _ ⟨⟩
      exact ⟨horderly, nofun⟩
  | ownerRelease task =>
    rw [RemoteSessions.step] at hstep
    split at hstep
    · next place hrelease =>
      have hstep := Option.some.inj hstep
      subst hstep
      have hless : Inv { s with held := update s.held place ∅, released := insert place s.released } := by
        refine h.less ?_ (subset_insert place s.released) ?_
        · intro other
          by_cases hother : other = place
          · rw [hother, update_self]
            exact empty_subset _
          · rw [update_of_ne hother]
        · intro other hother
          rcases mem_insert.mp hother with rfl | hother
          · exact .inr (update_self ..)
          · exact .inl hother
      refine hless.setRelease ?_
      rintro _ _ ⟨⟩
      exact ⟨(h.releases task place _ hrelease).1, fun _ => mem_insert_self _ _⟩
    · cases hstep
  | endRelease task ok =>
    rw [RemoteSessions.step] at hstep
    unfold RemoteSessions.endRelease at hstep
    split at hstep
    · next place hrelease =>
      have hstep := Option.some.inj hstep
      subst hstep
      -- the authority that has released the session is the only one that could hold or grant anything
      obtain ⟨hauthority, hreleased⟩ := h.releases task place _ hrelease
      have honly : ∀ other : LockPlace, other.1 = place.1 → s.authorities other.1 = some other.2 →
        other ∈ s.released := by
        intro other hinode hother
        rw [hinode, hauthority] at hother
        rw [Prod.ext hinode (Option.some.inj hother).symm]
        exact hreleased rfl
      have herased : Inv { s with sessions := s.sessions.erase place.1 } := by
        refine h.eraseEntry (fun other hinode => ?_) fun m other hm hinode hmay => ?_
        · refine eq_empty_of_forall_notMem fun m hm => ?_
          rw [h.quiet other (honly other hinode (h.held other m hm).2.1)] at hm
          cases hm
        · by_contra hnot
          exact hnot (honly other.place hinode (h.entry m other hm hmay hnot).2)
      exact herased.setRelease nofun
    · cases hstep
      exact h.setRelease nofun
    · cases hstep

theorem Inv.new : Inv .new where
  quiet := nofun
  entry := nofun
  held := fun _ _ hn => absurd hn (notMem_empty _)
  alone := nofun
  forgetting := nofun
  early := nofun
  releases := nofun
  resolved := nofun

/-- The authority of the file. -/
def fileOwner : RemoteLockAuthority := ⟨"owner", "session-1", 1⟩

/-- Two requests of a session overlap: the first one, which has made the entry, is interrupted after the second one was
    granted. -/
def overlapping : List Event :=
  [.resolve 0 ⟨"file"⟩ fileOwner true, .note 0 false, .route 0 true, .send 0, .resolve 1 ⟨"file"⟩ fileOwner false,
    .note 1 false, .send 1, .grant 1, .reply 1 .ok true, .refuse 0, .reply 0 .interrupted true, .forget 0]

/-- The reply of Meta to the first request is late: it records an owner that the file has no more, after the present one
    has granted the second request. -/
example : ∃ s, execute step [.resolve 1 ⟨"file"⟩ fileOwner false, .note 1 false, .send 1, .grant 1, .reply 1 .ok true,
      .resolve 0 ⟨"file"⟩ ⟨"old owner", "session-1", 0⟩ true] .new = some s ∧
    (s.held (⟨"file"⟩, fileOwner)).Nonempty ∧ s.contacts ⟨"file"⟩ = some ⟨"old owner", "session-1", 0⟩ := by
  refine ⟨_, rfl, ?_, ?_⟩
  · decide
  · decide

end RemoteSessions

end Afs.Locks
