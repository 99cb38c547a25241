import Afs.Meta.Dfs.Runs
import Afs.Meta.Dfs.Script

/-!
# `Meta.Dfs.Identity` — a request identity and its content

A caller names each request, and the outcome of a request is recorded under that name. A request that arrives when its
name has an outcome runs into the record before it does anything else: it is answered from the record or refused. The
record keeps the operation, and for the namespace changes, file commits and repair requests a digest of the content,
so a request of that kind is answered only if it is the one that was recorded.

Changes of attributes and extended attributes, lease requests and metadata syncs leave no digest. They are answered
from any record of their operation, whatever it was made for. And `open_write` answers the lease of another owner
before it looks for a record at all.
-/

namespace Afs

open Interaction Relation

variable {service : DfsService} {tick : Tick} {condition : RunCondition} {c c' c'' : ServicePool}
  {s : System} {r : Request} {outcome : RequestOutcome} {α β : Type}

variable {Q : Prop} {result : OperationResult} {request : LeaseRequest}

/-! ## Programs that can only answer from a record -/

/-- What the answers of a program have in common, when nothing is asked of its operations. -/
abbrev Answers (tick : Tick) (condition : RunCondition) (r : Request)
    (post : α → System → Prop) (p : DfsProg α) (s : System) : Prop :=
  Safe (served condition r) (Evolves tick) (fun _ _ _ _ => True) post p s

theorem answers_read {q} {post : MetaSnapshot → System → Prop}
    (h : ∀ s₁, Evolves tick s s₁ → condition r s₁ (.read q) → post (s₁.store.read s₁.clock q) s₁) :
    Answers tick condition r post (storeRead q) s := by
  rintro s₁ hs₁ reply s₂ ⟨hcondition, rfl, rfl | ⟨message, rfl⟩⟩
  · exact ⟨trivial, h _ hs₁ hcondition⟩
  · exact ⟨trivial, trivial⟩

theorem answers_readView {post : StoreState → System → Prop} (h : ∀ s₁, Evolves tick s s₁ → post s₁.store s₁) :
    Answers tick condition r post storeReadView s := by
  rintro s₁ hs₁ reply s₂ ⟨hcondition, rfl, rfl | ⟨message, rfl⟩⟩
  · exact ⟨trivial, h _ hs₁⟩
  · exact ⟨trivial, trivial⟩

theorem answers_now {post : UInt64 → System → Prop} (h : ∀ s₁, Evolves tick s s₁ → post s₁.clock s₁) :
    Answers tick condition r post nowUnixMs s := by
  rintro s₁ hs₁ reply s₂ ⟨hcondition, rfl, rfl⟩
  exact ⟨trivial, h _ hs₁⟩

theorem answers_of_forall {post : α → System → Prop} (h : ∀ a s₁, post a s₁) (p : DfsProg α) :
    Answers tick condition r post p s := by
  induction p generalizing s with
  | ret a => exact h a s
  | fail e => trivial
  | call op k ih => exact fun s₁ _ reply s₂ _ => ⟨trivial, ih reply⟩

/-- A program that is followed by another answers no more than it does alone. -/
theorem answers_bind_of {p : DfsProg α} {f : α → DfsProg β} (h : Answers tick condition r (fun _ _ => Q) p s) :
    Answers tick condition r (fun _ _ => Q) (p >>= f) s := by
  apply safe_bind.mpr
  exact h.mono fun a s₁ hq => answers_of_forall (fun _ _ => hq) _

/-! ## Replays -/

section Replays

variable {callerId : String} {operationId : OperationId} {operation : StoreOperation} {digest : Digest}

theorem answers_replayedOutcome (hrec : s.store.outcome ⟨callerId, operationId.value⟩ = some outcome) :
    Answers tick condition r (fun x _ => x = some outcome.result ∧ outcome.operation = operation)
      (replayedOutcome callerId operationId operation) s := by
  apply safe_bind.mpr
  refine answers_read fun s₁ hs₁ _ => ?_
  have hread : (s₁.store.read s₁.clock (.requestOutcome ⟨callerId, operationId.value⟩)).requestOutcome =
      some outcome := hs₁.outcomes _ _ hrec
  rw [hread]
  simp only [safe_bind, safe_check, safe_pure, decide_eq_true_eq]
  exact fun hop => ⟨trivial, hop⟩

/-- The replays look at the recorded result, and then answer it or fail. -/
theorem answers_replay {p : DfsProg (Option β)} {f : Option β → DfsProg (Option α)}
    (hp : Answers tick condition r (fun x _ => (∃ b, x = some b) ∧ Q) p s)
    (hf : ∀ b, (∃ a, f (some b) = pure (some a)) ∨ ∃ e, f (some b) = throw e) :
    Answers tick condition r (fun x _ => (∃ a, x = some a) ∧ Q) (p >>= f) s := by
  apply safe_bind.mpr
  apply hp.mono
  rintro x s₁ ⟨⟨b, rfl⟩, hq⟩
  rcases hf b with ⟨a, ha⟩ | ⟨e, he⟩
  · rw [ha]
    exact ⟨⟨a, rfl⟩, hq⟩
  · rw [he]
    trivial

theorem answers_replayOr {Q' : Prop} {replay} {fresh : DfsProg α}
    (h : Answers tick condition r (fun x _ => (∃ a, x = some a) ∧ Q) replay s) (himp : Q → Q') :
    Answers tick condition r (fun _ _ => Q') (replayOr replay fresh) s := by
  apply safe_bind.mpr
  apply h.mono
  rintro x s₁ ⟨⟨a, rfl⟩, hq⟩
  exact himp hq

/-- A replay that compares the operation only. -/
theorem answers_replayedInode (hrec : s.store.outcome ⟨callerId, operationId.value⟩ = some outcome) :
    Answers tick condition r (fun x _ => (∃ inode, x = some inode) ∧ outcome.operation = operation)
      (replayedInode callerId operationId operation) s := by
  refine answers_replay ((answers_replayedOutcome hrec).mono fun x s₁ h => ⟨⟨_, h.1⟩, h.2⟩) fun result => ?_
  cases result <;> first | exact .inl ⟨_, rfl⟩ | exact .inr ⟨_, rfl⟩

theorem answers_replayedLease (hrec : s.store.outcome ⟨callerId, operationId.value⟩ = some outcome) :
    Answers tick condition r (fun x _ => (∃ lease, x = some lease) ∧ outcome.operation = operation)
      (replayedLease callerId operationId operation) s := by
  refine answers_replay ((answers_replayedOutcome hrec).mono fun x s₁ h => ⟨⟨_, h.1⟩, h.2⟩) fun result => ?_
  cases result <;> first | exact .inl ⟨_, rfl⟩ | exact .inr ⟨_, rfl⟩

theorem namespaceResultInner_eq_ok {inner} (h : namespaceResultInner result digest = .ok inner) :
    result = .dfsNamespace digest inner := by
  unfold namespaceResultInner at h
  split at h
  · split at h
    · next hfound =>
      cases h
      rw [hfound]
    · cases h
  · cases h

section

variable (hrec : s.store.outcome ⟨callerId, operationId.value⟩ = some outcome)

include hrec

/-- A replay that compares the digest too. -/
theorem answers_replayedNamespaceResult :
    Answers tick condition r
      (fun x _ => (∃ inner, x = some inner) ∧ outcome.operation = operation ∧
        ∃ inner, outcome.result = .dfsNamespace digest inner)
      (replayedNamespaceResult callerId operationId operation digest) s := by
  apply safe_bind.mpr
  apply (answers_replayedOutcome hrec).mono
  rintro x s₁ ⟨rfl, hop⟩
  simp only [safe_bind, safe_lift, safe_pure]
  exact fun inner hinner => ⟨⟨inner, rfl⟩, hop, inner, namespaceResultInner_eq_ok hinner⟩

theorem answers_replayedNamespaceInode :
    Answers tick condition r
      (fun x _ => (∃ inode, x = some inode) ∧ outcome.operation = operation ∧
        ∃ inner, outcome.result = .dfsNamespace digest inner)
      (replayedNamespaceInode callerId operationId operation digest) s := by
  refine answers_replay (answers_replayedNamespaceResult hrec) fun result => ?_
  cases result <;> first | exact .inl ⟨_, rfl⟩ | exact .inr ⟨_, rfl⟩

theorem answers_replayedNamespaceInodeAndLease :
    Answers tick condition r
      (fun x _ => (∃ answer, x = some answer) ∧ outcome.operation = operation ∧
        ∃ inner, outcome.result = .dfsNamespace digest inner)
      (replayedNamespaceInodeAndLease callerId operationId operation digest) s := by
  refine answers_replay (answers_replayedNamespaceResult hrec) fun result => ?_
  cases result <;> first | exact .inl ⟨_, rfl⟩ | exact .inr ⟨_, rfl⟩

theorem answers_replayedNamespaceRename :
    Answers tick condition r
      (fun x _ => (∃ answer, x = some answer) ∧ outcome.operation = operation ∧
        ∃ inner, outcome.result = .dfsNamespace digest inner)
      (replayedNamespaceRename callerId operationId operation digest) s := by
  refine answers_replay (answers_replayedNamespaceResult hrec) fun result => ?_
  cases result <;> first | exact .inl ⟨_, rfl⟩ | exact .inr ⟨_, rfl⟩

theorem answers_replayedReplicationClaim :
    Answers tick condition r
      (fun x _ => (∃ claim, x = some claim) ∧ outcome.operation = operation ∧
        ∃ claim, outcome.result = .dfsReplicationClaim digest claim)
      (replayedReplicationClaim callerId operationId operation digest) s := by
  apply safe_bind.mpr
  apply (answers_replayedOutcome hrec).mono
  rintro x s₁ ⟨rfl, hop⟩
  cases outcome.result with
  | dfsReplicationClaim found claim =>
    simp only [safe_bind, safe_check, safe_pure, decide_eq_true_eq]
    rintro rfl
    exact ⟨⟨claim, rfl⟩, hop, claim, rfl⟩
  | _ => trivial

/-- The one replay that also answers records without a digest. -/
theorem answers_replayedReplicationTask :
    Answers tick condition r
      (fun x _ => (∃ task, x = some task) ∧ outcome.operation = operation ∧
        ((∃ inner, outcome.result = .dfsNamespace digest inner) ∨ ∃ task, outcome.result = .dfsReplicationTask task))
      (replayedReplicationTask callerId operationId operation digest) s := by
  apply safe_bind.mpr
  apply (answers_replayedOutcome hrec).mono
  rintro x s₁ ⟨rfl, hop⟩
  cases outcome.result with
  | dfsNamespace found inner =>
    simp only [safe_bind, safe_check, decide_eq_true_eq]
    rintro rfl
    cases inner with
    | dfsReplicationTask task => exact ⟨⟨task, rfl⟩, hop, .inl ⟨_, rfl⟩⟩
    | _ => trivial
  | dfsReplicationTask task => exact ⟨⟨task, rfl⟩, hop, .inr ⟨task, rfl⟩⟩
  | _ => trivial

end

end Replays

/-! ## Requests whose identity has been used -/

/-- What the record of an outcome shows of a request that is answered from it. A repair report is also answered from
    a record of the time before reports carried a digest. -/
structure AnsweredBy (service : DfsService) (outcome : RequestOutcome) (r : Request) : Prop where
  operation : outcome.operation = r.operation
  digest : ∀ d, r.digested = some d →
    (∃ digest, service.Digests d digest ∧ CarriesDigest outcome.result digest) ∨
      ∃ task, outcome.result = .dfsReplicationTask task

theorem answeredBy_of_namespace {d digest} (hd : r.digested = some d) (hdigest : service.Digests d digest)
    (h : outcome.operation = r.operation ∧ ∃ inner, outcome.result = .dfsNamespace digest inner) :
    AnsweredBy service outcome r := by
  refine ⟨h.1, fun d' hd' => .inl ⟨digest, ?_, .inl h.2⟩⟩
  cases hd.symm.trans hd'
  exact hdigest

theorem answeredBy_of_operation (hd : r.digested = none) (h : outcome.operation = r.operation) :
    AnsweredBy service outcome r := by
  refine ⟨h, fun d hd' => ?_⟩
  rw [hd] at hd'
  cases hd'

/-- An `open_write` whose identity has been used finds no lease of another owner that may still be live when the clock
    is read. -/
def opensFree (tick : Tick) : RunCondition := fun r s op =>
  ∀ request, r = .openWrite request → op = .read (.dfsWriteLease request.inodeId) → s.store.outcome r.key ≠ none →
    ∀ lease, s.store.get (.dfsWriteLease request.inodeId) = some (.dfsWriteLease lease) →
      sameOwner request lease = true ∨ ∀ now, ReflTransGen tick s.clock now → lease.expiresAtUnixMs ≤ now

theorem answers_acquireWriteLease (hd : r.digested = none) (hop : r.operation = .dfsAcquireWriteLease)
    (hrec : s.store.outcome ⟨request.callerId, request.operationId.value⟩ = some outcome) :
    Answers tick condition r (fun _ _ => AnsweredBy service outcome r) (acquireWriteLease request) s := by
  rw [acquireWriteLease]
  simp only [safe_bind, safe_lift]
  intro _ _ _ _ _ _ _ _
  exact answers_replayOr (answers_replayedLease hrec) fun h => answeredBy_of_operation hd (h.trans hop.symm)

theorem answers_getInode {id} {post : InodeRecord → System → Prop}
    (h : ∀ inode s₁, Evolves tick s s₁ → post inode s₁) : Answers tick condition r post (getInode id) s := by
  rw [getInode]
  simp only [safe_bind, safe_lift]
  intro _ _
  refine answers_read fun s₁ hs₁ _ => ?_
  split
  · exact h _ _ hs₁
  · trivial
  · split
    · exact h _ _ hs₁
    · trivial

theorem answers_openWrite (hr : r = .openWrite request) (hrec : s.store.outcome r.key = some outcome) :
    Answers tick (opensFree tick) r (fun _ _ => AnsweredBy service outcome r) (openWrite request) s := by
  subst hr
  have hacquire : ∀ s₁, Evolves tick s s₁ → Answers tick (opensFree tick) (.openWrite request)
      (fun _ _ => AnsweredBy service outcome (.openWrite request)) (acquireWriteLease request) s₁ :=
    fun s₁ hs₁ => answers_acquireWriteLease rfl rfl (hs₁.outcomes _ _ hrec)
  apply safe_bind.mpr
  refine answers_getInode fun inode s₁ hs₁ => ?_
  apply safe_bind.mpr
  refine answers_read fun s₂ hs₂ hfree => ?_
  have hrec₂ := (hs₁.trans hs₂).outcomes _ _ hrec
  cases hlease : recordedLease (s₂.store.read s₂.clock (.dfsWriteLease request.inodeId)) with
  | none => exact answers_bind_of (hacquire s₂ (hs₁.trans hs₂))
  | some lease =>
    have hstored : s₂.store.get (.dfsWriteLease request.inodeId) = some (.dfsWriteLease lease) := by
      rw [recordedLease, StoreState.entity_read rfl fun _ => rfl] at hlease
      split at hlease
      · next hget => exact Option.some.inj hlease ▸ hget
      · cases hlease
    have hneeds : s₂.store.outcome (Request.openWrite request).key ≠ none := by simp [hrec₂]
    simp only [safe_bind]
    refine answers_now fun s₃ hs₃ => ?_
    -- the lease is the caller's or has expired, so the caller goes on to acquire it
    have hgoes : (decide (lease.expiresAtUnixMs > s₃.clock) && !sameOwner request lease) = false := by
      rcases hfree request rfl rfl hneeds lease hstored with hown | hexpired
      · simp [hown]
      · simpa using fun hlive => absurd (hexpired s₃.clock hs₃.clock) (UInt64.not_le.mpr hlive)
    rw [hgoes]
    exact answers_bind_of (hacquire s₃ ((hs₁.trans hs₂).trans hs₃))

theorem answers_resolve {context}
    (hrec : s.store.outcome ⟨request.callerId, request.operationId.value⟩ = some outcome) :
    Answers tick condition r (fun _ _ => outcome.operation = .dfsAcquireWriteLease)
      (resolveFreshWriteAuthority request context) s := by
  rw [resolveFreshWriteAuthority]
  simp only [safe_bind, safe_lift]
  intro _ _ _ _ _ _ _ _
  refine answers_readView fun s₁ hs₁ => ?_
  have hread : (viewRead s₁.store (.requestOutcome ⟨request.callerId, request.operationId.value⟩)).requestOutcome =
      some outcome := hs₁.outcomes _ _ hrec
  simp only [safe_require, safe_check, hread, safe_bind, safe_lift, safe_pure]
  intro inode _ _ lease hlease
  by_contra hop
  rw [replayedAuthority, if_pos hop] at hlease
  cases hlease

/-- **A request whose identity has an outcome is answered from it or not at all.** -/
theorem handle_answers (hr : r ≠ .initializeReplicationConfig) (hrec : s.store.outcome r.key = some outcome) :
    Answers tick (opensFree tick) r (fun _ _ => AnsweredBy service outcome r) (handle service r) s := by
  cases r with (try apply answers_bind_of; try simp only [create, mkdir, mknod, symlink, link, unlink, rmdir,
    removeNamespaceEntry, commitFileVersion, rename, setInodeAttributes, syncInodeMetadata, setXattr, removeXattr,
    renewWriteLease, claimReplicationTask, reportReplicationTask, reportChunkCorruption, safe_bind,
    safe_lift, safe_check])
  | create =>
    intro digest hdigest
    intros
    exact answers_replayOr (answers_replayedNamespaceInodeAndLease hrec) fun h =>
      answeredBy_of_namespace rfl hdigest h
  | openWrite request => exact answers_openWrite rfl hrec
  | initializeReplicationConfig => exact absurd rfl hr
  | mkdir | mknod | symlink | link | unlink | rmdir | commitFileVersion =>
    intro digest hdigest
    intros
    exact answers_replayOr (answers_replayedNamespaceInode hrec) fun h =>
      answeredBy_of_namespace rfl hdigest h
  | rename =>
    intro digest hdigest
    intros
    exact answers_replayOr (answers_replayedNamespaceRename hrec) fun h =>
      answeredBy_of_namespace rfl hdigest h
  | setInodeAttributes | syncInodeMetadata | setXattr | removeXattr =>
    intros
    exact answers_replayOr (answers_replayedInode hrec) fun h => answeredBy_of_operation rfl h
  | acquireWriteLease request => exact answers_acquireWriteLease rfl rfl hrec
  | resolveAuthority => exact (answers_resolve hrec).mono fun _ _ h => answeredBy_of_operation rfl h
  | renewWriteLease =>
    intros
    exact answers_replayOr (answers_replayedLease hrec) fun h => answeredBy_of_operation rfl h
  | claimReplicationTask =>
    intro digest hdigest
    intros
    refine answers_replayOr (answers_replayedReplicationClaim hrec) fun h => ⟨h.1, fun d hd => ?_⟩
    cases hd
    exact .inl ⟨digest, hdigest, .inr h.2⟩
  | reportReplicationTask =>
    intro digest hdigest
    intros
    refine answers_replayOr (answers_replayedReplicationTask hrec) fun h => ⟨h.1, fun d hd => ?_⟩
    cases hd
    exact h.2.imp (fun hinner => ⟨digest, hdigest, .inl hinner⟩) id
  | reportChunkCorruption =>
    intro digest hdigest
    intros
    apply (answers_replayedNamespaceResult hrec).mono
    rintro x s₁ ⟨⟨inner, rfl⟩, h⟩
    exact answeredBy_of_namespace rfl hdigest h

/-! ## Runs -/

/-- A request that commits leaves a record of its operation and its digest. -/
theorem Commits.answeredBy (h : Commits condition c c' r) (hreach : Reachable service tick condition c) :
    ∃ outcome, c'.state.store.outcome r.key = some outcome ∧ outcome.operation = r.operation ∧
      ∀ d, r.digested = some d →
        ∃ digest, service.Digests d digest ∧ CarriesDigest outcome.result digest := by
  obtain ⟨txn, -, -, hissued, -, hop, -, outcome, hmem, hrecorded⟩ := h.issued hreach
  refine ⟨outcome, hrecorded, ?_⟩
  cases hissued.writes hmem with
  | record hresult => exact ⟨hop, hresult hop⟩

theorem digest_eq_of_carries {digest digest'} (h : CarriesDigest result digest)
    (h' : CarriesDigest result digest') : digest' = digest := by
  rcases h with ⟨_, rfl⟩ | ⟨_, rfl⟩ <;> rcases h' with ⟨_, he⟩ | ⟨_, he⟩ <;> cases he <;> rfl

theorem not_carries_of_task {task digest} : ¬CarriesDigest (.dfsReplicationTask task) digest := by
  rintro (⟨_, he⟩ | ⟨_, he⟩) <;> cases he

/-- Whether the content of a request is recorded goes by its operation. -/
theorem digested_of_operation {r' : Request} (hop : r'.operation = r.operation) (h : r'.digested ≠ none) :
    r.digested ≠ none := by
  cases r <;> cases r' <;> cases hop <;> first | exact absurd rfl h | simp [Request.digested]

/-- **Request identity binds content.** When a request has committed, no later request of its identity is answered
    unless it is the same request: of no other operation, and of no other content if it is of a kind that is
    recorded with a digest and the digests of the two do not collide. -/
theorem request_identity_binds_content (h : Reachable service tick (opensFree tick) c) (r r' : Request)
    (hcommits : Commits (opensFree tick) c c' r) (hrun : ServiceRun service tick (opensFree tick) c' c'')
    (hkey : r'.key = r.key) (hcaller : r' ≠ .initializeReplicationConfig) (hne : r' ≠ r)
    (hbound : r'.digested ≠ none ∨ r'.operation ≠ r.operation)
    (hcollision : ∀ d d' digest, r.digested = some d → r'.digested = some d' →
      service.Digests d digest → service.Digests d' digest → d = d')
    (i : Nat) (hlater : c'.procs.length ≤ i) (answer : Response) : c''.procs[i]? ≠ some (r', .ret answer) := by
  intro hanswer
  have hreach := h.step hcommits.step
  obtain ⟨outcome, hrecorded, hop, hdigest⟩ := hcommits.answeredBy h
  -- the later request finds the record
  obtain ⟨s, -, hanswered⟩ := Pool.answer_of_later r' (Evolves tick)
    (fun _ _ => AnsweredBy service outcome r') Evolves.refl (fun _ _ _ => Evolves.trans)
    (fun c₁ c₂ hbefore hstep => (hreach.run hbefore).evolves (.single hstep))
    (fun s hs => handle_answers hcaller (hs.outcomes _ _ (hkey ▸ hrecorded))) hrun hlater hanswer
  have hsame : r'.operation = r.operation := hanswered.operation.symm.trans hop
  have hd' : r'.digested ≠ none := hbound.resolve_right (absurd hsame)
  obtain ⟨d', hd'⟩ := Option.ne_none_iff_exists'.mp hd'
  obtain ⟨d, hd⟩ := Option.ne_none_iff_exists'.mp (digested_of_operation hsame (by simp [hd']))
  obtain ⟨digest, hdigest, hcarries⟩ := hdigest d hd
  rcases hanswered.digest d' hd' with ⟨digest', hdigest', hcarries'⟩ | ⟨task, htask⟩
  · cases digest_eq_of_carries hcarries hcarries'
    have hcontent := hcollision d d' digest hd hd' hdigest hdigest'
    refine hne (Request.eq_of_digested hkey hsame (by simp [hd]) ?_)
    rw [hd, hd', hcontent]
  · rw [htask] at hcarries
    exact not_carries_of_task hcarries

/-- In a script, a request that leaves a record of its operation commits in one of its steps. -/
theorem exists_commits (hreach : Reachable service tick condition c)
    (hall : (handle service r).ExecAll answer (condition r) c.state) (hbefore : c.state.store.outcome r.key = none)
    (hafter : ((play service c (.request r)).state.store.outcome r.key).map (·.operation) = some r.operation) :
    ∃ c₁ c₂, Reachable service tick condition c₁ ∧ Commits condition c₁ c₂ r ∧
      c₂.procs.length = c.procs.length + 1 ∧ ServiceRun service tick condition c₂ (play service c (.request r)) := by
  obtain ⟨outcome, hafter, hop⟩ := Option.map_eq_some_iff.mp hafter
  obtain ⟨c₁, c₂, i, op, reply, hrun, hact, hfresh, hrecorded, hlength, hrest⟩ :=
    Pool.exec_crosses (served condition) (EnvStep tick) (handle service)
      (fun s => s.store.outcome r.key ≠ none) served_answer (handle service r) c.state c.procs hall
      (not_not.mpr hbefore) (by simpa [play, Pool.serve] using Option.ne_none_iff_exists'.mpr ⟨outcome, hafter⟩)
  have hreach₁ : Reachable service tick condition c₁ := hreach.run (.head (.arrive r rfl) hrun)
  refine ⟨c₁, c₂, hreach₁, ⟨⟨i, op, reply, hact⟩, not_not.mp hfresh, outcome, ?_, hop⟩, hlength, hrest⟩
  -- the record that was made is the one at the end
  obtain ⟨recorded, hrecorded⟩ := Option.ne_none_iff_exists'.mp hrecorded
  have hstays := ((hreach₁.step (.act i r op reply hact)).evolves hrest).outcomes _ _ hrecorded
  rw [hrecorded, ← hstays]
  exact hafter

/-- `a` sets an attribute on the file of the node. -/
def Cluster.setXattr (node : String) : SetXattrRequest where
  callerId := "a"
  operationId := ⟨"xattr"⟩
  caller := ⟨0, 0, []⟩
  inodeId := file node
  expectedInodeRevision := 1
  name := Codec.utf8Bytes "user.name"
  value := []
  mode := .upsert

/-- An attribute change is answered from the record of a change to another file. -/
theorem xattr_retry_for_other_file : ∃ c c' c'' : ServicePool, ∃ r r' : Request, ∃ i answer,
    Reachable plainService (· ≤ ·) anyRun c ∧ Commits anyRun c c' r ∧
    ServiceRun plainService (· ≤ ·) anyRun c' c'' ∧ r'.key = r.key ∧ r' ≠ r ∧
    c'.procs.length ≤ i ∧ c''.procs[i]? = some (r', .ret answer) := by
  have hreach : Reachable plainService (· ≤ ·) anyRun (playAll plainService Cluster.setup) :=
    reachable_playAll (by simp [Cluster.setup, Cluster.register]) (scriptMeets_any _)
  obtain ⟨c, c', hc, hcommits, hlength, hrun⟩ := exists_commits (r := .setXattr (Cluster.setXattr "a")) hreach
    (Prog.execAll_of_forall (fun _ _ => trivial) _ _) (by decide +kernel) (by decide +kernel)
  generalize hmiddle : play plainService (playAll plainService Cluster.setup)
    (.request (.setXattr (Cluster.setXattr "a"))) = middle at hrun
  obtain ⟨a, ha⟩ : ∃ a, ((handle plainService (.setXattr (Cluster.setXattr "b"))).exec answer middle.state).1 =
      .ok a := by
    have hok : ((handle plainService (.setXattr (Cluster.setXattr "b"))).exec answer middle.state).1.toBool = true := by
      rw [← hmiddle]
      decide +kernel
    cases he : ((handle plainService (.setXattr (Cluster.setXattr "b"))).exec answer middle.state).1 with
    | ok a => exact ⟨a, rfl⟩
    | error e =>
      rw [he] at hok
      cases hok
  refine ⟨c, c', play plainService middle (.request (.setXattr (Cluster.setXattr "b"))), _,
    .setXattr (Cluster.setXattr "b"), middle.procs.length, a, hc, hcommits,
    hrun.trans (run_play nofun (Prog.execAll_of_forall (fun _ _ => trivial) _ _)), rfl, ?_, ?_,
    by simp [play, Pool.serve, ha, Prog.lift]⟩
  · simp only [ne_eq, Request.setXattr.injEq]
    decide +kernel
  · rw [hlength, ← hmiddle]
    simp [play, Pool.serve]

/-- A service that tells the names of new files apart. -/
def namingService : DfsService where
  codec :=
    { blake3 := shortHash
      toJson := fun
        | .create request => some request.name
        | _ => none }
  replication := plainService.replication
  readGrantKey := plainService.readGrantKey

/-- The create of `a` with another file name. -/
def Cluster.createOther : CreateFileRequest := { create "a" 1 with name := [98] }

/-- The identity of a create that has committed does not serve to create a file of another name. -/
theorem request_identity_binds_content_of_create : ∃ c c' c'' : ServicePool,
    Commits (opensFree (· ≤ ·)) c c' (.create (Cluster.create "a" 1)) ∧
    ServiceRun namingService (· ≤ ·) (opensFree (· ≤ ·)) c' c'' ∧
    ∀ i answer, c'.procs.length ≤ i →
      c''.procs[i]? ≠ some (.create Cluster.createOther, .ret answer) := by
  have hfree : ∀ request s op, opensFree (· ≤ ·) (.create request) s op := by
    rintro request s op _ ⟨⟩
  have hreach : Reachable namingService (· ≤ ·) (opensFree (· ≤ ·)) (initialPool 0) := ⟨0, .refl⟩
  obtain ⟨c, c', hc, hcommits, -, hrun⟩ := exists_commits (r := .create (Cluster.create "a" 1)) hreach
    (Prog.execAll_of_forall (hfree _) _ _) (by decide +kernel) (by decide +kernel)
  have hretry : ServiceRun namingService (· ≤ ·) (opensFree (· ≤ ·)) c' (play namingService _ (.request
      (.create Cluster.createOther))) :=
    hrun.trans (run_play (by simp) (Prog.execAll_of_forall (hfree _) _ _))
  refine ⟨c, c', _, hcommits, hretry, fun i answer hi => ?_⟩
  refine request_identity_binds_content hc (.create (Cluster.create "a" 1)) (.create Cluster.createOther)
    hcommits hretry rfl ?_ ?_ (.inl (by simp [Request.digested])) ?_ i hi answer
  · simp
  · simp only [ne_eq, Request.create.injEq]
    decide +kernel
  · rintro _ _ digest ⟨⟩ ⟨⟩ hdigest hdigest'
    exact absurd (hdigest.trans hdigest'.symm) (by decide +kernel)

end Afs
