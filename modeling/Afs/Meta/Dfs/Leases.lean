import Afs.Meta.Dfs.Runs
import Afs.Meta.Dfs.Script

/-!
# `Meta.Dfs.Leases` — write leases fence off old owners

The lease of an inode is one record, and every transaction that writes it compares the record it was made from. So the
leases of an inode form a chain: a renewal or an extension keeps owner and epoch, and any other grant has the next
epoch and is made only once the lease before it has expired. A commit and a metadata sync compare the lease they were
checked against, so they happen under the newest epoch or not at all.

The epoch is a counter that stops at its largest value: from there on the next owner gets the epoch of the last.
-/

namespace Afs

open Interaction Relation Cluster

variable {service : DfsService} {tick : Tick} {condition : RunCondition} {c c' : ServicePool}
  {s : System} {r : Request} {txn : MetaTxn} {outcome : RequestOutcome}

variable {old lease : WriteLease} {request : LeaseRequest} {id : InodeId} {epoch length : Nat} {node : String}

def WriteLease.SameOwner (lease lease' : WriteLease) : Prop :=
  lease'.ownerNodeId = lease.ownerNodeId ∧ lease'.ownerSessionId = lease.ownerSessionId

/-- The two leases of an inode, one granted after the other. -/
structure FencedBy (old new : WriteLease) : Prop where
  epoch : old.leaseEpoch ≤ new.leaseEpoch
  owner : new.leaseEpoch = old.leaseEpoch → old.leaseEpoch ≠ .maxValue → old.SameOwner new

namespace FencedBy

theorem refl (lease : WriteLease) : FencedBy lease lease := ⟨UInt64.le_refl _, fun _ _ => ⟨rfl, rfl⟩⟩

theorem trans {a b c} (h : FencedBy a b) (h' : FencedBy b c) : FencedBy a c where
  epoch := UInt64.le_trans h.epoch h'.epoch
  owner he hmax := by
    have hab : b.leaseEpoch = a.leaseEpoch := UInt64.le_antisymm (he ▸ h'.epoch) h.epoch
    obtain ⟨hnode, hsession⟩ := h.owner hab hmax
    obtain ⟨hnode', hsession'⟩ := h'.owner (he.trans hab.symm) (hab ▸ hmax)
    exact ⟨hnode'.trans hnode, hsession'.trans hsession⟩

end FencedBy

/-- A lease that is written over the recorded one follows it, and takes it from another owner only when it had
    expired on some earlier reading of the clock. -/
structure Succeeds (tick : Tick) (clock : UInt64) (old new : WriteLease) : Prop where
  fenced : FencedBy old new
  expired : ¬old.SameOwner new → ∃ now, ReflTransGen tick now clock ∧ old.expiresAtUnixMs ≤ now

theorem succeeds_self (clock : UInt64) {new} (hepoch : new.leaseEpoch = old.leaseEpoch)
    (howner : old.SameOwner new) : Succeeds tick clock old new :=
  ⟨⟨hepoch ▸ UInt64.le_refl _, fun _ _ => howner⟩, fun hother => absurd howner hother⟩

theorem le_of_ticks (hmono : ∀ a b, tick a b → a ≤ b) {a b} (h : ReflTransGen tick a b) : a ≤ b := by
  induction h with
  | refl => exact UInt64.le_refl _
  | tail _ hstep ih => exact UInt64.le_trans ih (hmono _ _ hstep)

theorem sameOwner_iff :
    sameOwner request lease = true ↔
      lease.ownerNodeId = request.callerId ∧ lease.ownerSessionId = request.ownerSessionId := by
  simp [sameOwner]

/-- An acquisition extends the lease of its own owner, or takes an expired one under the next epoch. -/
theorem succeeds_acquired {now expiry clock} (hclock : ReflTransGen tick now clock)
    (hfree : sameOwner request lease = true ∨ lease.expiresAtUnixMs ≤ now) :
    Succeeds tick clock lease (acquiredLease request (some lease) now expiry) := by
  have howner : sameOwner request lease = true →
      lease.SameOwner (acquiredLease request (some lease) now expiry) := fun hs =>
    ⟨(sameOwner_iff.mp hs).1.symm, (sameOwner_iff.mp hs).2.symm⟩
  refine ⟨⟨?_, ?_⟩, fun hother => ?_⟩
  · show lease.leaseEpoch ≤ if _ then lease.leaseEpoch else lease.leaseEpoch.saturatingAdd 1
    split
    · exact UInt64.le_refl _
    · rw [UInt64.le_iff_toNat_le, UInt64.toNat_saturatingAdd]
      have := lease.leaseEpoch.toNat_lt
      omega
  · intro he hmax
    by_cases hkeeps : (sameOwner request lease && decide (lease.expiresAtUnixMs > now)) = true
    · exact howner (Bool.and_eq_true_iff.mp hkeeps).1
    · -- the epoch has gone up
      have hnext : (acquiredLease request (some lease) now expiry).leaseEpoch = lease.leaseEpoch.saturatingAdd 1 :=
        if_neg hkeeps
      rw [hnext, ← UInt64.toNat_inj, UInt64.toNat_saturatingAdd] at he
      have hne : lease.leaseEpoch.toNat ≠ 18446744073709551615 := fun h =>
        hmax (UInt64.toNat_inj.mp (by rw [h, UInt64.toNat_maxValue]))
      have hone : (1 : UInt64).toNat = 1 := rfl
      have := lease.leaseEpoch.toNat_lt
      omega
  · rcases hfree with hs | hexpired
    · exact absurd (howner hs) hother
    · exact ⟨now, hclock, hexpired⟩

/-! ## Transactions -/

/-- **A recorded lease is followed by a lease that succeeds it.** -/
theorem Issued.lease_succeeds (h : Issued service tick s r txn) (happlies : s.Applies txn outcome)
    (hget : s.store.get (.dfsWriteLease id) = some (.dfsWriteLease old)) :
    ∃ new, (committed s txn).store.get (.dfsWriteLease id) = some (.dfsWriteLease new) ∧
      Succeeds tick s.clock old new := by
  obtain ⟨entity, hentity, rfl | ⟨hput, hkey⟩⟩ := h.stays (by simp) hget
  · exact ⟨old, hentity, succeeds_self _ rfl ⟨rfl, rfl⟩⟩
  -- the lease it was made from is the recorded one
  have hrecorded : ∀ compared : WriteLease, compared.inodeId = id →
      .entityEquals (.dfsWriteLease compared) ∈ txn.conditions → compared = old := by
    intro compared hid hcond
    have hstored : s.store.get (.dfsWriteLease compared.inodeId) = some (.dfsWriteLease compared) :=
      happlies.entityEquals hcond
    rw [hid, hget] at hstored
    cases hstored
    rfl
  have hmissing : ∀ key, key = id → .missing (.dfsWriteLease key) ∉ txn.conditions := by
    rintro key rfl hcond
    rw [happlies.missing hcond] at hget
    cases hget
  cases h.writes hput with
  | @lease lease hwrite =>
    have hid : lease.inodeId = id := MetaKey.dfsWriteLease.inj hkey
    refine ⟨lease, hentity, ?_⟩
    cases hwrite with
    | created hr hcond => exact absurd hcond (hmissing _ hid)
    | @acquired _ existing _ _ _ _ hclock hfree hcond =>
      cases existing with
      | none => exact absurd hcond (hmissing _ hid)
      | some compared =>
        have hsame := hrecorded compared hid hcond
        subst hsame
        exact succeeds_acquired hclock hfree
    | @renewed _ stored _ _ _ hcond =>
      have hsame := hrecorded stored hid hcond
      subst hsame
      exact succeeds_self _ rfl ⟨rfl, rfl⟩
  | _ => cases hkey

/-- The inode and the epoch under which a request presents its lease. -/
def Request.presents : Request → Option (InodeId × UInt64)
  | .commitFileVersion _ commit => some (commit.inodeId, commit.writeLease.leaseEpoch)
  | .syncInodeMetadata _ sync => some (sync.inodeId, sync.writeLease.leaseEpoch)
  | _ => none

/-- A transaction that presents a lease is applied under the recorded lease of that epoch. -/
theorem Issued.presented (h : Issued service tick s r txn) (happlies : s.Applies txn outcome)
    (hop : txn.operation = r.operation) {epoch} (hpresents : r.presents = some (id, epoch)) :
    ∃ lease, s.store.get (.dfsWriteLease id) = some (.dfsWriteLease lease) ∧ lease.leaseEpoch = epoch := by
  have hstored : ∀ {presented lease : WriteLease}, LeaseFor id presented lease →
      .entityEquals (.dfsWriteLease lease) ∈ txn.conditions →
      ∃ lease, s.store.get (.dfsWriteLease id) = some (.dfsWriteLease lease) ∧
        lease.leaseEpoch = presented.leaseEpoch := by
    intro presented lease hlease hcond
    refine ⟨lease, ?_, hlease.leaseEpoch⟩
    rw [← hlease.inodeId]
    exact happlies.entityEquals hcond
  cases h with
  | commit hdigest hchecked =>
    cases hpresents
    exact hstored hchecked.lease (by simp [commitTxn])
  | sync hcurrent hlease =>
    cases hpresents
    exact hstored hlease (by simp [syncTxn])
  | namespaceRoot r | replicationConfig r => cases r <;> first | (cases hop; done) | cases hpresents
  | newEntry hkind | metadata hkind => cases r <;> first | (simp [Request.operation] at hkind; done) | cases hpresents
  | @remove _ _ _ directory _ _ _ _ _ _ hkind =>
      cases directory <;> cases r <;> first | (cases hkind; done) | cases hpresents
  | acquire hr => cases r <;> first | (cases hr; done) | cases hpresents
  | _ => cases hpresents

/-! ## Runs -/

/-- One step of a run on the lease of an inode. -/
theorem Reachable.lease_step (h : Reachable service tick condition c) (hstep : ServiceStep service tick condition c c')
    (hget : c.state.store.get (.dfsWriteLease id) = some (.dfsWriteLease old)) :
    ∃ new, c'.state.store.get (.dfsWriteLease id) = some (.dfsWriteLease new) ∧
      Succeeds tick c.state.clock old new := by
  cases h.step_cases hstep with
  | aside haside => exact ⟨old, by rw [haside.get _ rfl, hget], succeeds_self _ rfl ⟨rfl, rfl⟩⟩
  | applied _ _ _ _ _ _ hissued happlies hstate =>
    rw [hstate]
    exact hissued.lease_succeeds happlies hget

/-- A lease that is recorded at some time is followed by leases that it fences, or by its own. -/
theorem Reachable.lease_run (h : Reachable service tick condition c) (hrun : ServiceRun service tick condition c c')
    (hget : c.state.store.get (.dfsWriteLease id) = some (.dfsWriteLease old)) :
    ∃ new, c'.state.store.get (.dfsWriteLease id) = some (.dfsWriteLease new) ∧ FencedBy old new := by
  induction hrun with
  | refl => exact ⟨old, hget, .refl old⟩
  | tail hbefore hstep ih =>
    obtain ⟨middle, hmiddle, hfenced⟩ := ih
    obtain ⟨new, hnew, hsucceeds⟩ := (h.run hbefore).lease_step hstep hmiddle
    exact ⟨new, hnew, hfenced.trans hsucceeds.fenced⟩

/-- **Write-lease fencing.** In every run and for every inode: the epoch of the lease never decreases, leases of one
    epoch below the largest have one owner, a lease passes to another owner only when it has expired, on a clock that
    does not go back, and what is presented under an epoch does not commit after a higher epoch was granted. -/
theorem write_lease_fencing (h : Reachable service tick condition c) (id : InodeId) (lease : WriteLease)
    (hlease : c.state.store.get (.dfsWriteLease id) = some (.dfsWriteLease lease))
    (hrun : ServiceRun service tick condition c c') :
    (∃ later, c'.state.store.get (.dfsWriteLease id) = some (.dfsWriteLease later) ∧
      lease.leaseEpoch ≤ later.leaseEpoch ∧
      (later.leaseEpoch = lease.leaseEpoch → lease.leaseEpoch ≠ .maxValue → lease.SameOwner later)) ∧
    ((∀ a b, tick a b → a ≤ b) → ∀ c'', ServiceStep service tick condition c' c'' → ∀ old new,
      c'.state.store.get (.dfsWriteLease id) = some (.dfsWriteLease old) →
      c''.state.store.get (.dfsWriteLease id) = some (.dfsWriteLease new) →
      ¬old.SameOwner new → old.expiresAtUnixMs ≤ c'.state.clock) ∧
    (∀ c'' r epoch, r.presents = some (id, epoch) → Commits condition c' c'' r → lease.leaseEpoch ≤ epoch) := by
  have hreach := h.run hrun
  obtain ⟨later, hlater, hfenced⟩ := h.lease_run hrun hlease
  refine ⟨⟨later, hlater, hfenced.epoch, hfenced.owner⟩, ?_, ?_⟩
  · intro hmono c'' hstep old new hold hnew hother
    obtain ⟨new', hnew', hsucceeds⟩ := hreach.lease_step hstep hold
    cases hnew.symm.trans hnew'
    obtain ⟨now, hticks, hexpired⟩ := hsucceeds.expired hother
    exact UInt64.le_trans hexpired (le_of_ticks hmono hticks)
  · intro c'' r epoch hpresents hcommits
    obtain ⟨txn, outcome, -, hissued, happlies, hop, -⟩ := hcommits.issued hreach
    obtain ⟨recorded, hrecorded, hepoch⟩ := hissued.presented happlies hop hpresents
    cases hlater.symm.trans hrecorded
    exact hepoch ▸ hfenced.epoch

/-- A node asks for the lease of the file of `a`, under an operation id of the given length. -/
def Cluster.acquire (node : String) (length : Nat) : LeaseRequest where
  callerId := node
  ownerSessionId := "session"
  operationId := ⟨String.ofList (List.replicate length 'x')⟩
  inodeId := file "a"
  leaseSeconds := 60

/-- The second node takes the file of the first when the lease has expired. -/
def Cluster.takeover : List Event :=
  setup ++ [.clock .maxValue, .request (.acquireWriteLease (acquire "b" 1))]

/-- After a takeover the first node commits in vain. -/
theorem write_lease_fencing_after_takeover :
    let c := playAll plainService (Cluster.takeover ++ [Cluster.committing "a" 3])
    (∃ later, c.state.store.get (.dfsWriteLease (Cluster.file "a")) = some (.dfsWriteLease later) ∧
      2 ≤ later.leaseEpoch ∧
      (later.leaseEpoch = 2 → WriteLease.SameOwner ⟨Cluster.file "a", "b", "session", 2, .maxValue⟩ later)) ∧
    (∀ c', ServiceStep plainService (· ≤ ·) anyRun c c' → ∀ old new,
      c.state.store.get (.dfsWriteLease (Cluster.file "a")) = some (.dfsWriteLease old) →
      c'.state.store.get (.dfsWriteLease (Cluster.file "a")) = some (.dfsWriteLease new) →
      ¬old.SameOwner new → old.expiresAtUnixMs ≤ c.state.clock) ∧
    (∀ c' r epoch, r.presents = some (Cluster.file "a", epoch) → Commits anyRun c c' r → 2 ≤ epoch) := by
  intro c
  have hreach : Reachable plainService (· ≤ ·) anyRun (playAll plainService takeover) := by
    refine reachable_playAll ?_ (scriptMeets_any _)
    intro now hnow before
    have hmax : now = .maxValue := by simpa [takeover, setup, register] using hnow
    exact hmax ▸ UInt64.le_maxValue before
  have hrun : ServiceRun plainService (· ≤ ·) anyRun (playAll plainService takeover) c :=
    run_playAll_append (by simp [committing]) (scriptMeets_any _)
  obtain ⟨⟨later, hget, hle, howner⟩, htaken, hpresented⟩ := write_lease_fencing hreach (file "a")
    ⟨file "a", "b", "session", 2, .maxValue⟩ (by decide +kernel) hrun
  exact ⟨⟨later, hget, hle, fun he => howner he (by decide)⟩, htaken fun _ _ h => h, hpresented⟩

/-! ## The last epoch

At the end of the clock every lease has expired as soon as it is granted, so each acquisition takes the next epoch,
also one by the owner it had. -/

theorem leaseTxn_applies {request operation existing}
    (hvalid : request.isValid = true) (hfresh : s.store.outcome request = none)
    (hexisting : s.store.get (.dfsWriteLease existing.inodeId) = some (.dfsWriteLease existing)) :
    s.Applies (leaseTxn request operation (some existing) lease)
      ⟨request, operation, .dfsWriteLease lease⟩ where
  valid := by simp [MetaTxn.validate, leaseTxn, hvalid]
  fresh := hfresh
  conditions := by
    intro condition hmem
    simp only [leaseTxn, List.mem_cons, List.not_mem_nil, or_false] at hmem
    rcases hmem with rfl | rfl
    · simpa [MemoryState.conditionMatches] using hfresh
    · exact decide_eq_true hexisting
  recorded := rfl

/-- The expiry that an acquisition asks for. -/
def LeaseRequest.expiryAt (request : LeaseRequest) (now : UInt64) : UInt64 :=
  now.saturatingAdd (request.leaseSeconds.saturatingMul 1000)

/-- A request with all its ids, for some time. -/
structure LeaseRequest.Complete (request : LeaseRequest) : Prop where
  callerId : request.callerId.isEmpty = false
  ownerSessionId : request.ownerSessionId.isEmpty = false
  operationId : request.operationId.value.isEmpty = false
  inodeId : request.inodeId.value.isEmpty = false
  leaseSeconds : request.leaseSeconds ≠ 0

/-- **An expired lease can be taken**: an acquisition that is served alone commits the next lease. -/
theorem exec_acquireWriteLease {inode} (hcomplete : request.Complete)
    (hfresh : s.store.outcome ⟨request.callerId, request.operationId.value⟩ = none)
    (hinode : s.store.get (.dfsInode request.inodeId) = some (.dfsInode inode)) (hkind : inode.kind = .regular)
    (hlease : s.store.get (.dfsWriteLease request.inodeId) = some (.dfsWriteLease lease))
    (hexpired : lease.expiresAtUnixMs ≤ s.clock) :
    (acquireWriteLease request).exec answer s =
      (.ok (acquiredLease request (some lease) s.clock (request.expiryAt s.clock)),
        committed s (leaseTxn ⟨request.callerId, request.operationId.value⟩ .dfsAcquireWriteLease (some lease)
          (acquiredLease request (some lease) s.clock (request.expiryAt s.clock)))) := by
  have hread : recordedLease (s.store.read s.clock (.dfsWriteLease request.inodeId)) = some lease := by
    rw [recordedLease, StoreState.entity_read rfl fun _ => rfl, hlease]
  have hexpiry : (leaseExpiry request.leaseSeconds).exec answer s = (.ok (request.expiryAt s.clock), s) := by
    rw [leaseExpiry, Prog.exec_bind_ok (exec_check (by simpa using hcomplete.leaseSeconds))]
    rfl
  have happlies : s.Applies (leaseTxn ⟨request.callerId, request.operationId.value⟩
      .dfsAcquireWriteLease (some lease) (acquiredLease request (some lease) s.clock (request.expiryAt s.clock))) _ :=
    leaseTxn_applies (by simp [RequestKey.isValid, hcomplete.callerId, hcomplete.operationId]) hfresh
      (by rw [StoreState.lease_of_get hlease, hlease])
  rw [acquireWriteLease, Prog.exec_bind_ok (exec_requireId hcomplete.callerId),
    Prog.exec_bind_ok (exec_requireId hcomplete.ownerSessionId),
    Prog.exec_bind_ok (exec_requireId hcomplete.operationId),
    Prog.exec_bind_ok (exec_requireId hcomplete.inodeId), replayOr, Prog.exec_bind_ok (exec_replayedLease hfresh)]
  dsimp only
  rw [Prog.exec_bind_ok (exec_getInode hcomplete.inodeId hinode),
    Prog.exec_bind_ok (exec_check (by simpa using hkind)), Prog.exec_bind_ok (exec_storeRead _), hread,
    Prog.exec_bind_ok exec_nowUnixMs, Prog.exec_bind_ok (exec_check (by simp [leaseBase, hexpired])),
    Prog.exec_bind_ok hexpiry]
  show Prog.exec answer (Prog.lift _ >>= _) _ = _
  rw [answer, happlies.compareAndCommit]
  rfl

theorem Cluster.acquire_complete (hnode : node.isEmpty = false) (hlength : length ≠ 0) :
    (acquire node length).Complete where
  callerId := hnode
  ownerSessionId := rfl
  operationId := by simpa [acquire, String.isEmpty_iff] using hlength
  inodeId := show (file "a").value.isEmpty = false by decide +kernel
  leaseSeconds := show (60 : UInt64) ≠ 0 by decide

/-- The lease of the file of `a` is held by the node under the epoch, and all operation ids in use are short. -/
structure HoldsEpoch (s : System) (node : String) (epoch length : Nat) : Prop where
  clock : s.clock = .maxValue
  inode : ∃ inode, s.store.get (.dfsInode (Cluster.file "a")) = some (.dfsInode inode) ∧ inode.kind = .regular
  lease : ∃ lease, s.store.get (.dfsWriteLease (Cluster.file "a")) = some (.dfsWriteLease lease) ∧
    lease.leaseEpoch.toNat = epoch ∧ lease.ownerNodeId = node
  requests : ∀ request, length ≤ request.requestId.length → s.store.outcome request = none

/-- At the end of the clock an acquisition takes the next epoch, if there is one. -/
theorem HoldsEpoch.next {node'} (hnode : node'.isEmpty = false) (hlength : length ≠ 0)
    (h : HoldsEpoch s node epoch length) :
    HoldsEpoch ((acquireWriteLease (acquire node' length)).exec answer s).2 node'
      (min (epoch + 1) 18446744073709551615) (length + 1) := by
  obtain ⟨inode, hinode, hkind⟩ := h.inode
  obtain ⟨lease, hlease, hepoch, -⟩ := h.lease
  have hexpired : lease.expiresAtUnixMs ≤ s.clock := by
    rw [h.clock]
    exact UInt64.le_maxValue _
  rw [exec_acquireWriteLease (acquire_complete hnode hlength)
    (h.requests _ (by simp [acquire])) hinode hkind hlease hexpired]
  generalize (acquire node' length).expiryAt s.clock = expiry
  refine ⟨h.clock, ⟨inode, ?_, hkind⟩,
    ⟨acquiredLease (acquire node' length) (some lease) s.clock expiry, ?_, ?_, rfl⟩, ?_⟩
  · simpa [committed, leaseTxn, TxnMutation.effect, entityKey] using hinode
  · have hid : lease.inodeId = file "a" := StoreState.lease_of_get hlease
    simp [committed, leaseTxn, TxnMutation.effect, entityKey, acquiredLease, leaseBase, hid]
  · have hnot : ¬lease.expiresAtUnixMs > s.clock := UInt64.not_lt.mpr hexpired
    simp [acquiredLease, leaseBase, hnot, UInt64.toNat_saturatingAdd, hepoch]
  · intro request hlong
    have hne : (⟨node', String.ofList (List.replicate length 'x')⟩ : RequestKey) ≠ request := by
      rintro rfl
      simp only [String.length_ofList, List.length_replicate] at hlong
      omega
    simpa [committed, leaseTxn, TxnMutation.outcomeEffect, acquire, hne] using
      h.requests request (by omega)

/-- The pool in which `a` has created its file at the end of the clock. -/
def Cluster.atTheEnd : ServicePool :=
  playAll plainService [.clock .maxValue, .request (.create (create "a" 1))]

theorem holdsEpoch_atTheEnd : HoldsEpoch atTheEnd.state "a" 1 100 where
  clock := by decide +kernel
  inode := ⟨createdInode plainService.codec (Cluster.create "a" 1), by decide +kernel, rfl⟩
  lease := ⟨{ Cluster.lease "a" with expiresAtUnixMs := .maxValue }, by decide +kernel, rfl, rfl⟩
  requests := by
    have hshort : ∀ request ∈ atTheEnd.state.store.requests.keys, request.requestId.length < 100 := by
      decide +kernel
    intro request hlong
    refine AList.lookup_eq_none.mpr fun hmem => ?_
    have := hshort request hmem
    omega

theorem state_play_acquire (request : LeaseRequest) :
    (play service c (.request (.acquireWriteLease request))).state =
      ((acquireWriteLease request).exec answer c.state).2 := by
  show ((acquireWriteLease request >>= fun lease => pure (Response.lease lease)).exec answer c.state).2 = _
  rw [Prog.exec_bind]
  rcases (acquireWriteLease request).exec answer c.state with ⟨_ | _, s'⟩ <;> rfl

/-- Another acquisition continues the run. -/
theorem HoldsEpoch.extend (node' : String) (hnode : node'.isEmpty = false) (hlength : length ≠ 0)
    (h : HoldsEpoch c.state node epoch length) :
    ∃ c', ServiceRun plainService (· ≤ ·) anyRun c c' ∧
      HoldsEpoch c'.state node' (min (epoch + 1) 18446744073709551615) (length + 1) := by
  refine ⟨play plainService c (.request (.acquireWriteLease (acquire node' length))), ?_, ?_⟩
  · exact run_play nofun (Prog.execAll_of_forall (fun _ _ => trivial) _ _)
  · rw [state_play_acquire]
    exact h.next hnode hlength

/-- Every epoch is reached, by one acquisition after the other. -/
theorem exists_holdsEpoch (n : Nat) : ∃ c, Reachable plainService (· ≤ ·) anyRun c ∧
    HoldsEpoch c.state "a" (min (n + 1) 18446744073709551615) (n + 100) := by
  induction n with
  | zero =>
    refine ⟨atTheEnd, reachable_playAll ?_ (scriptMeets_any _),
      holdsEpoch_atTheEnd⟩
    intro now hnow before
    have hmax : now = .maxValue := by simpa using hnow
    exact hmax ▸ UInt64.le_maxValue before
  | succ n ih =>
    obtain ⟨c, hreach, hholds⟩ := ih
    obtain ⟨c', hrun, hholds'⟩ := hholds.extend "a" (by decide) (by omega)
    refine ⟨c', hreach.run hrun, ?_⟩
    convert hholds' using 1
    omega

/-- The epoch does not fence once it is used up: under the largest one the lease passes from one node to another. -/
theorem last_epoch_changes_owner : ∃ c c' : ServicePool, ∃ lease lease' : WriteLease,
    Reachable plainService (· ≤ ·) anyRun c ∧ ServiceRun plainService (· ≤ ·) anyRun c c' ∧
    c.state.store.get (.dfsWriteLease (Cluster.file "a")) = some (.dfsWriteLease lease) ∧
    c'.state.store.get (.dfsWriteLease (Cluster.file "a")) = some (.dfsWriteLease lease') ∧
    lease'.leaseEpoch = lease.leaseEpoch ∧ ¬lease.SameOwner lease' := by
  obtain ⟨c, hreach, hholds⟩ := exists_holdsEpoch 18446744073709551614
  obtain ⟨c', hrun, hholds'⟩ := hholds.extend "b" (by decide) (by omega)
  obtain ⟨lease, hlease, hepoch, howner⟩ := hholds.lease
  obtain ⟨lease', hlease', hepoch', howner'⟩ := hholds'.lease
  refine ⟨c, c', lease, lease', hreach, hrun, hlease, hlease', ?_, ?_⟩
  · rw [← UInt64.toNat_inj, hepoch, hepoch']
    omega
  · rintro ⟨hsame, -⟩
    rw [howner, howner'] at hsame
    exact absurd hsame (by decide)

end Afs
