import Afs.Meta.Dfs.Runs
import Afs.Meta.Dfs.Script

/-!
# `Meta.Dfs.Updates` — no inode update is lost

A request that changes an inode reads the record, computes the next one from it, and submits a transaction that is
conditional on the record it read. A dozen requests do so, some after reading a record again for a retry. `Updates` runs
each of them against the inodes it was shown: every inode a transaction puts is new, or follows a record that was shown
to the request and that the transaction requires to be stored still. So a step that changes an inode replaces exactly
what its request has read (`no_lost_inode_update`).
-/

namespace Afs

open Interaction Relation Cluster

variable {txn : MetaTxn}

/-- What the operations of a request meet with the inodes it was shown. -/
def updateGuarantee (r : Request) (known : Set InodeRecord) : StoreOp → Prop
  | .commit txn => r.leavesInodes = false → InodeWrites known txn
  | _ => True

/-- The program serves `r` with the inodes it was shown. -/
abbrev Updates {α : Type} (r : Request) (post : α → Set InodeRecord → Prop) (p : DfsProg α)
    (known : Set InodeRecord) : Prop :=
  Knows shownInodes (updateGuarantee r) post p known

theorem updates_handle (service : DfsService) (r : Request) (known : Set InodeRecord) :
    Updates r (fun _ _ => True) (handle service r) known := by
  by_cases hr : r.leavesInodes = true
  · -- nothing is asked of requests that put no inode
    generalize handle service r = p
    induction p generalizing known with
    | ret a => trivial
    | fail e => trivial
    | call op k ih =>
      rintro known' - reply known'' -
      refine ⟨?_, ih reply _⟩
      cases op with
      | commit txn => exact fun hfalse => absurd (hr.symm.trans hfalse) nofun
      | _ => trivial
  · have hpreorder : IsPreorder System fun _ _ => True :=
      { refl := fun _ => trivial, trans := fun _ _ _ _ _ => trivial }
    have hobserves := handle_observes ⟨service, fun _ _ => True, fun _ _ => True, hpreorder, False⟩ r
      (.inr (by simpa using hr)) ⟨⟨StoreState.new, 0⟩, known⟩
    refine Observed.knows (fun _ op _ _ howed => ?_) hobserves
    cases op with
    | commit txn => exact Owed.inodes howed
    | _ => trivial

/-! ## Steps -/

section Steps

variable {service : DfsService} {tick : Tick} {condition : RunCondition} {c c' : ServicePool}

/-- The handler with index `i`, which serves `r`, was shown the inode on the way to `c`. -/
def HasRead (service : DfsService) (tick : Tick) (condition : RunCondition) (c : ServicePool)
    (i : Nat) (r : Request) (inode : InodeRecord) : Prop :=
  ∃ c₁ c₂ op reply, Reachable service tick condition c₁ ∧ Pool.Act (served condition) c₁ i r op reply c₂ ∧
    ServiceRun service tick condition c₂ c ∧ inode ∈ shownInodes op reply

/-- **What a step does to an inode.** It stays, it is new, or a request replaces the record that it has read. -/
inductive InodeStep (service : DfsService) (tick : Tick) (condition : RunCondition)
    (c c' : ServicePool) (id : InodeId) : Prop
  | kept (h : c'.state.store.get (.dfsInode id) = c.state.store.get (.dfsInode id))
  | created (inode : InodeRecord) (hbefore : c.state.store.get (.dfsInode id) = none)
      (hafter : c'.state.store.get (.dfsInode id) = some (.dfsInode inode))
  | rewritten (i : Nat) (r : Request) (op : StoreOp) (reply : op.Reply) (before after : InodeRecord)
      (hact : Pool.Act (served condition) c i r op reply c')
      (hbefore : c.state.store.get (.dfsInode id) = some (.dfsInode before))
      (hafter : c'.state.store.get (.dfsInode id) = some (.dfsInode after))
      (hread : HasRead service tick condition c i r before) (hrewrites : Rewrites before after)
      (hrevision : before.revision.toNat + 1 < UInt64.size → after.revision.toNat = before.revision.toNat + 1)

/-- The only inode a request about leases or replicas puts is a missing root. -/
theorem Issued.inodeWrites_of_leavesInodes {s r known}
    (h : Issued service tick s r txn) (hr : r.leavesInodes = true) : InodeWrites known txn := by
  intro updated hput
  cases h with
  | namespaceRoot r namespaceId => exact inodeWrites_initializeNamespaceTxn namespaceId updated hput
  | newEntry hop | metadata hop => cases r <;> simp [Request.leavesInodes, Request.operation] at hr hop
  | remove hop =>
    cases r <;> simp [Request.leavesInodes] at hr
    all_goals
      simp only [Request.operation] at hop
      split at hop <;> cases hop
  | create | link | renameNoop | rename | sync | commit => cases hr
  | replicationConfig => simp [replicationConfigTxn] at hput
  | acquire | renew => simp [leaseTxn] at hput
  | blocked => simp [blockedTxn] at hput
  | waiting => simp [waitingTxn] at hput
  | claimed => simp [claimTxn] at hput
  | @report _ _ _ _ _ _ _ decision _ _ _ hdecision =>
    simp only [reportTxn] at hput
    generalize decision.mutations = mutations at hdecision hput
    cases hdecision <;> simp at hput
  | corruption => simp [corruptionTxn] at hput
  | corruptionEmpty => simp [emptyNamespaceTxn] at hput

/-- The inodes of a transaction the store applies follow what its request was shown. -/
theorem Reachable.inodeWrites (h : Reachable service tick condition c) {i r reply}
    (hact : Pool.Act (served condition) c i r (.commit txn) reply c') (hissued : Issued service tick c.state r txn) :
    InodeWrites {inode | HasRead service tick condition c i r inode} txn := by
  obtain ⟨clock, hrun⟩ := h
  obtain ⟨known, hknown, hguar⟩ := Pool.act_known (fun r => updates_handle service r ∅) hrun hact
  by_cases hr : r.leavesInodes = true
  · exact hissued.inodeWrites_of_leavesInodes hr
  · intro updated hput
    rcases hguar (by simpa using hr) updated hput with hmissing | ⟨read, hread, hequals, hrewrites⟩
    · exact .inl hmissing
    · obtain ⟨c₁, c₂, op, reply', hbefore, hact', hafter, hshown⟩ := hknown read hread
      exact .inr ⟨read, ⟨c₁, c₂, op, reply', ⟨clock, hbefore⟩, hact', hafter, hshown⟩, hequals, hrewrites⟩

/-- **No inode update is lost.** -/
theorem no_lost_inode_update (h : Reachable service tick condition c) (hstep : ServiceStep service tick condition c c')
    (id : InodeId) : InodeStep service tick condition c c' id := by
  cases h.step_cases hstep with
  | aside haside => exact .kept (haside.get _ rfl)
  | applied i r txn reply outcome hact hissued happlies hstate =>
    have hwrites := h.inodeWrites hact hissued
    rcases hbefore : c.state.store.get (.dfsInode id) with _ | old
    · -- a missing inode is made or stays missing
      rcases hafter : c'.state.store.get (.dfsInode id) with _ | new
      · exact .kept (hafter.trans hbefore.symm)
      · obtain ⟨inode, rfl⟩ := StoreState.inode_of_get hafter
        exact .created inode hbefore hafter
    · obtain ⟨before, rfl⟩ := StoreState.inode_of_get hbefore
      obtain ⟨new, hafter, hcases⟩ := hissued.stays (by simp) hbefore
      rw [← hstate] at hafter
      rcases hcases with rfl | ⟨hput, hkey⟩
      · exact .kept (hafter.trans hbefore.symm)
      · obtain ⟨after, rfl⟩ := StoreState.inode_of_get hafter
        have hid : after.inodeId = id := MetaKey.dfsInode.inj hkey
        rcases hwrites after hput with hmissing | ⟨read, hread, hequals, hrewrites⟩
        · have hnone := happlies.missing hmissing
          rw [hid, hbefore] at hnone
          cases hnone
        · -- the record it has read is the one that is stored
          have hstored := happlies.entityEquals hequals
          rw [show entityKey (.dfsInode read) = MetaKey.dfsInode id by rw [entityKey, ← hrewrites.inodeId, hid],
            hbefore] at hstored
          cases hstored
          refine .rewritten i r (.commit txn) reply before after hact hbefore hafter hread hrewrites fun hbound => ?_
          rw [hrewrites.revision, UInt64.toNat_saturatingAdd]
          simp only [UInt64.size] at hbound
          simp
          omega

end Steps

/-- The file of `a` once its first version is committed. -/
def Cluster.committedFile : InodeRecord :=
  committedInode (createdInode plainService.codec (create "a" 1)) ⟨"version-a"⟩ (create "a" 1).attributes

/-- In the step in which a first version is committed, the inode of the file is rewritten. -/
theorem no_lost_inode_update_of_commit : ∃ c c' : ServicePool,
    c.state.store.get (.dfsInode (Cluster.file "a")) ≠ some (.dfsInode Cluster.committedFile) ∧
    c'.state.store.get (.dfsInode (Cluster.file "a")) = some (.dfsInode Cluster.committedFile) ∧
    InodeStep plainService (· ≤ ·) anyRun c c' (Cluster.file "a") := by
  have hreach : Reachable plainService (· ≤ ·) anyRun (playAll plainService setup) :=
    reachable_playAll (by simp [setup, register]) (scriptMeets_any _)
  obtain ⟨c, c', i, op, reply, hrun, hact, hbefore, hafter, -, -⟩ :=
    Pool.exec_crosses (served anyRun) (EnvStep (· ≤ ·)) (handle plainService)
      (fun s => s.store.get (.dfsInode (file "a")) = some (.dfsInode committedFile)) served_answer
      (handle plainService (.commitFileVersion "a" (commit "a" 8))) (playAll plainService setup).state
      (playAll plainService setup).procs (Prog.execAll_of_forall (fun _ _ => trivial) _ _)
      (by decide +kernel) (by decide +kernel)
  have hc : Reachable plainService (· ≤ ·) anyRun c := hreach.run (.head (.arrive _ rfl) hrun)
  exact ⟨c, c', hbefore, hafter, no_lost_inode_update hc (.act i _ op reply hact) _⟩

end Afs
