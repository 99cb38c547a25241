import Afs.Lib.Knowledge
import Afs.Meta.Dfs.RepairIssued

/-!
# `Meta.Dfs.Observes` — what a request owes for its transactions, and the rules to run it

`Observes` runs a program that serves a request one store operation at a time, with the inodes it was shown. For every
transaction it submits it owes three things (`Owed`): the transaction is one of `Issued`, for a repair request it is
one of `RepairIssued`, and the inodes it puts follow records that were shown. The first two hold for the replies the
store gives, the last one for any replies, so everything that rests on the store is said under `genuine`.
-/

namespace Afs

open Interaction Relation

/-! ## What a request is shown -/

/-- The inodes a reply of the store shows. A root that is missing is shown as the directory it stands for. -/
def shownInodes : (op : StoreOp) → op.Reply → Set InodeRecord
  | .read (.dfsInode id), .ok snapshot =>
    {inode | snapshot.entity = some (.dfsInode inode) ∨
      snapshot.entity = none ∧ id = ⟨"1"⟩ ∧ ∃ namespaceId, inode = rootInode namespaceId}
  | .readView, .ok view =>
    {inode | view.get (.dfsInode inode.inodeId) = some (.dfsInode inode) ∨
      view.get (.dfsInode ⟨"1"⟩) = none ∧ ∃ namespaceId, inode = rootInode namespaceId}
  | _, _ => ∅

/-- The next record of the same inode. -/
structure Rewrites (read updated : InodeRecord) : Prop where
  inodeId : updated.inodeId = read.inodeId
  namespaceId : updated.namespaceId = read.namespaceId
  kind : updated.kind = read.kind
  symlinkTarget : updated.symlinkTarget = read.symlinkTarget
  revision : updated.revision = read.revision.saturatingAdd 1

/-- Conditions under which an inode may be put: it is missing, or the record it follows was shown and is stored. -/
def Covered (known : Set InodeRecord) (conditions : List TxnCondition) (updated : InodeRecord) : Prop :=
  .missing (.dfsInode updated.inodeId) ∈ conditions ∨
    ∃ read ∈ known, .entityEquals (.dfsInode read) ∈ conditions ∧ Rewrites read updated

/-- Every inode of the transaction is put under such conditions. -/
def InodeWrites (known : Set InodeRecord) (txn : MetaTxn) : Prop :=
  ∀ updated, .put (.dfsInode updated) ∈ txn.mutations → Covered known txn.conditions updated

/-- The requests about leases and replicas, which put no inode. -/
def Request.leavesInodes : Request → Bool
  | .acquireWriteLease _ | .openWrite _ | .resolveAuthority _ _ | .renewWriteLease _ | .claimReplicationTask _
  | .reportReplicationTask _ | .reportChunkCorruption _ | .initializeReplicationConfig => true
  | _ => false

/-! ## What a request owes -/

/-- The system and the inodes that a request was shown. -/
abbrev Seen := Observed System InodeRecord

/-- What a request is served in: how the clock moves, what the others may do meanwhile, and whether the replies are
    those of the store. -/
structure Setting where
  service : DfsService
  tick : Tick
  rely : Rely
  preorder : IsPreorder System rely
  genuine : Prop

instance (σ : Setting) : IsPreorder System σ.rely := σ.preorder

/-- A later point of the request. -/
abbrev Setting.Later (σ : Setting) : Seen → Seen → Prop := Observed.Later σ.genuine σ.rely

/-- The others keep what the system evolves by. `Issued` speaks of earlier states too, so it needs that. -/
def Setting.Evolving (σ : Setting) : Prop := ∀ s s', σ.rely s s' → Evolves σ.tick s s'

/-- What a request owes for a transaction. -/
structure Owed (σ : Setting) (r : Request) (s : Seen) (txn : MetaTxn) : Prop where
  issued : σ.genuine → σ.Evolving → Issued σ.service σ.tick s.state r txn
  repair : σ.genuine → r.repairs = true → RepairIssued σ.rely s.state r txn
  inodes : r.leavesInodes = false → InodeWrites s.shown txn

def owed (σ : Setting) (r : Request) (s : Seen) : (op : StoreOp) → op.Reply → Seen → Prop
  | .commit txn, _, _ => Owed σ r s txn
  | _, _, _ => True

/-- The program serves `r`: every transaction is what it owes, and its answers meet `post`. -/
abbrev Observes {α : Type} (σ : Setting) (r : Request) (post : α → Seen → Prop) (p : DfsProg α) (s : Seen) : Prop :=
  Safe (Observed.Step σ.genuine serve shownInodes) (Observed.Rely σ.genuine σ.rely) (owed σ r) post p s

/-- The same with any answers. -/
abbrev Fulfils {α : Type} (σ : Setting) (r : Request) (p : DfsProg α) (s : Seen) : Prop :=
  Observes σ r (fun _ _ => True) p s

variable {σ : Setting} {r : Request} {s : Seen} {txn : MetaTxn} {α : Type} {post : α → Seen → Prop}

/-- A request that has nothing to do with repair. -/
theorem Owed.of_other (hr : r.repairs = false) (hissued : σ.genuine → Issued σ.service σ.tick s.state r txn)
    (hinodes : InodeWrites s.shown txn) : Owed σ r s txn :=
  ⟨fun hg _ => hissued hg, fun _ hrepairs => absurd (hr.symm.trans hrepairs) nofun, fun _ => hinodes⟩

/-! ## Rules -/

theorem observes_read {q} {post : MetaSnapshot → Seen → Prop}
    (h : ∀ snapshot s₁, σ.Later s s₁ →
      (σ.genuine → snapshot = s₁.state.store.read s₁.state.clock q) → shownInodes (.read q) (.ok snapshot) ⊆ s₁.shown →
      post snapshot s₁) : Observes σ r post (storeRead q) s := by
  intro s₁ hrely reply s₂ hstep
  have hlater := Observed.Later.of_step hrely hstep fun hg => (hstep.1 hg).1
  cases reply with
  | error e => exact ⟨trivial, trivial⟩
  | ok snapshot =>
    refine ⟨trivial, h snapshot s₂ hlater (fun hg => ?_) ?_⟩
    · obtain ⟨hstate, hreply | ⟨message, hreply⟩⟩ := hstep.1 hg
      · rw [hstate]
        exact Except.ok.inj hreply
      · cases hreply
    · rw [hstep.2]
      exact Set.subset_union_right

theorem observes_readView {post : StoreState → Seen → Prop}
    (h : ∀ view s₁, σ.Later s s₁ → shownInodes .readView (.ok view) ⊆ s₁.shown → post view s₁) :
    Observes σ r post storeReadView s := by
  intro s₁ hrely reply s₂ hstep
  have hlater := Observed.Later.of_step hrely hstep fun hg => (hstep.1 hg).1
  cases reply with
  | error e => exact ⟨trivial, trivial⟩
  | ok view =>
    refine ⟨trivial, h view s₂ hlater ?_⟩
    rw [hstep.2]
    exact Set.subset_union_right

theorem observes_now {post : UInt64 → Seen → Prop}
    (h : ∀ now s₁, σ.Later s s₁ → (σ.genuine → now = s₁.state.clock) → post now s₁) :
    Observes σ r post nowUnixMs s := by
  intro s₁ hrely now s₂ hstep
  refine ⟨trivial, h now s₂ (.of_step hrely hstep fun hg => (hstep.1 hg).1) fun hg => ?_⟩
  obtain ⟨hstate, hnow⟩ := hstep.1 hg
  rw [hstate]
  exact hnow

theorem observes_commit {post : TxnOutcome → Seen → Prop} (htxn : ∀ s₁, σ.Later s s₁ → Owed σ r s₁ txn)
    (h : ∀ reply s₁, s.shown ⊆ s₁.shown → post reply s₁) : Observes σ r post (storeCommit txn) s := by
  intro s₁ hrely reply s₂ hstep
  refine ⟨htxn s₁ ⟨hrely.1, hrely.2.ge⟩, ?_⟩
  cases reply with
  | error e => trivial
  | ok outcome =>
    apply h outcome s₂
    rw [hstep.2, hrely.2]
    exact Set.subset_union_left

/-- A program that submits nothing can only answer later. -/
theorem observes_readOnly {p} (hp : ReadOnly p) (h : ∀ a s₁, σ.Later s s₁ → post a s₁) : Observes σ r post p s := by
  induction p generalizing s with
  | ret a => exact h a s (.refl s)
  | fail e => trivial
  | call op k ih =>
    intro s₁ hrely reply s₂ hstep
    obtain ⟨hop, hk⟩ := hp
    have hlater := Observed.Later.of_step hrely hstep fun hg => serve_eq (hstep.1 hg) hop
    refine ⟨?_, ih reply (hk reply) fun a s' hs' => h a s' (hlater.trans hs')⟩
    cases op with
    | commit txn => exact absurd rfl (hop txn)
    | _ => trivial

/-- Attempting a program that submits nothing: it may fail at any later point. -/
theorem observes_attempt {p} {post : Except Error α → Seen → Prop} (hp : ReadOnly p) {s₀} (hs : σ.Later s₀ s)
    (hok : Observes σ r (fun a s₁ => post (.ok a) s₁) p s) (herror : ∀ e s₁, σ.Later s₀ s₁ → post (.error e) s₁) :
    Observes σ r post p.attempt s := by
  induction p generalizing s with
  | ret a => exact hok
  | fail e => exact herror e s hs
  | call op k ih =>
    intro s₁ hrely reply s₂ hstep
    obtain ⟨howed, hrest⟩ := hok s₁ hrely reply s₂ hstep
    have hlater := Observed.Later.of_step hrely hstep fun hg => serve_eq (hstep.1 hg) hp.1
    exact ⟨howed, ih reply (hp.2 reply) (hs.trans hlater) hrest⟩

/-- A retried request reads; a new one runs from a later point. -/
theorem observes_replayOr {replay} {fresh : DfsProg α} (hreplay : ReadOnly replay)
    (hfresh : ∀ s₁, Fulfils σ r fresh s₁) : Fulfils σ r (replayOr replay fresh) s := by
  apply safe_bind.mpr
  refine observes_readOnly hreplay fun answer s₁ _ => ?_
  cases answer with
  | some a => trivial
  | none => exact hfresh s₁

end Afs
