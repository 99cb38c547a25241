import Afs.Meta.Dfs.Footprint

/-!
# `Meta.Dfs.Guarantee` — what a request guarantees, and what the others rely on

`Serves service tick r post p s` says of a program `p` that serves request `r` from state `s`: every transaction it
submits is one of `Issued`, and every answer meets `post`, whatever the rest of the system does in between. Programs
that submit nothing (`ReadOnly`) need no run.
-/

namespace Afs

open Interaction Relation

variable {txn : MetaTxn} {op : StoreOp} {e : Error}

/-- What a request guarantees about its operations. -/
def guarantee (service : DfsService) (tick : Tick) (r : Request) (s : System) :
    (op : StoreOp) → op.Reply → System → Prop
  | .commit txn, _, _ => Issued service tick s r txn
  | _, _, _ => True

/-- The program serves `r`: it keeps the guarantee, and its answers meet `post`. -/
abbrev Serves {α : Type} (service : DfsService) (tick : Tick) (r : Request)
    (post : α → System → Prop) (p : DfsProg α) (s : System) : Prop :=
  Safe serve (Evolves tick) (guarantee service tick r) post p s

variable {service : DfsService} {tick : Tick} {r : Request} {s s' : System} {α : Type}

/-! ## The store's side -/

/-- A commit operation leaves the system as it is or applies its transaction. -/
theorem serve_commit {reply} (h : serve s (.commit txn) reply s') :
    s' = s ∨ ∃ outcome, s.Applies txn outcome ∧ s' = committed s txn := by
  obtain ⟨hclock, hstore⟩ := h
  have hleft : s'.store = s.store ∨ s'.store = (s.store.compareAndCommit s.clock txn).2 := by
    rcases hstore with he | ⟨-, he⟩
    · exact .inr (congrArg Prod.snd he)
    · exact he
  rcases hleft with hsame | hnext
  · exact .inl (by cases s; cases s'; cases hclock; cases hsame; rfl)
  · have heq : s' = ⟨(s.store.compareAndCommit s.clock txn).2, s.clock⟩ := by cases s'; cases hclock; cases hnext; rfl
    rcases s.store.compareAndCommit_eq s.clock txn with hsame | ⟨outcome, happlies, happlied⟩
    · exact .inl (by rw [heq, hsame])
    · exact .inr ⟨outcome, happlies, by rw [heq, happlied, committed]⟩

/-- A reply to a commit reports the recorded outcome, the new one or an older one. -/
theorem serve_commit_outcome {reply outcome} (h : serve s (.commit txn) (.ok reply) s')
    (hreply : (∃ revision, reply = .committed revision outcome) ∨
      ∃ revision, reply = .conditionFailed revision (some outcome)) :
    s.Applies txn outcome ∧ s' = committed s txn ∨
      s' = s ∧ s.store.outcome txn.request = some outcome := by
  obtain ⟨hclock, hstore⟩ := h
  have hcases := s.store.compareAndCommit_cases s.clock txn
  rcases hstore with he | ⟨⟨message, hmessage⟩, -⟩
  · rw [← he] at hcases
    have heq : s' = ⟨s'.store, s.clock⟩ := by cases s'; cases hclock; rfl
    generalize s'.store = store at hcases heq
    subst heq
    cases hcases with
    | replayed outcome' hout =>
      rcases hreply with ⟨revision, hr⟩ | ⟨revision, hr⟩
      · cases hr
      · cases hr
        exact .inr ⟨rfl, hout⟩
    | failed => rcases hreply with ⟨revision, hr⟩ | ⟨revision, hr⟩ <;> cases hr
    | applied outcome' happlies =>
      rcases hreply with ⟨revision, hr⟩ | ⟨revision, hr⟩
      · cases hr
        exact .inl ⟨happlies, rfl⟩
      · cases hr
  · cases hmessage

/-- Operations other than commits leave the system as it is. -/
theorem serve_eq {reply} (h : serve s op reply s') (hop : ∀ txn, op ≠ .commit txn) : s' = s := by
  cases op with
  | read | readView | now => exact h.1
  | commit txn => exact absurd rfl (hop txn)

/-- **The guarantee of one request is what the others rely on.** -/
theorem evolves_of_guarantee {reply} (h : serve s op reply s')
    (hguar : guarantee service tick r s op reply s') : Evolves tick s s' := by
  by_cases hop : ∃ txn, op = .commit txn
  · obtain ⟨txn, rfl⟩ := hop
    rcases serve_commit h with rfl | ⟨outcome, happlies, rfl⟩
    · exact .refl _
    · exact Issued.evolves hguar happlies
  · rw [serve_eq h fun txn he => hop ⟨txn, he⟩]
    exact .refl _

/-! ## Programs that submit nothing -/

/-- The program submits no transaction. -/
def ReadOnly : DfsProg α → Prop
  | .ret _ => True
  | .fail _ => True
  | .call op k => (∀ txn, op ≠ .commit txn) ∧ ∀ reply, ReadOnly (k reply)

section ReadOnly

variable {β : Type}

@[simp] theorem readOnly_pure (a : α) : ReadOnly (pure a : DfsProg α) := trivial

@[simp] theorem readOnly_lift (value : Result α) : ReadOnly (Prog.lift value) := by
  cases value <;> trivial

@[simp] theorem readOnly_check (condition : Bool) (e : Error) : ReadOnly (Prog.check condition e) := by
  cases condition <;> trivial

@[simp] theorem readOnly_require (value : Option α) (e : Error) : ReadOnly (Prog.require value e) := by
  cases value <;> trivial

@[simp] theorem readOnly_read (q : MetaRead) : ReadOnly (storeRead q) :=
  ⟨nofun, fun reply => readOnly_lift reply⟩

@[simp] theorem readOnly_now : ReadOnly nowUnixMs := ⟨nofun, fun _ => trivial⟩

theorem readOnly_bind {p : DfsProg α} {f : α → DfsProg β} (hp : ReadOnly p) (hf : ∀ a, ReadOnly (f a)) :
    ReadOnly (p >>= f) := by
  induction p with
  | ret a => exact hf a
  | fail e => trivial
  | call op k ih => exact ⟨hp.1, fun reply => ih reply (hp.2 reply)⟩

@[simp] theorem readOnly_attempt {p : DfsProg α} (hp : ReadOnly p) : ReadOnly p.attempt := by
  induction p with
  | ret a => trivial
  | fail e => trivial
  | call op k ih => exact ⟨hp.1, fun reply => ih reply (hp.2 reply)⟩

end ReadOnly

end Afs
