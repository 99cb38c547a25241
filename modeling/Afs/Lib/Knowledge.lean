import Afs.Lib.Interaction
import Mathlib.Data.Set.Basic

/-!
# `Lib.Knowledge` — what a handler was shown

A handler computes what it writes from what it was shown before, however long ago. `Knows` runs a handler against
the set of facts its own operations have shown to it, and asks that every operation meets a guarantee about that set.
The state of the service plays no part in it, so the rest of the system needs no thought: `Pool.act_known` says that in
every interleaving each operation meets its guarantee with facts that were shown to the same handler earlier in the run.

`Observed` keeps the state next to the facts, so that one walk through a handler serves `Safe` and `Knows` alike.
-/

namespace Interaction

universe u v

section Knows

variable {Op : Type} {Reply : Op → Type} {ε α : Type} {κ : Type v}

/-- A reply adds what it shows. -/
def Learns (shows : (o : Op) → Reply o → Set κ) (known : Set κ) (o : Op) (reply : Reply o) (known' : Set κ) : Prop :=
  known' = known ∪ shows o reply

/-- **What a handler knows** when it starts with `known`: each operation meets `guar` with the facts shown until then,
    and each answer meets `post`. -/
abbrev Knows (shows : (o : Op) → Reply o → Set κ) (guar : Set κ → Op → Prop) (post : α → Set κ → Prop)
    (p : Prog Op Reply ε α) (known : Set κ) : Prop :=
  Safe (Learns shows) Eq (fun known o _ _ => guar known o) post p known

variable {shows : (o : Op) → Reply o → Set κ} {guar : Set κ → Op → Prop} {post : α → Set κ → Prop} {known : Set κ}

theorem Knows.call {o : Op} {k : Reply o → Prog Op Reply ε α} (h : Knows shows guar post (.call o k) known)
    (reply : Reply o) : guar known o ∧ Knows shows guar post (k reply) (known ∪ shows o reply) :=
  h known rfl reply _ rfl

end Knows

/-! ## Facts and states together -/

section Observed

variable {Op : Type} {Reply : Op → Type} {ε α : Type} {σ : Type u} {κ : Type v}

/-- The state that a handler runs against, and what it was shown. -/
structure Observed (σ : Type u) (κ : Type v) where
  state : σ
  shown : Set κ

namespace Observed

/-- One operation of the handler. The service gives only genuine replies; what the handler learns from the others is
    said too, but nothing about the state. -/
def Step (genuine : Prop) (step : Exchange σ Reply) (shows : (o : Op) → Reply o → Set κ)
    (s : Observed σ κ) (o : Op) (reply : Reply o) (s' : Observed σ κ) : Prop :=
  (genuine → step s.state o reply s'.state) ∧ Learns shows s.shown o reply s'.shown

/-- What happens between two operations of the handler. -/
def Rely (genuine : Prop) (rely : σ → σ → Prop) (s s' : Observed σ κ) : Prop :=
  (genuine → rely s.state s'.state) ∧ s'.shown = s.shown

/-- A later point of the handler. -/
structure Later (genuine : Prop) (rely : σ → σ → Prop) (s s' : Observed σ κ) : Prop where
  rely : genuine → rely s.state s'.state
  shown : s.shown ⊆ s'.shown

variable {genuine : Prop} {rely : σ → σ → Prop} {step : Exchange σ Reply}
  {shows : (o : Op) → Reply o → Set κ} {observedGuar : Observed σ κ → (o : Op) → Reply o → Observed σ κ → Prop}
  {post : α → Observed σ κ → Prop} {p : Prog Op Reply ε α} {s s₁ s₂ : Observed σ κ}

theorem Later.refl [IsPreorder σ rely] (s : Observed σ κ) : Later genuine rely s s :=
  ⟨fun _ => refl_of rely _, subset_rfl⟩

theorem Later.trans [IsPreorder σ rely] (h : Later genuine rely s s₁) (h' : Later genuine rely s₁ s₂) :
    Later genuine rely s s₂ :=
  ⟨fun hg => trans_of rely (h.rely hg) (h'.rely hg), h.shown.trans h'.shown⟩

/-- An operation that leaves the state alone leads to a later point. -/
theorem Later.of_step {o : Op} {reply} (hrely : Rely genuine rely s s₁)
    (hstep : Step genuine step shows s₁ o reply s₂) (hsame : genuine → s₂.state = s₁.state) :
    Later genuine rely s s₂ := by
  refine ⟨fun hg => ?_, ?_⟩
  · rw [hsame hg]
    exact hrely.1 hg
  · rw [hstep.2, hrely.2]
    exact Set.subset_union_left

/-- **Genuine replies**: a handler is safe for what it owes as an observed one. -/
theorem safe {guar : Exchange σ Reply}
    (hguar : ∀ s o reply s', observedGuar s o reply s' → guar s.state o reply s'.state)
    (h : Safe (Step True step shows) (Rely True rely) observedGuar post p s) :
    Safe step rely guar (fun _ _ => True) p s.state := by
  induction p generalizing s with
  | ret a => trivial
  | fail e => trivial
  | call o k ih =>
    intro s₁ hs₁ reply s₂ hstep
    obtain ⟨hop, hrest⟩ := h ⟨s₁, s.shown⟩ ⟨fun _ => hs₁, rfl⟩ reply ⟨s₂, _⟩ ⟨fun _ => hstep, rfl⟩
    exact ⟨hguar _ _ _ _ hop, ih reply hrest⟩

/-- **Any replies**: what it owes that does not rest on the state is known. -/
theorem knows {guar : Set κ → Op → Prop} (hguar : ∀ s o reply s', observedGuar s o reply s' → guar s.shown o)
    (h : Safe (Step False step shows) (Rely False rely) observedGuar post p s) :
    Knows shows guar (fun _ _ => True) p s.shown := by
  induction p generalizing s with
  | ret a => trivial
  | fail e => trivial
  | call o k ih =>
    intro known hrely reply known' hlearns
    subst hrely
    obtain ⟨hop, hrest⟩ := h s ⟨nofun, rfl⟩ reply ⟨s.state, known'⟩ ⟨nofun, hlearns⟩
    exact ⟨hguar _ _ _ _ hop, ih reply hrest⟩

end Observed

end Observed

/-! ## Interleavings -/

section Pool

variable {Req : Type} {Op : Type} {Reply : Op → Type} {ε α : Type} {σ : Type u} {κ : Type v}
  {step : Req → Exchange σ Reply} {env : σ → σ → Prop} {start : Req → Prog Op Reply ε α}

/-- The handler with index `i` was shown the fact on the way from `c₀` to `c`. -/
def Pool.Shown (step : Req → Exchange σ Reply) (env : σ → σ → Prop)
    (start : Req → Prog Op Reply ε α) (shows : (o : Op) → Reply o → Set κ) (c₀ c : Pool Req Op Reply ε α σ)
    (i : Nat) (r : Req) (fact : κ) : Prop :=
  ∃ c₁ c₂ o reply, Pool.Run step env start c₀ c₁ ∧ Pool.Act step c₁ i r o reply c₂ ∧
    Pool.Run step env start c₂ c ∧ fact ∈ shows o reply

variable {shows : (o : Op) → Reply o → Set κ} {guar : Req → Set κ → Op → Prop} {post : Req → α → Set κ → Prop}
  {c₀ c c' : Pool Req Op Reply ε α σ} {i : Nat} {r : Req} {fact : κ}

theorem Pool.Shown.next (h : Pool.Shown step env start shows c₀ c i r fact) (hstep : Pool.Step step env start c c') :
    Pool.Shown step env start shows c₀ c' i r fact := by
  obtain ⟨c₁, c₂, o, reply, hbefore, hact, hafter, hfact⟩ := h
  exact ⟨c₁, c₂, o, reply, hbefore, hact, hafter.tail hstep, hfact⟩

/-- Every handler of the pool knows only what it was shown. -/
def Pool.Informed (step : Req → Exchange σ Reply) (env : σ → σ → Prop)
    (start : Req → Prog Op Reply ε α) (shows : (o : Op) → Reply o → Set κ) (guar : Req → Set κ → Op → Prop)
    (post : Req → α → Set κ → Prop) (c₀ c : Pool Req Op Reply ε α σ) : Prop :=
  ∀ (i : Nat) (r : Req) (p : Prog Op Reply ε α), c.procs[i]? = some (r, p) →
    ∃ known, (∀ fact ∈ known, Pool.Shown step env start shows c₀ c i r fact) ∧
      Knows shows (guar r) (post r) p known

theorem Pool.Informed.next (hstart : ∀ r, Knows shows (guar r) (post r) (start r) ∅)
    (hrun : Pool.Run step env start c₀ c) (h : Pool.Informed step env start shows guar post c₀ c)
    (hstep : Pool.Step step env start c c') : Pool.Informed step env start shows guar post c₀ c' := by
  intro i r p hp
  have hkept (hold : c.procs[i]? = some (r, p)) : ∃ known,
      (∀ fact ∈ known, Pool.Shown step env start shows c₀ c' i r fact) ∧ Knows shows (guar r) (post r) p known := by
    obtain ⟨known, hknown, hknows⟩ := h i r p hold
    exact ⟨known, fun fact hfact => (hknown fact hfact).next hstep, hknows⟩
  cases hstep with
  | act j r' o reply hact =>
    rcases hact.proc_cases hp with ⟨rfl, rfl, k, hj, rfl⟩ | ⟨-, hold⟩
    · obtain ⟨known, hknown, hknows⟩ := h _ _ _ hj
      refine ⟨known ∪ shows o reply, fun fact hfact => ?_, (hknows.call reply).2⟩
      rcases hfact with hfact | hfact
      · exact (hknown fact hfact).next (.act _ _ o reply hact)
      · exact ⟨c, c', o, reply, hrun, hact, .refl, hfact⟩
    · exact hkept hold
  | arrive r' he =>
    subst he
    rcases Pool.proc_cases_of_arrive hp with hold | ⟨-, rfl⟩
    · exact hkept hold
    · exact ⟨∅, nofun, hstart r⟩
  | env he hprocs => exact hkept (hprocs ▸ hp)

/-- **Knowledge in interleavings.** Every operation issued in a run meets its guarantee with facts that were shown to
    the handler that issues it. -/
theorem Pool.act_known (hstart : ∀ r, Knows shows (guar r) (post r) (start r) ∅) {s : σ}
    (hrun : Pool.Run step env start ⟨s, []⟩ c) {o : Op} {reply : Reply o} (hact : Pool.Act step c i r o reply c') :
    ∃ known, (∀ fact ∈ known, Pool.Shown step env start shows ⟨s, []⟩ c i r fact) ∧ guar r known o := by
  have hinformed : Pool.Informed step env start shows guar post ⟨s, []⟩ c := by
    clear hact
    induction hrun with
    | refl =>
      intro i r p hp
      simp at hp
    | tail hbefore hstep ih => exact ih.next hstart hbefore hstep
  obtain ⟨k, hi, -⟩ := hact.procs
  obtain ⟨known, hknown, hknows⟩ := hinformed i r _ hi
  exact ⟨known, hknown, (hknows.call reply).1⟩

end Pool

end Interaction
