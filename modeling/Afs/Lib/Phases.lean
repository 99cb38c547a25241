import Afs.Lib.Interaction

/-!
# `Lib.Phases` — handlers that must not be disturbed while they are under way

`Interaction` asks that every change of the state is one that all handlers rely on at all times. Here a handler relies
on something of its own, and only from its first operation to its last: a handler that has just arrived has read
nothing yet, and one that has answered does not care. A pool is *calm* when every handler that has not answered is
safe from the present state. A step that respects what the handlers under way rely on keeps it so, and every operation
issued in a calm pool meets its guarantee.

A handler may also be given up, by its caller or with the process that runs it; it issues no operations from then on.
-/

namespace Interaction

universe u

variable {Req : Type} {Op : Type} {Reply : Op → Type} {ε α : Type} {σ : Type u}

/-- No program is among its own continuations. -/
theorem Prog.continuation_ne (p : Prog Op Reply ε α) :
    ∀ (o : Op) (k : Reply o → Prog Op Reply ε α) (reply : Reply o), p = .call o k → k reply ≠ p := by
  induction p with
  | ret | fail => exact fun _ _ _ h => nomatch h
  | call o k ih =>
    intro o' k' reply h hloop
    cases h
    exact ih reply o k reply hloop rfl

/-- The handler has issued an operation and waits to issue the next one. -/
def UnderWay (start : Req → Prog Op Reply ε α) (r : Req) (p : Prog Op Reply ε α) : Prop :=
  p ≠ start r ∧ ∃ o k, p = .call o k

/-- A handler is given up. -/
def Pool.Abandons (c c' : Pool Req Op Reply ε α σ) : Prop :=
  ∃ i r p e, c.procs[i]? = some (r, p) ∧ c' = ⟨c.state, c.procs.set i (r, .fail e)⟩

/-- What is assumed of the handlers: each is safe from every state, for what it relies on. -/
structure Guarantees (step : Req → Exchange σ Reply) (start : Req → Prog Op Reply ε α)
    (rely : Req → σ → σ → Prop) (guar : Req → Exchange σ Reply) (post : Req → α → σ → Prop) : Prop where
  refl : ∀ r s, rely r s s
  trans : ∀ r s₁ s₂ s₃, rely r s₁ s₂ → rely r s₂ s₃ → rely r s₁ s₃
  safe : ∀ r s, Safe (step r) (rely r) (guar r) (post r) (start r) s

/-- Every handler that has not answered is safe from the present state. -/
def Pool.Calm (step : Req → Exchange σ Reply) (rely : Req → σ → σ → Prop)
    (guar : Req → Exchange σ Reply) (post : Req → α → σ → Prop) (c : Pool Req Op Reply ε α σ) : Prop :=
  ∀ (i : Nat) (r : Req) (o : Op) (k : Reply o → Prog Op Reply ε α), c.procs[i]? = some (r, .call o k) →
    Safe (step r) (rely r) (guar r) (post r) (.call o k) c.state

/-- All answers given so far are right. -/
def Pool.Answered (answer : Req → α → σ → Prop) (c : Pool Req Op Reply ε α σ) : Prop :=
  ∀ (i : Nat) (r : Req) (a : α), c.procs[i]? = some (r, .ret a) → answer r a c.state

variable {step : Req → Exchange σ Reply} {env : σ → σ → Prop} {start : Req → Prog Op Reply ε α}
  {rely : Req → σ → σ → Prop} {guar : Req → Exchange σ Reply} {post answer : Req → α → σ → Prop}
  {c c' : Pool Req Op Reply ε α σ}

variable {r : Req}

/-- Where a handler comes from when one was given up. -/
theorem Pool.Abandons.proc_cases (h : Pool.Abandons c c') {j : Nat} {p}
    (hp : c'.procs[j]? = some (r, p)) : c'.state = c.state ∧ ((∃ e, p = .fail e) ∨ c.procs[j]? = some (r, p)) := by
  obtain ⟨i, r', p', e, hi, rfl⟩ := h
  refine ⟨rfl, ?_⟩
  by_cases hij : i = j
  · subst hij
    rw [List.getElem?_set_self (List.getElem?_eq_some_iff.mp hi).1, Option.some.injEq, Prod.mk.injEq] at hp
    exact .inl ⟨e, hp.2.symm⟩
  · rw [List.getElem?_set_ne hij] at hp
    exact .inr hp

namespace Pool.Calm

theorem nil (s : σ) : Pool.Calm step rely guar post (⟨s, []⟩ : Pool Req Op Reply ε α σ) := by
  intro i r o k hp
  simp at hp

section

variable (h : Guarantees step start rely guar post)

include h

section

variable (hcalm : Pool.Calm step rely guar post c) {i : Nat} {o : Op}

include hcalm

/-- An operation served in a calm pool meets its guarantee, and the rest of the handler is safe. -/
theorem served {k reply} {s' : σ} (hi : c.procs[i]? = some (r, .call o k)) (hserved : step r c.state o reply s') :
    guar r c.state o reply s' ∧ Safe (step r) (rely r) (guar r) (post r) (k reply) s' :=
  hcalm i r o k hi c.state (h.refl r _) reply s' hserved

theorem act {reply} (hact : Pool.Act step c i r o reply c') : guar r c.state o reply c'.state := by
  obtain ⟨k, hi, -⟩ := hact.procs
  exact (hcalm.served h hi hact.state).1

/-- A handler that answers does so rightly. -/
theorem act_answer {reply} (hact : Pool.Act step c i r o reply c') {a : α} (ha : c'.procs[i]? = some (r, .ret a)) :
    post r a c'.state := by
  rcases hact.proc_cases ha with ⟨-, -, k, hi, he⟩ | ⟨hne, -⟩
  · have hrest := (hcalm.served h hi hact.state).2
    rw [← he] at hrest
    exact hrest
  · exact absurd rfl hne

end

/-- A handler that does not act stays safe: if it is under way, it finds what it relies on, and if it has just arrived,
    it is safe from every state. -/
theorem keep {o : Op} {k} {s s' : σ} (hsafe : Safe (step r) (rely r) (guar r) (post r) (.call o k) s)
    (hrely : UnderWay start r (.call o k) → rely r s s') :
    Safe (step r) (rely r) (guar r) (post r) (.call o k) s' := by
  by_cases hstart : Prog.call o k = start r
  · rw [hstart]
    exact h.safe r s'
  · exact fun s₁ hs₁ => hsafe s₁ (h.trans r _ _ _ (hrely ⟨hstart, o, k, rfl⟩) hs₁)

/-- **One step of a calm pool.** The other handlers under way must find what they rely on. -/
theorem next (hcalm : Pool.Calm step rely guar post c) (hstep : Pool.Step step env start c c')
    (hact : ∀ i r o reply, Pool.Act step c i r o reply c' → ∀ j r' p, j ≠ i → c.procs[j]? = some (r', p) →
      UnderWay start r' p → rely r' c.state c'.state)
    (henv : env c.state c'.state → ∀ r, rely r c.state c'.state) : Pool.Calm step rely guar post c' := by
  intro j r o k hp
  cases hstep with
  | act i r' o' reply hacts =>
    rcases hacts.proc_cases hp with ⟨-, rfl, k', hi, he⟩ | ⟨hij, hold⟩
    · rw [he]
      exact (hcalm.served h hi hacts.state).2
    · exact keep h (hcalm j r o k hold) (hact i r' o' reply hacts j r _ hij hold)
  | arrive r' he =>
    subst he
    rcases Pool.proc_cases_of_arrive hp with hold | ⟨-, he⟩
    · exact hcalm j r o k hold
    · rw [he]
      exact h.safe _ _
  | env he hprocs =>
    rw [hprocs] at hp
    exact keep h (hcalm j r o k hp) fun _ => henv he r

end

/-- Giving up a handler leaves the others as they are. -/
theorem abandon (hcalm : Pool.Calm step rely guar post c) (h : Pool.Abandons c c') :
    Pool.Calm step rely guar post c' := by
  intro j r o k hp
  obtain ⟨hstate, ⟨e, he⟩ | hold⟩ := h.proc_cases hp
  · cases he
  · rw [hstate]
    exact hcalm j r o k hold

end Pool.Calm

namespace Pool.Answered

theorem nil (s : σ) : Pool.Answered answer (⟨s, []⟩ : Pool Req Op Reply ε α σ) := by
  intro i r a hp
  simp at hp

/-- Answers stay right along a step, and new ones are right. -/
theorem next (h : Guarantees step start rely guar post) (hcalm : Pool.Calm step rely guar post c)
    (hanswered : Pool.Answered answer c) (hstep : Pool.Step step env start c c')
    (hnew : ∀ r a s, post r a s → answer r a s) (hstays : ∀ r a, answer r a c.state → answer r a c'.state) :
    Pool.Answered answer c' := by
  intro j r a hp
  cases hstep.proc_cases hp with
  | kept hold => exact hstays r a (hanswered j r a hold)
  | acted o k reply hi he hserved =>
    have hrest := (hcalm.served h hi hserved).2
    rw [← he] at hrest
    exact hnew r a _ hrest
  | arrived hi he hstate =>
    have hsafe := h.safe r c'.state
    rw [← he] at hsafe
    exact hnew r a _ hsafe

theorem abandon (hanswered : Pool.Answered answer c) (h : Pool.Abandons c c') : Pool.Answered answer c' := by
  intro j r a hp
  obtain ⟨hstate, ⟨e, he⟩ | hold⟩ := h.proc_cases hp
  · cases he
  · rw [hstate]
    exact hanswered j r a hold

end Pool.Answered

end Interaction
