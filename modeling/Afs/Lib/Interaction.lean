import Mathlib.Logic.Relation
import Mathlib.Data.List.Basic

/-!
# `Lib.Interaction` — interaction programs and what holds over all their interleavings

A request handler that awaits a shared service between its steps is a tree: it has an answer, it has failed, or
it issues an operation and continues with the reply. `Prog` is that tree; the shared service is a relation
`step s op reply s'` on a state `σ`. A `Pool` runs any number of such handlers against one state: at every point
some handler issues its next operation, a new request arrives, or the environment changes the state. What the
service does may depend on the request a handler serves, so that a run may be restricted by a condition on who
does what.

The reasoning rule is rely–guarantee. `Safe` says of one handler, run on its own, that every operation it issues
meets a guarantee, where between two of its operations the state may change by the `rely` relation. When the
guarantees and the environment imply `rely`, every operation issued in any interleaving meets its guarantee
(`Pool.act_guar`), and what the guarantees preserve is an invariant of all interleavings (`Pool.invariant`).

* `Prog`, `Prog.bind`, `Prog.check`, `Prog.require` — programs and the combinators handlers are written with;
* `Safe` and its rules `safe_bind`, `safe_check`, … — symbolic execution of one handler;
* `Pool.Step`, `Pool.Run` — interleaved execution;
* `Prog.exec`, `Pool.serve` — one handler run to its end against a deterministic service, as a run of the pool.
-/

namespace Interaction

universe u

/-- Programs that issue operations and answer `α` or fail with `ε`. -/
inductive Prog (Op : Type) (Reply : Op → Type) (ε α : Type) where
  | ret (a : α)
  | fail (e : ε)
  | call (op : Op) (k : Reply op → Prog Op Reply ε α)

namespace Prog

variable {Op : Type} {Reply : Op → Type} {ε α β : Type}

protected def bind : Prog Op Reply ε α → (α → Prog Op Reply ε β) → Prog Op Reply ε β
  | ret a, f => f a
  | fail e, _ => fail e
  | call op k, f => call op (fun reply => Prog.bind (k reply) f)

instance : Monad (Prog Op Reply ε) where
  pure := ret
  bind := Prog.bind

/-- Runs a program to its answer or failure, without failing. -/
def attempt : Prog Op Reply ε α → Prog Op Reply ε (Except ε α)
  | ret a => ret (.ok a)
  | fail e => ret (.error e)
  | call op k => call op (fun reply => attempt (k reply))

instance : MonadExceptOf ε (Prog Op Reply ε) where
  throw := fail
  tryCatch p handler := Prog.bind (attempt p) fun
    | .ok a => ret a
    | .error e => handler e

/-- Issues one operation and answers its reply. -/
def op (o : Op) : Prog Op Reply ε (Reply o) := call o ret

/-- Fails with `e` unless the condition holds. -/
def check (condition : Bool) (e : ε) : Prog Op Reply ε Unit := if condition then ret () else fail e

/-- The value of an option, or failure. -/
def require (value : Option α) (e : ε) : Prog Op Reply ε α :=
  match value with
  | some a => ret a
  | none => fail e

/-- A fallible pure computation as a program. -/
def lift (value : Except ε α) : Prog Op Reply ε α :=
  match value with
  | .ok a => ret a
  | .error e => fail e

end Prog

/-! ## One handler on its own -/

/-- What can happen when an operation is issued: the state before, the operation, its reply and the state after. -/
abbrev Exchange (σ : Type u) {Op : Type} (Reply : Op → Type) := σ → (o : Op) → Reply o → σ → Prop

section Safe

variable {Op : Type} {Reply : Op → Type} {ε α β : Type} {σ : Type u}

/-- **A handler is safe** from a state when every operation it issues meets the guarantee and every answer the
    postcondition, although the state may change by `rely` before each of its operations. A failed handler
    owes nothing. -/
def Safe (step : Exchange σ Reply) (rely : σ → σ → Prop) (guar : Exchange σ Reply) (post : α → σ → Prop) :
    Prog Op Reply ε α → σ → Prop
  | .ret a, s => post a s
  | .fail _, _ => True
  | .call o k, s => ∀ s₁, rely s s₁ → ∀ reply s₂, step s₁ o reply s₂ →
      guar s₁ o reply s₂ ∧ Safe step rely guar post (k reply) s₂

variable {step : Exchange σ Reply} {rely : σ → σ → Prop} {guar : Exchange σ Reply} {post : α → σ → Prop} {s : σ}

@[simp] theorem safe_pure {a : α} : Safe step rely guar post (pure a : Prog Op Reply ε α) s ↔ post a s := Iff.rfl

@[simp] theorem safe_ret {a : α} : Safe step rely guar post (.ret a : Prog Op Reply ε α) s ↔ post a s := Iff.rfl

@[simp] theorem safe_fail {e : ε} : Safe step rely guar post (.fail e : Prog Op Reply ε α) s ↔ True := Iff.rfl

variable {p : Prog Op Reply ε α}

/-- Sequencing: the first program establishes what the second starts from. -/
@[simp] theorem safe_bind {f} {post : β → σ → Prop} :
    Safe step rely guar post (p >>= f) s ↔
      Safe step rely guar (fun a s' => Safe step rely guar post (f a) s') p s := by
  induction p generalizing s with
  | ret a => exact Iff.rfl
  | fail e => exact Iff.rfl
  | call o k ih =>
    show (∀ s₁, rely s s₁ → ∀ reply s₂, step s₁ o reply s₂ → guar s₁ o reply s₂ ∧
      Safe step rely guar post (k reply >>= f) s₂) ↔ _
    simp only [ih, Safe]

@[simp] theorem safe_map {f} {post : β → σ → Prop} :
    Safe step rely guar post (f <$> p) s ↔ Safe step rely guar (fun a s' => post (f a) s') p s := safe_bind

@[simp] theorem safe_check {condition} {e : ε} {post : Unit → σ → Prop} :
    Safe step rely guar post (Prog.check condition e : Prog Op Reply ε Unit) s ↔
      (condition = true → post () s) := by
  cases condition <;> simp [Prog.check]

@[simp] theorem safe_require {value} {e : ε} :
    Safe step rely guar post (Prog.require value e : Prog Op Reply ε α) s ↔ ∀ a, value = some a → post a s := by
  cases value <;> simp [Prog.require]

@[simp] theorem safe_lift {value} :
    Safe step rely guar post (Prog.lift value : Prog Op Reply ε α) s ↔ ∀ a, value = .ok a → post a s := by
  cases value <;> simp [Prog.lift]

/-- A weaker postcondition is met too. -/
theorem Safe.mono {post' : α → σ → Prop} (h : Safe step rely guar post p s)
    (himp : ∀ a s', post a s' → post' a s') : Safe step rely guar post' p s := by
  induction p generalizing s with
  | ret a => exact himp a s h
  | fail e => trivial
  | call o k ih => exact fun s₁ hs₁ reply s₂ hstep =>
      ⟨(h s₁ hs₁ reply s₂ hstep).1, ih reply (h s₁ hs₁ reply s₂ hstep).2⟩

theorem Safe.map (h : Safe step rely guar (fun _ _ => True) p s) (f : α → β) :
    Safe step rely guar (fun _ _ => True) (p >>= fun a => pure (f a)) s :=
  safe_bind.mpr (h.mono fun _ _ _ => trivial)

/-- A service that does less is safe to use too. -/
theorem Safe.mono_step {step' : Exchange σ Reply}
    (h : Safe step rely guar post p s) (himp : ∀ s o reply s', step' s o reply s' → step s o reply s') :
    Safe step' rely guar post p s := by
  induction p generalizing s with
  | ret a => exact h
  | fail e => trivial
  | call o k ih =>
    intro s₁ hs₁ reply s₂ hstep
    obtain ⟨hguar, hrest⟩ := h s₁ hs₁ reply s₂ (himp _ _ _ _ hstep)
    exact ⟨hguar, ih reply hrest⟩

end Safe

/-! ## Interleavings -/

section Pool

variable {Req : Type} {Op : Type} {Reply : Op → Type} {ε α : Type} {σ : Type u}

/-- A state and the handlers running against it, each with the request it serves. A handler keeps its index. -/
structure Pool (Req Op : Type) (Reply : Op → Type) (ε α : Type) (σ : Type u) where
  state : σ
  procs : List (Req × Prog Op Reply ε α)

/-- The handler with index `i` issues its next operation and gets `reply`. -/
structure Pool.Act (step : Req → Exchange σ Reply) (c : Pool Req Op Reply ε α σ) (i : Nat) (r : Req)
    (o : Op) (reply : Reply o) (c' : Pool Req Op Reply ε α σ) : Prop where
  state : step r c.state o reply c'.state
  procs : ∃ k, c.procs[i]? = some (r, .call o k) ∧ c'.procs = c.procs.set i (r, k reply)

/-- One step of the pool: a handler acts, a request arrives, or the environment changes the state. -/
inductive Pool.Step (step : Req → Exchange σ Reply) (env : σ → σ → Prop) (start : Req → Prog Op Reply ε α)
    (c c' : Pool Req Op Reply ε α σ) : Prop
  | act (i : Nat) (r : Req) (o : Op) (reply : Reply o) (h : Pool.Act step c i r o reply c')
  | arrive (r : Req) (h : c' = ⟨c.state, c.procs ++ [(r, start r)]⟩)
  | env (h : env c.state c'.state) (hp : c'.procs = c.procs)

/-- Any number of steps. -/
abbrev Pool.Run (step : Req → Exchange σ Reply) (env : σ → σ → Prop)
    (start : Req → Prog Op Reply ε α) : Pool Req Op Reply ε α σ → Pool Req Op Reply ε α σ → Prop :=
  Relation.ReflTransGen (Pool.Step step env start)

variable {step : Req → Exchange σ Reply} {env : σ → σ → Prop} {start : Req → Prog Op Reply ε α}
  {rely : σ → σ → Prop} {guar : Req → Exchange σ Reply} {post : Req → α → σ → Prop}

/-- What is assumed of the parts: the handlers are safe, and every change is one the others rely on. -/
structure Sound (step : Req → Exchange σ Reply) (env : σ → σ → Prop) (start : Req → Prog Op Reply ε α)
    (rely : σ → σ → Prop) (guar : Req → Exchange σ Reply) (post : Req → α → σ → Prop) : Prop where
  refl : ∀ s, rely s s
  trans : ∀ s₁ s₂ s₃, rely s₁ s₂ → rely s₂ s₃ → rely s₁ s₃
  env_rely : ∀ s s', env s s' → rely s s'
  guar_rely : ∀ r s o reply s', step r s o reply s' → guar r s o reply s' → rely s s'
  safe : ∀ r s, Safe (step r) rely (guar r) (post r) (start r) s

/-- Every handler of the pool is still safe from a state the present one may have evolved from. -/
def Pool.Good (step : Req → Exchange σ Reply) (rely : σ → σ → Prop)
    (guar : Req → Exchange σ Reply) (post : Req → α → σ → Prop) (c : Pool Req Op Reply ε α σ) : Prop :=
  ∀ (i : Nat) (r : Req) (p : Prog Op Reply ε α), c.procs[i]? = some (r, p) →
    ∃ s, rely s c.state ∧ Safe (step r) rely (guar r) (post r) p s

variable {c c' : Pool Req Op Reply ε α σ}

theorem Pool.good_nil (s : σ) : Pool.Good step rely guar post (⟨s, []⟩ : Pool Req Op Reply ε α σ) := by
  intro i r p h
  simp at h

variable {r : Req} {i : Nat}

/-- A handler that acts in a good pool meets its guarantee, and its rest is safe from the new state. -/
theorem Pool.Good.act (hgood : Pool.Good step rely guar post c) {o : Op} {reply}
    (hact : Pool.Act step c i r o reply c') :
    guar r c.state o reply c'.state ∧
      ∃ k : Reply o → Prog Op Reply ε α, c'.procs = c.procs.set i (r, k reply) ∧
        Safe (step r) rely (guar r) (post r) (k reply) c'.state := by
  obtain ⟨k, hi, hset⟩ := hact.procs
  obtain ⟨s₀, hrely, hsafe⟩ := hgood i r _ hi
  obtain ⟨hguar, hrest⟩ := hsafe c.state hrely reply c'.state hact.state
  exact ⟨hguar, k, hset, hrest⟩

/-- Where a handler of the pool comes from when a step was made: it is as before, it has acted, or it is new. -/
inductive Pool.ProcCase (step : Req → Exchange σ Reply) (start : Req → Prog Op Reply ε α)
    (c c' : Pool Req Op Reply ε α σ) (i : Nat) (r : Req) (p : Prog Op Reply ε α) : Prop
  | kept (h : c.procs[i]? = some (r, p))
  | acted (o : Op) (k : Reply o → Prog Op Reply ε α) (reply : Reply o) (h : c.procs[i]? = some (r, .call o k))
      (hp : p = k reply) (hstep : step r c.state o reply c'.state)
  | arrived (hi : i = c.procs.length) (hp : p = start r) (hstate : c'.state = c.state)

/-- Where a handler comes from when one of them acted. -/
theorem Pool.Act.proc_cases {j r'} {o : Op} {reply} (hact : Pool.Act step c j r' o reply c')
    {p} (hp : c'.procs[i]? = some (r, p)) :
    (i = j ∧ r = r' ∧ ∃ k, c.procs[j]? = some (r', .call o k) ∧ p = k reply) ∨ i ≠ j ∧ c.procs[i]? = some (r, p) := by
  obtain ⟨k, hj, hset⟩ := hact.procs
  rw [hset] at hp
  by_cases hij : j = i
  · subst hij
    have hlt : j < c.procs.length := (List.getElem?_eq_some_iff.mp hj).1
    rw [List.getElem?_set_self hlt, Option.some.injEq, Prod.mk.injEq] at hp
    exact .inl ⟨rfl, hp.1.symm, k, hj, hp.2.symm⟩
  · rw [List.getElem?_set_ne hij] at hp
    exact .inr ⟨Ne.symm hij, hp⟩

/-- Where a handler comes from when one of them arrived. -/
theorem Pool.proc_cases_of_arrive {procs r' p} (hp : (procs ++ [(r', start r')])[i]? = some (r, p)) :
    procs[i]? = some (r, p) ∨ i = procs.length ∧ p = start r := by
  by_cases hlt : i < procs.length
  · rw [List.getElem?_append_left hlt] at hp
    exact .inl hp
  · rw [List.getElem?_append_right (Nat.le_of_not_lt hlt), List.getElem?_singleton] at hp
    split at hp
    · next hi =>
      obtain ⟨rfl, rfl⟩ := Prod.mk.inj (Option.some.inj hp)
      exact .inr ⟨by omega, rfl⟩
    · cases hp

theorem Pool.Step.proc_cases (hstep : Pool.Step step env start c c') {p}
    (hp : c'.procs[i]? = some (r, p)) : Pool.ProcCase step start c c' i r p := by
  cases hstep with
  | act j r' o reply hact =>
    rcases hact.proc_cases hp with ⟨rfl, rfl, k, hj, hpk⟩ | ⟨-, hold⟩
    · exact .acted o k reply hj hpk hact.state
    · exact .kept hold
  | arrive r' h =>
    subst h
    rcases Pool.proc_cases_of_arrive hp with hold | ⟨hi, hpr⟩
    · exact .kept hold
    · exact .arrived hi hpr rfl
  | env h he =>
    rw [he] at hp
    exact .kept hp

section

variable (hsound : Sound step env start rely guar post)

include hsound

/-- One step changes the state as the handlers rely on. -/
theorem Pool.Good.rely_step (hgood : Pool.Good step rely guar post c) (hstep : Pool.Step step env start c c') :
    rely c.state c'.state := by
  cases hstep with
  | act i r o reply hact => exact hsound.guar_rely r _ o reply _ hact.state (hgood.act hact).1
  | arrive r h => subst h; exact hsound.refl _
  | env h hp => exact hsound.env_rely _ _ h

theorem Pool.Good.next (hgood : Pool.Good step rely guar post c)
    (hstep : Pool.Step step env start c c') : Pool.Good step rely guar post c' := by
  intro i r p hp
  cases hstep.proc_cases hp with
  | kept h =>
    obtain ⟨s₀, hrely, hsafe⟩ := hgood i r p h
    exact ⟨s₀, hsound.trans _ _ _ hrely (hgood.rely_step hsound hstep), hsafe⟩
  | acted o k reply h hp hserved =>
    subst hp
    obtain ⟨s₀, hrely, hsafe⟩ := hgood i r _ h
    exact ⟨c'.state, hsound.refl _, (hsafe c.state hrely reply c'.state hserved).2⟩
  | arrived hi hp hstate =>
    subst hp
    exact ⟨c'.state, hsound.refl _, hsound.safe _ _⟩

theorem Pool.Good.run (hgood : Pool.Good step rely guar post c)
    (hrun : Pool.Run step env start c c') : Pool.Good step rely guar post c' := by
  induction hrun with
  | refl => exact hgood
  | tail _ hstep ih => exact ih.next hsound hstep

/-- **Invariants of all interleavings.** What the environment and every guaranteed operation preserve holds in
    every state a pool started without handlers reaches. -/
theorem Pool.invariant {I : σ → Prop} {s : σ} (hinit : I s) (henv : ∀ s s', I s → env s s' → I s')
    (hguar : ∀ r s o reply s', I s → step r s o reply s' → guar r s o reply s' → I s')
    (hrun : Pool.Run step env start ⟨s, []⟩ c) : I c.state := by
  induction hrun with
  | refl => exact hinit
  | tail hbefore hstep ih =>
    have hgood := (Pool.good_nil s).run hsound hbefore
    cases hstep with
    | act i r o reply hact => exact hguar r _ o reply _ ih hact.state (hgood.act hact).1
    | arrive r h => subst h; exact ih
    | env h hp => exact henv _ _ ih h

/-- Every operation issued in a run meets the guarantee of the request it is issued for. -/
theorem Pool.act_guar {s : σ} (hrun : Pool.Run step env start ⟨s, []⟩ c) {o : Op} {reply}
    (hact : Pool.Act step c i r o reply c') : guar r c.state o reply c'.state :=
  (((Pool.good_nil s).run hsound hrun).act hact).1

/-- Any later state is one the handlers rely on. -/
theorem Pool.Good.rely_run (hgood : Pool.Good step rely guar post c) (hrun : Pool.Run step env start c c') :
    rely c.state c'.state := by
  induction hrun with
  | refl => exact hsound.refl _
  | tail hbefore hstep ih => exact hsound.trans _ _ _ ih ((hgood.run hsound hbefore).rely_step hsound hstep)

end

/-- **Answers to later requests.** In a run whose steps all stay within `rely`, a handler for `r` that arrives after
    `c` runs from a state evolved from that of `c`, so its answers meet what it is safe for from all those states. -/
theorem Pool.answer_of_later (r : Req) (rely : σ → σ → Prop) (post : α → σ → Prop) (hrefl : ∀ s, rely s s)
    (htrans : ∀ s₁ s₂ s₃, rely s₁ s₂ → rely s₂ s₃ → rely s₁ s₃)
    (hsteps : ∀ c₁ c₂, Pool.Run step env start c c₁ → Pool.Step step env start c₁ c₂ → rely c₁.state c₂.state)
    (hsafe : ∀ s, rely c.state s → Safe (step r) rely (fun _ _ _ _ => True) post (start r) s)
    (hrun : Pool.Run step env start c c') (hi : c.procs.length ≤ i) {a : α}
    (h : c'.procs[i]? = some (r, .ret a)) : ∃ s, rely s c'.state ∧ post a s := by
  -- every later handler for `r` stays safe from a state the present one has evolved from
  have hinv : rely c.state c'.state ∧ ∀ i p, c.procs.length ≤ i → c'.procs[i]? = some (r, p) →
      ∃ s, rely s c'.state ∧ Safe (step r) rely (fun _ _ _ _ => True) post p s := by
    clear h hi
    induction hrun with
    | refl =>
      refine ⟨hrefl _, fun i p hi hp => ?_⟩
      rw [List.getElem?_eq_none hi] at hp
      cases hp
    | @tail c₁ c₂ hbefore hstep ih =>
      obtain ⟨hrely, hprocs⟩ := ih
      have hnext := hsteps c₁ c₂ hbefore hstep
      refine ⟨htrans _ _ _ hrely hnext, fun i p hi hp => ?_⟩
      cases hstep.proc_cases hp with
      | kept h =>
        obtain ⟨s, hs, hsafe⟩ := hprocs i p hi h
        exact ⟨s, htrans _ _ _ hs hnext, hsafe⟩
      | acted o k reply h hp hserved =>
        subst hp
        obtain ⟨s, hs, hsafe⟩ := hprocs i _ hi h
        exact ⟨c₂.state, hrefl _, (hsafe c₁.state hs reply c₂.state hserved).2⟩
      | arrived hi hp hstate =>
        subst hp
        exact ⟨c₁.state, hstate ▸ hrefl _, hsafe _ hrely⟩
  exact hinv.2 i _ hi h

end Pool

/-! ## Running handlers to their end -/

section Exec

variable {Req : Type} {Op : Type} {Reply : Op → Type} {ε α : Type} {σ : Type u}

/-- Runs a handler alone against a service that answers `answer`. -/
def Prog.exec (answer : σ → (o : Op) → Reply o × σ) : Prog Op Reply ε α → σ → Except ε α × σ
  | .ret a, s => (.ok a, s)
  | .fail e, s => (.error e, s)
  | .call o k, s => exec answer (k (answer s o).1) (answer s o).2

/-- Every operation of that execution meets the condition. -/
def Prog.ExecAll (answer : σ → (o : Op) → Reply o × σ) (condition : σ → Op → Prop) :
    Prog Op Reply ε α → σ → Prop
  | .call o k, s => condition s o ∧ ExecAll answer condition (k (answer s o).1) (answer s o).2
  | _, _ => True

instance Prog.decidableExecAll (answer : σ → (o : Op) → Reply o × σ) (condition : σ → Op → Prop)
    [∀ s o, Decidable (condition s o)] :
    (p : Prog Op Reply ε α) → (s : σ) → Decidable (p.ExecAll answer condition s)
  | .ret _, _ => isTrue trivial
  | .fail _, _ => isTrue trivial
  | .call o k, s =>
    have := decidableExecAll answer condition (k (answer s o).1) (answer s o).2
    inferInstanceAs (Decidable (condition s o ∧ _))

/-- A request that arrives and is served before anything else happens. -/
def Pool.serve (answer : σ → (o : Op) → Reply o × σ) (start : Req → Prog Op Reply ε α)
    (c : Pool Req Op Reply ε α σ) (r : Req) : Pool Req Op Reply ε α σ :=
  ⟨((start r).exec answer c.state).2, c.procs ++ [(r, Prog.lift ((start r).exec answer c.state).1)]⟩

variable {step : Req → Exchange σ Reply} {env : σ → σ → Prop} {start : Req → Prog Op Reply ε α}
  {answer : σ → (o : Op) → Reply o × σ} {condition : σ → Op → Prop}

theorem Prog.exec_bind {β : Type} (p : Prog Op Reply ε α) (f : α → Prog Op Reply ε β) (s : σ) :
    (p >>= f).exec answer s =
      match p.exec answer s with
      | (.ok a, s') => (f a).exec answer s'
      | (.error e, s') => (.error e, s') := by
  induction p generalizing s with
  | ret a => rfl
  | fail e => rfl
  | call o k ih => exact ih _ _

theorem Prog.exec_bind_ok {β : Type} {p : Prog Op Reply ε α} {f : α → Prog Op Reply ε β} {s s' : σ} {a : α}
    (h : p.exec answer s = (.ok a, s')) : (p >>= f).exec answer s = (f a).exec answer s' := by
  rw [Prog.exec_bind, h]

theorem Prog.exec_lift (value : Except ε α) (s : σ) :
    (Prog.lift value : Prog Op Reply ε α).exec answer s = (value, s) := by
  cases value <;> rfl

theorem Prog.execAll_of_forall (h : ∀ s o, condition s o) (p : Prog Op Reply ε α) (s : σ) :
    p.ExecAll answer condition s := by
  induction p generalizing s with
  | ret a => trivial
  | fail e => trivial
  | call o k ih => exact ⟨h s o, ih _ _⟩

theorem Pool.run_exec {r}
    (hanswer : ∀ s o, condition s o → step r s o (answer s o).1 (answer s o).2) (p : Prog Op Reply ε α) (s : σ)
    (procs : List (Req × Prog Op Reply ε α)) (hall : p.ExecAll answer condition s) :
    Pool.Run step env start ⟨s, procs ++ [(r, p)]⟩
      ⟨(p.exec answer s).2, procs ++ [(r, Prog.lift (p.exec answer s).1)]⟩ := by
  induction p generalizing s with
  | ret a => exact .refl
  | fail e => exact .refl
  | call o k ih =>
    obtain ⟨hhere, hrest⟩ := hall
    refine .head (.act procs.length r o (answer s o).1 ⟨hanswer s o hhere, k, by simp, ?_⟩) (ih _ _ hrest)
    simp

/-- **Serving one request after the other is a run of the pool.** -/
theorem Pool.run_serve {r} (hanswer : ∀ s o, condition s o → step r s o (answer s o).1 (answer s o).2)
    (c : Pool Req Op Reply ε α σ) (hall : (start r).ExecAll answer condition c.state) :
    Pool.Run step env start c (c.serve answer start r) :=
  .head (.arrive r rfl) (Pool.run_exec hanswer (start r) c.state c.procs hall)

variable (step env start) in
/-- If what does not hold before an execution holds after it, one of the operations brought it about. -/
theorem Pool.exec_crosses {r} (P : σ → Prop)
    (hanswer : ∀ s o, condition s o → step r s o (answer s o).1 (answer s o).2) (p : Prog Op Reply ε α) (s : σ)
    (procs : List (Req × Prog Op Reply ε α)) (hall : p.ExecAll answer condition s) (hbefore : ¬P s)
    (hafter : P (p.exec answer s).2) :
    ∃ c₁ c₂ : Pool Req Op Reply ε α σ, ∃ i o reply, Pool.Run step env start ⟨s, procs ++ [(r, p)]⟩ c₁ ∧
      Pool.Act step c₁ i r o reply c₂ ∧ ¬P c₁.state ∧ P c₂.state ∧ c₂.procs.length = procs.length + 1 ∧
      Pool.Run step env start c₂ ⟨(p.exec answer s).2, procs ++ [(r, Prog.lift (p.exec answer s).1)]⟩ := by
  induction p generalizing s with
  | ret | fail => exact absurd hafter hbefore
  | call o k ih =>
    obtain ⟨hhere, hrest⟩ := hall
    have hact : Pool.Act step ⟨s, procs ++ [(r, .call o k)]⟩ procs.length r o (answer s o).1
        ⟨(answer s o).2, procs ++ [(r, k (answer s o).1)]⟩ :=
      ⟨hanswer s o hhere, k, by simp, by simp⟩
    by_cases hnext : P (answer s o).2
    · exact ⟨_, _, _, _, _, .refl, hact, hbefore, hnext, by simp, Pool.run_exec hanswer _ _ procs hrest⟩
    · obtain ⟨c₁, c₂, i, o', reply, hrun, hrest⟩ := ih _ _ hrest hnext hafter
      exact ⟨c₁, c₂, i, o', reply, .head (.act _ _ _ _ hact) hrun, hrest⟩

end Exec

end Interaction
