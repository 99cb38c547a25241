import Afs.Lib.Interaction

/-!
# `Lib.Crash` — programs that may stop between any two operations

`Stops` gives the states in which a program may be interrupted. `Guarded` is the weakest precondition for a program
under a crash condition: the condition holds in all those states, and the postcondition at the end. Its rules follow the
program text, so a program is checked operation by operation, and what it is checked for holds of its executions
(`Guarded.exec`) and of its interruptions (`Guarded.stops`).
-/

namespace Interaction

section Crash

variable {Op : Type} {Reply : Op → Type} {ε α β : Type} {σ : Type u}

/-- The states in which the program may be interrupted. -/
inductive Prog.Stops (answer : σ → (o : Op) → Reply o × σ) : Prog Op Reply ε α → σ → σ → Prop
  | here (p : Prog Op Reply ε α) (s : σ) : Stops answer p s s
  | later {o : Op} {k : Reply o → Prog Op Reply ε α} {s s' : σ}
      (h : Stops answer (k (answer s o).1) (answer s o).2 s') : Stops answer (.call o k) s s'

/-- **The program is guarded** from a state: whenever it is interrupted the crash condition holds, and at its end the
    postcondition for its answer or failure. -/
def Guarded (answer : σ → (o : Op) → Reply o × σ) (crash : σ → Prop) (post : Except ε α → σ → Prop) :
    Prog Op Reply ε α → σ → Prop
  | .ret a, s => crash s ∧ post (.ok a) s
  | .fail e, s => crash s ∧ post (.error e) s
  | .call o k, s => crash s ∧ Guarded answer crash post (k (answer s o).1) (answer s o).2

variable {answer : σ → (o : Op) → Reply o × σ} {crash crash' : σ → Prop} {post post' : Except ε α → σ → Prop} {s s' : σ}

variable {p : Prog Op Reply ε α}

theorem Guarded.here (h : Guarded answer crash post p s) : crash s := by
  cases p with
  | ret | fail | call => exact h.1

theorem guarded_bind {p : Prog Op Reply ε β} {f : β → Prog Op Reply ε α} :
    Guarded answer crash post (p >>= f) s ↔
      Guarded answer crash
        (fun result s => match result with
          | .ok b => Guarded answer crash post (f b) s
          | .error e => post (.error e) s) p s := by
  induction p generalizing s with
  | ret b => exact ⟨fun h => ⟨h.here, h⟩, fun h => h.2⟩
  | fail e => exact Iff.rfl
  | call o k ih => exact and_congr_right fun _ => ih _

theorem Guarded.mono (h : Guarded answer crash post p s) (hcrash : ∀ s, crash s → crash' s)
    (hpost : ∀ result s, post result s → post' result s) : Guarded answer crash' post' p s := by
  induction p generalizing s with
  | ret | fail => exact ⟨hcrash _ h.1, hpost _ _ h.2⟩
  | call o k ih => exact ⟨hcrash _ h.1, ih _ h.2⟩

theorem Guarded.exec (h : Guarded answer crash post p s) : post (p.exec answer s).1 (p.exec answer s).2 := by
  induction p generalizing s with
  | ret a => exact h.2
  | fail e => exact h.2
  | call o k ih => exact ih _ h.2

theorem Guarded.stops (h : Guarded answer crash post p s) (hstops : p.Stops answer s s') : crash s' := by
  induction hstops with
  | here p s => exact h.here
  | later _ ih => exact ih h.2

end Crash

end Interaction
