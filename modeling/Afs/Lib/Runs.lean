import Mathlib.Data.List.Basic

/-!
# `Lib.Runs` — runs of a machine under a condition on its steps

A machine is a partial step function on states and events. A run takes steps that are allowed in the state they start
from; what an allowed step preserves holds in every state that a run reaches (`Run.invariant`).
-/

namespace Runs

variable {S E : Type}

/-- A run from one state to another, all of whose steps are allowed. -/
inductive Run (step : S → E → Option S) (allowed : S → E → Prop) (start : S) : S → Prop
  | refl : Run step allowed start start
  | tail {s t : S} (run : Run step allowed start s) (e : E) (hallowed : allowed s e) (hstep : step s e = some t) :
      Run step allowed start t

variable {step : S → E → Option S} {allowed : S → E → Prop} {start s t : S}

/-- **The invariant rule.** -/
theorem Run.invariant {P : S → Prop} (hpreserved : ∀ s e t, P s → allowed s e → step s e = some t → P t)
    (h : Run step allowed start s) (hstart : P start) : P s := by
  induction h with
  | refl => exact hstart
  | tail _ e hallowed hstep ih => exact hpreserved _ e _ ih hallowed hstep

theorem Run.trans (h : Run step allowed start s) (h' : Run step allowed s t) : Run step allowed start t := by
  induction h' with
  | refl => exact h
  | tail _ e hallowed hstep ih => exact .tail ih e hallowed hstep

/-- A list of events, one after the other. -/
def execute (step : S → E → Option S) : List E → S → Option S
  | [], s => some s
  | e :: events, s => (step s e).bind (execute step events)

/-- A list of events that can be executed is a run, if every event is allowed where it occurs. -/
theorem run_of_execute (allowed : S → E → Prop) {events} (hallowed : ∀ s, ∀ e ∈ events, allowed s e)
    (h : execute step events start = some s) : Run step allowed start s := by
  induction events generalizing start with
  | nil =>
    cases h
    exact .refl
  | cons e events ih =>
    obtain ⟨mid, hstep, h⟩ := Option.bind_eq_some_iff.mp h
    have hfirst : allowed start e := hallowed start e List.mem_cons_self
    have hrest := ih (fun s e he => hallowed s e (List.mem_cons_of_mem _ he)) h
    exact (Run.tail .refl e hfirst hstep).trans hrest

end Runs
