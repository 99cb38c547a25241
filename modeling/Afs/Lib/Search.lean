import Mathlib.Data.Finset.Card

/-!
# `Lib.Search` — depth-first search with one set of visited nodes

`search next target` follows the edges of a graph until it finds the target. All branches share the list of visited
nodes, so a node that one branch has given up is not entered again by another. The search is exact: it answers yes
only if there is a path (`search_sound`), and no only if there is none, provided that the fuel exceeds the number of
nodes with edges that are not visited yet (`exhausted_search`).
-/

namespace Search

open Relation

variable {α : Type} [DecidableEq α]

def search (next : α → List α) (target : α) : Nat → α → StateM (List α) Bool
  | 0, _ => pure false
  | fuel + 1, current => do
    if current = target then
      return true
    if current ∈ (← get) then
      return false
    modify (current :: ·)
    (next current).anyM (search next target fuel)

omit [DecidableEq α] in
theorem anyM_cons (f : α → StateM (List α) Bool) (x : α) (xs seen : List α) :
    (x :: xs).anyM f seen = if (f x seen).1 then (true, (f x seen).2) else xs.anyM f (f x seen).2 := by
  show (match f x seen with | (b, seen') => (match b with | true => pure true | false => xs.anyM f) seen') = _
  rcases f x seen with ⟨_ | _, seen'⟩ <;> rfl

variable {next : α → List α} {target x : α} {xs seen : List α} {sources : Finset α} {fuel : Nat}

theorem search_succ (next : α → List α) (target x : α) (fuel : Nat) (seen : List α) :
    search next target (fuel + 1) x seen =
      if x = target then (true, seen) else if x ∈ seen then (false, seen)
      else (next x).anyM (search next target fuel) (x :: seen) := by
  show (if x = target then (return true : StateM (List α) Bool) else _) seen = _
  split
  · rfl
  · show (if x ∈ seen then (return false : StateM (List α) Bool) else _) seen = _
    split <;> rfl

omit [DecidableEq α] in
/-- A yes comes from one of the branches. -/
theorem anyM_true {f : α → StateM (List α) Bool} (h : (xs.anyM f seen).1 = true) :
    ∃ x ∈ xs, ∃ seen', (f x seen').1 = true := by
  induction xs generalizing seen with
  | nil => cases h
  | cons x xs ih =>
    rw [anyM_cons] at h
    split at h
    · next hx => exact ⟨x, List.mem_cons_self, seen, hx⟩
    · obtain ⟨y, hy, hfound⟩ := ih h
      exact ⟨y, List.mem_cons_of_mem _ hy, hfound⟩

/-- **A search that answers yes has found a path.** -/
theorem search_sound (h : (search next target fuel x seen).1 = true) :
    ReflTransGen (fun u v => v ∈ next u) x target := by
  induction fuel generalizing x seen with
  | zero => cases h
  | succ fuel ih =>
    rw [search_succ] at h
    split at h
    · next heq => exact heq ▸ .refl
    · split at h
      · cases h
      · obtain ⟨y, hy, _, hfound⟩ := anyM_true h
        exact (ih hfound).head hy

/-- The nodes `xs` have been searched in vain: every node visited on the way is left with all its edges visited. -/
structure Exhausted (next : α → List α) (target : α) (xs seen seen' : List α) : Prop where
  mono : ∀ u ∈ seen, u ∈ seen'
  roots : ∀ u ∈ xs, u ∈ seen'
  closed : ∀ u ∈ seen', u ∉ seen → u ≠ target ∧ ∀ v ∈ next u, v ∈ seen'

/-- The number of nodes with edges that are still to be visited. -/
def remaining (sources : Finset α) (seen : List α) : Nat := (sources \ seen.toFinset).card

theorem remaining_mono {seen'} (h : ∀ u ∈ seen, u ∈ seen') : remaining sources seen' ≤ remaining sources seen := by
  refine Finset.card_le_card (Finset.sdiff_subset_sdiff subset_rfl fun u hu => ?_)
  exact List.mem_toFinset.mpr (h u (List.mem_toFinset.mp hu))

theorem remaining_cons_lt (hsource : x ∈ sources) (hx : x ∉ seen) :
    remaining sources (x :: seen) < remaining sources seen := by
  refine Finset.card_lt_card ((Finset.ssubset_iff_of_subset ?_).mpr ⟨x, ?_, ?_⟩)
  · exact Finset.sdiff_subset_sdiff subset_rfl fun u hu => by simp at hu ⊢; exact .inr hu
  · simp [hsource, hx]
  · simp

/-- The branches, one after the other. -/
theorem exhausted_anyM {f : α → StateM (List α) Bool} {bound : Nat}
    (hf : ∀ x seen, remaining sources seen < bound → (f x seen).1 = false →
      Exhausted next target [x] seen (f x seen).2)
    (hbound : remaining sources seen < bound) (h : (xs.anyM f seen).1 = false) :
    Exhausted next target xs seen (xs.anyM f seen).2 := by
  induction xs generalizing seen with
  | nil => exact ⟨fun _ hu => hu, nofun, fun u hu hnew => absurd hu hnew⟩
  | cons x xs ih =>
    rw [anyM_cons] at h ⊢
    split at h
    · cases h
    · next hx =>
      have hfirst := hf x seen hbound (by simpa using hx)
      have hrest := ih (Nat.lt_of_le_of_lt (remaining_mono hfirst.mono) hbound) h
      rw [if_neg hx]
      refine ⟨fun u hu => hrest.mono u (hfirst.mono u hu), List.forall_mem_cons.mpr ⟨?_, hrest.roots⟩, ?_⟩
      · exact hrest.mono x (hfirst.roots x List.mem_cons_self)
      · intro u hu hnew
        by_cases hmid : u ∈ (f x seen).2
        · obtain ⟨hne, hclosed⟩ := hfirst.closed u hmid hnew
          exact ⟨hne, fun v hv => hrest.mono v (hclosed v hv)⟩
        · exact hrest.closed u hu hmid

/-- **A search that answers no has visited everything it could reach.** -/
theorem exhausted_search (hsources : ∀ u, next u ≠ [] → u ∈ sources) (hfuel : remaining sources seen < fuel)
    (h : (search next target fuel x seen).1 = false) :
    Exhausted next target [x] seen (search next target fuel x seen).2 := by
  induction fuel generalizing x seen with
  | zero => exact absurd hfuel (Nat.not_lt_zero _)
  | succ fuel ih =>
    rw [search_succ] at h ⊢
    split at h
    · cases h
    next hne =>
    rw [if_neg hne]
    split at h
    · next hseen =>
      rw [if_pos hseen]
      exact ⟨fun _ hu => hu, by simpa using hseen, fun u hu hnew => absurd hu hnew⟩
    next hseen =>
    rw [if_neg hseen]
    -- a node without edges needs no fuel for its branches, and any other one is counted no more
    have hall : Exhausted next target (next x) (x :: seen) ((next x).anyM (search next target fuel) (x :: seen)).2 := by
      by_cases hnext : next x = []
      · rw [hnext]
        exact ⟨fun _ hu => hu, nofun, fun u hu hnew => absurd hu hnew⟩
      · have hlt := remaining_cons_lt (hsources x hnext) hseen
        exact exhausted_anyM (fun y seen' hfuel' => ih hfuel') (by omega) h
    refine ⟨fun u hu => hall.mono u (List.mem_cons_of_mem _ hu), by simpa using hall.mono x List.mem_cons_self, ?_⟩
    intro u hu hnew
    by_cases hux : u = x
    · subst hux
      exact ⟨hne, hall.roots⟩
    · exact hall.closed u hu (by simp [hux, hnew])

omit [DecidableEq α] in
theorem Exhausted.unreachable {seen'} (h : Exhausted next target xs [] seen') (hx : x ∈ xs) :
    ¬ ReflTransGen (fun u v => v ∈ next u) x target := by
  have hvisited {y : α} (hpath : ReflTransGen (fun u v => v ∈ next u) x y) : y ∈ seen' := by
    induction hpath with
    | refl => exact h.roots x hx
    | tail _ hv ih => exact (h.closed _ ih nofun).2 _ hv
  exact fun hpath => (h.closed _ (hvisited hpath) nofun).1 rfl

end Search
