import Mathlib.Order.Lattice
import Mathlib.Data.List.Pairwise

/-!
# `Lib.Spans` — lists of tagged spans

A span covers the numbers from its first to its last one, both included, and carries a tag. A list of spans stands for
the relation `Held`: which tag is held at which number. `mergeRuns` joins neighbours of a sorted list that carry one tag
and leave no number between them. It keeps `Held`, keeps apart what was apart, and leaves no two spans of one tag that
touch.
-/

namespace Spans

open List

/-- How the values of a type are read as tagged spans. -/
structure View (α τ : Type) where
  tag : α → τ
  (first last : α → Nat)

variable {α τ : Type}

namespace View

variable (v : View α τ)

def Covers (a : α) (n : Nat) : Prop := v.first a ≤ n ∧ n ≤ v.last a

def Nonempty (a : α) : Prop := v.first a ≤ v.last a

/-- Some number is covered by both. -/
def Meets (a b : α) : Prop := v.first a ≤ v.last b ∧ v.first b ≤ v.last a

/-- They meet, or one begins right after the other. -/
def Touches (a b : α) : Prop := v.first a ≤ v.last b + 1 ∧ v.first b ≤ v.last a + 1

/-- Tag `t` is held at `n`. -/
def Held (l : List α) (t : τ) (n : Nat) : Prop := ∃ a ∈ l, v.tag a = t ∧ v.Covers a n

/-- Spans whose tags are related do not meet. -/
def Apart (related : τ → τ → Prop) (a b : α) : Prop := related (v.tag a) (v.tag b) → ¬ v.Meets a b

/-- Spans of one tag do not touch. -/
def Separate (a b : α) : Prop := v.tag a = v.tag b → ¬ v.Touches a b

/-- Ordered by tag, then by the first number. -/
def Before [LT τ] (a b : α) : Prop := v.tag a < v.tag b ∨ v.tag a = v.tag b ∧ v.first a ≤ v.first b

variable {v} {a b c : α} {related : τ → τ → Prop}

theorem Meets.symm (h : v.Meets a b) : v.Meets b a := And.symm h

theorem Apart.symm (hrelated : ∀ s t, related s t → related t s) (h : v.Apart related a b) : v.Apart related b a :=
  fun htag hmeets => h (hrelated _ _ htag) hmeets.symm

theorem Covers.meets {n} (ha : v.Covers a n) (hb : v.Covers b n) : v.Meets a b :=
  ⟨Nat.le_trans ha.1 hb.2, Nat.le_trans hb.1 ha.2⟩

/-- Spans that meet cover a number together: the later of the two beginnings. -/
theorem Meets.exists_covers (ha : v.Nonempty a) (hb : v.Nonempty b) (h : v.Meets a b) :
    ∃ n, v.Covers a n ∧ v.Covers b n := by
  refine ⟨max (v.first a) (v.first b), ⟨Nat.le_max_left _ _, ?_⟩, Nat.le_max_right _ _, ?_⟩
  · exact Nat.max_le.mpr ⟨ha, h.2⟩
  · exact Nat.max_le.mpr ⟨h.1, hb⟩

theorem Before.trans [LinearOrder τ] (hab : v.Before a b) (hbc : v.Before b c) : v.Before a c := by
  rcases hab with hab | ⟨hab, hfirst⟩
  · rcases hbc with hbc | ⟨hbc, _⟩
    · exact .inl (lt_trans hab hbc)
    · exact .inl (hbc ▸ hab)
  · rcases hbc with hbc | ⟨hbc, hfirst'⟩
    · exact .inl (hab ▸ hbc)
    · exact .inr ⟨hab.trans hbc, Nat.le_trans hfirst hfirst'⟩

/-- A span that does not touch the next one touches none that comes after that. -/
theorem Separate.before [LinearOrder τ] (hb : v.Nonempty b) (h : v.Separate a b) (hab : v.Before a b)
    (hbc : v.Before b c) : v.Separate a c := by
  intro htag htouches
  have hle : v.tag b ≤ v.tag c := by
    rcases hbc with hbc | ⟨hbc, _⟩
    · exact le_of_lt hbc
    · exact le_of_eq hbc
  rcases hab with hab | ⟨hab, hfirst⟩
  · exact absurd (htag ▸ hle) (not_le_of_gt hab)
  · rcases hbc with hbc | ⟨hbc, hfirst'⟩
    · exact absurd hbc (htag ▸ hab ▸ lt_irrefl _)
    · refine h hab ⟨?_, ?_⟩
      · exact Nat.le_succ_of_le (Nat.le_trans hfirst hb)
      · exact Nat.le_trans hfirst' htouches.2

theorem Before.first_le [LinearOrder τ] (h : v.Before a b) (htag : v.tag a = v.tag b) : v.first a ≤ v.first b := by
  rcases h with h | ⟨_, h⟩
  · exact absurd h (htag ▸ lt_irrefl _)
  · exact h

theorem held_cons {l} {t : τ} {n} : v.Held (a :: l) t n ↔ (v.tag a = t ∧ v.Covers a n) ∨ v.Held l t n := by
  simp [Held]

theorem held_append {l l'} {t : τ} {n} : v.Held (l ++ l') t n ↔ v.Held l t n ∨ v.Held l' t n := by
  simp only [Held, mem_append, or_and_right, exists_or]

theorem held_perm {l l'} (h : l.Perm l') {t : τ} {n} : v.Held l t n ↔ v.Held l' t n := by
  simp only [Held, h.mem_iff]

/-- Who is apart from everything in a list is apart from what holds the same. -/
theorem apart_of_held {l l'} (ha : v.Nonempty a) (hl' : ∀ b ∈ l', v.Nonempty b)
    (hheld : ∀ t n, v.Held l' t n → v.Held l t n) (h : ∀ b ∈ l, v.Apart related a b) :
    ∀ b ∈ l', v.Apart related a b := by
  intro b hb hrelated hmeets
  obtain ⟨n, han, hbn⟩ := hmeets.exists_covers ha (hl' b hb)
  obtain ⟨c, hc, htag, hcn⟩ := hheld (v.tag b) n ⟨b, hb, rfl, hbn⟩
  exact h c hc (htag ▸ hrelated) (han.meets hcn)

end View

/-! ## Merging neighbours -/

/-- Joins every span of the list to the one before it that it may be joined to. `last` is the span that the next one is
    compared with; what comes before it is final. -/
def mergeFrom (joins : α → α → Bool) (join : α → α → α) (last : α) : List α → List α
  | [] => [last]
  | a :: rest =>
    if joins last a then mergeFrom joins join (join last a) rest else last :: mergeFrom joins join a rest

def mergeRuns (joins : α → α → Bool) (join : α → α → α) : List α → List α
  | [] => []
  | a :: rest => mergeFrom joins join a rest

/-- `joins` finds the spans of one tag that touch and `join` makes one span of two of them, when the second does not
    begin before the first. -/
structure Joining (v : View α τ) (joins : α → α → Bool) (join : α → α → α) : Prop where
  joins_iff : ∀ {a b}, v.Nonempty a → v.Nonempty b → (joins a b = true ↔ v.tag a = v.tag b ∧ v.Touches a b)
  tag : ∀ a b, v.tag (join a b) = v.tag a
  first : ∀ a b, v.first (join a b) = v.first a
  last : ∀ a b, v.last (join a b) = max (v.last a) (v.last b)

section Merging

variable {v : View α τ} {joins : α → α → Bool} {join : α → α → α}

namespace Joining

variable (hj : Joining v joins join) {related : τ → τ → Prop}
include hj

theorem covers_join {a b : α} (ha : v.Nonempty a) (hb : v.Nonempty b) (hfirst : v.first a ≤ v.first b)
    (htouches : v.Touches a b) (n : Nat) : v.Covers (join a b) n ↔ v.Covers a n ∨ v.Covers b n := by
  have hgap : v.first b ≤ v.last a + 1 := htouches.2
  have ha' : v.first a ≤ v.last a := ha
  have hb' : v.first b ≤ v.last b := hb
  simp only [View.Covers, hj.first, hj.last]
  omega

theorem nonempty_join {a b : α} (ha : v.Nonempty a) : v.Nonempty (join a b) := by
  simp only [View.Nonempty, hj.first, hj.last]
  exact Nat.le_trans ha (Nat.le_max_left _ _)

theorem nonempty_mergeFrom (rest : List α) :
    ∀ {last : α}, (∀ a ∈ last :: rest, v.Nonempty a) → ∀ b ∈ mergeFrom joins join last rest, v.Nonempty b := by
  induction rest with
  | nil => exact fun h b hb => h b hb
  | cons a rest ih =>
    intro last h b hb
    rw [mergeFrom] at hb
    split at hb
    · refine ih ?_ b hb
      intro c hc
      rcases mem_cons.mp hc with rfl | hc
      · exact hj.nonempty_join (h last mem_cons_self)
      · exact h c (mem_cons_of_mem _ (mem_cons_of_mem _ hc))
    · rcases mem_cons.mp hb with rfl | hb
      · exact h b mem_cons_self
      · exact ih (fun c hc => h c (mem_cons_of_mem _ hc)) b hb

theorem nonempty_mergeRuns {l} (hnonempty : ∀ a ∈ l, v.Nonempty a) : ∀ b ∈ mergeRuns joins join l, v.Nonempty b := by
  cases l with
  | nil => exact hnonempty
  | cons a rest => exact hj.nonempty_mergeFrom rest hnonempty

variable [LinearOrder τ]

theorem before_join {a b c : α} : v.Before (join a b) c ↔ v.Before a c := by
  simp only [View.Before, hj.tag, hj.first]

theorem before_mergeFrom (rest : List α) :
    ∀ {last c : α}, v.Before c last → (last :: rest).Pairwise v.Before → ∀ b ∈ mergeFrom joins join last rest,
      v.Before c b := by
  induction rest with
  | nil =>
    intro last c hc _ b hb
    rwa [mem_singleton.mp hb]
  | cons a rest ih =>
    intro last c hc hsorted b hb
    rw [mergeFrom] at hb
    split at hb
    · have hjoin : v.Before c (join last a) := by
        simpa only [View.Before, hj.tag, hj.first] using hc
      refine ih hjoin (pairwise_cons.mpr ⟨?_, hsorted.of_cons.of_cons⟩) b hb
      intro d hd
      exact hj.before_join.mpr ((pairwise_cons.mp hsorted).1 d (mem_cons_of_mem _ hd))
    · rcases mem_cons.mp hb with rfl | hb
      · exact hc
      · have hca : v.Before c a := hc.trans ((pairwise_cons.mp hsorted).1 a mem_cons_self)
        exact ih hca hsorted.of_cons b hb

/-- What one pass of the merge takes over from the list it is at: sorted, nonempty, apart. -/
theorem join_step {last a : α} {rest} (hsorted : (last :: a :: rest).Pairwise v.Before)
    (hnonempty : ∀ b ∈ last :: a :: rest, v.Nonempty b) (hjoins : joins last a = true) :
    (join last a :: rest).Pairwise v.Before ∧ (∀ b ∈ join last a :: rest, v.Nonempty b) ∧ v.tag last = v.tag a ∧
      ∀ n, v.Covers (join last a) n ↔ v.Covers last n ∨ v.Covers a n := by
  have hlast := hnonempty last mem_cons_self
  have ha := hnonempty a (mem_cons_of_mem _ mem_cons_self)
  obtain ⟨htag, htouches⟩ := (hj.joins_iff hlast ha).mp hjoins
  have hbefore := (pairwise_cons.mp hsorted).1
  refine ⟨pairwise_cons.mpr ⟨?_, hsorted.of_cons.of_cons⟩, ?_, htag, ?_⟩
  · exact fun b hb => hj.before_join.mpr (hbefore b (mem_cons_of_mem _ hb))
  · intro b hb
    rcases mem_cons.mp hb with rfl | hb
    · exact hj.nonempty_join hlast
    · exact hnonempty b (mem_cons_of_mem _ (mem_cons_of_mem _ hb))
  · exact hj.covers_join hlast ha ((hbefore a mem_cons_self).first_le htag) htouches

/-- **Merging keeps what is held.** -/
theorem held_mergeFrom (rest : List α) :
    ∀ {last : α}, (last :: rest).Pairwise v.Before → (∀ a ∈ last :: rest, v.Nonempty a) →
      ∀ t n, v.Held (mergeFrom joins join last rest) t n ↔ v.Held (last :: rest) t n := by
  induction rest with
  | nil => exact fun _ _ _ _ => Iff.rfl
  | cons a rest ih =>
    intro last hsorted hnonempty t n
    rw [mergeFrom]
    split
    · next hjoins =>
      obtain ⟨hsorted', hnonempty', htag, hcovers⟩ := hj.join_step hsorted hnonempty hjoins
      rw [ih hsorted' hnonempty', View.held_cons, View.held_cons, View.held_cons, hj.tag, hcovers, ← htag, and_or_left,
        or_assoc]
    · rw [View.held_cons, ih hsorted.of_cons (fun b hb => hnonempty b (mem_cons_of_mem _ hb)), ← View.held_cons]

/-- **Merging keeps apart what was apart.** -/
theorem apart_mergeFrom (rest : List α) :
    ∀ {last : α}, (last :: rest).Pairwise v.Before → (∀ a ∈ last :: rest, v.Nonempty a) →
      (last :: rest).Pairwise (v.Apart related) → (mergeFrom joins join last rest).Pairwise (v.Apart related) := by
  induction rest with
  | nil => exact fun _ _ h => h
  | cons a rest ih =>
    intro last hsorted hnonempty hapart
    rw [mergeFrom]
    split
    · next hjoins =>
      obtain ⟨hsorted', hnonempty', htag, hcovers⟩ := hj.join_step hsorted hnonempty hjoins
      refine ih hsorted' hnonempty' (pairwise_cons.mpr ⟨?_, hapart.of_cons.of_cons⟩)
      -- The joined span covers what one of the two covered, and both were apart from the rest.
      intro b hb hrelated hmeets
      rw [hj.tag] at hrelated
      have hb' := hnonempty' b (mem_cons_of_mem _ hb)
      obtain ⟨n, hn, hbn⟩ := hmeets.exists_covers (hnonempty' _ mem_cons_self) hb'
      rcases (hcovers n).mp hn with hn | hn
      · exact (pairwise_cons.mp hapart).1 b (mem_cons_of_mem _ hb) hrelated (hn.meets hbn)
      · exact (pairwise_cons.mp hapart.of_cons).1 b hb (htag ▸ hrelated) (hn.meets hbn)
    · have hnonempty' : ∀ b ∈ a :: rest, v.Nonempty b := fun b hb => hnonempty b (mem_cons_of_mem _ hb)
      refine pairwise_cons.mpr ⟨?_, ih hsorted.of_cons hnonempty' hapart.of_cons⟩
      exact View.apart_of_held (hnonempty last mem_cons_self) (hj.nonempty_mergeFrom rest hnonempty')
        (fun t n => (hj.held_mergeFrom rest hsorted.of_cons hnonempty' t n).mp) (pairwise_cons.mp hapart).1

/-- **After merging no two spans of one tag touch.** -/
theorem separate_mergeFrom (rest : List α) :
    ∀ {last : α}, (last :: rest).Pairwise v.Before → (∀ a ∈ last :: rest, v.Nonempty a) →
      (mergeFrom joins join last rest).Pairwise v.Separate := by
  induction rest with
  | nil => exact fun _ _ => pairwise_singleton _ _
  | cons a rest ih =>
    intro last hsorted hnonempty
    rw [mergeFrom]
    split
    · next hjoins =>
      obtain ⟨hsorted', hnonempty', _, _⟩ := hj.join_step hsorted hnonempty hjoins
      exact ih hsorted' hnonempty'
    · next hjoins =>
      have hnonempty' : ∀ b ∈ a :: rest, v.Nonempty b := fun b hb => hnonempty b (mem_cons_of_mem _ hb)
      refine pairwise_cons.mpr ⟨?_, ih hsorted.of_cons hnonempty'⟩
      intro b hb
      have hlast := hnonempty last mem_cons_self
      have ha := hnonempty' a mem_cons_self
      have hseparate : v.Separate last a := fun htag htouches => hjoins ((hj.joins_iff hlast ha).mpr ⟨htag, htouches⟩)
      have hbefore : v.Before last a := (pairwise_cons.mp hsorted).1 a mem_cons_self
      by_cases hba : b = a
      · exact hba ▸ hseparate
      · have hab : v.Before a b := hj.before_mergeFrom rest (.inr ⟨rfl, Nat.le_refl _⟩) hsorted.of_cons b hb
        exact hseparate.before ha hbefore hab

variable {l : List α}

section

variable (hsorted : l.Pairwise v.Before) (hnonempty : ∀ a ∈ l, v.Nonempty a)

include hsorted hnonempty

theorem held_mergeRuns (t : τ) (n : Nat) : v.Held (mergeRuns joins join l) t n ↔ v.Held l t n := by
  cases l with
  | nil => exact Iff.rfl
  | cons a rest => exact hj.held_mergeFrom rest hsorted hnonempty t n

theorem apart_mergeRuns
    (hapart : l.Pairwise (v.Apart related)) : (mergeRuns joins join l).Pairwise (v.Apart related) := by
  cases l with
  | nil => exact List.Pairwise.nil
  | cons a rest => exact hj.apart_mergeFrom rest hsorted hnonempty hapart

theorem separate_mergeRuns : (mergeRuns joins join l).Pairwise v.Separate := by
  cases l with
  | nil => exact List.Pairwise.nil
  | cons a rest => exact hj.separate_mergeFrom rest hsorted hnonempty

end

end Joining

end Merging

end Spans
