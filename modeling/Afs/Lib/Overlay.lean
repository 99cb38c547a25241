import Mathlib.Data.List.Basic
import Mathlib.Data.List.Pairwise

/-!
# `Lib.Overlay` — layers over a line of cells

A layer covers the cells from `lo` to before `hi` and gives each of them a value. `top` is what one sees in a cell
when the layers of a list lie on each other, the last one on top. `Shows` forgets the order: some layer of the list
gives the cell that value. The two agree where the layers do not contradict each other, which is how a list of layers
may be sorted or cut into pieces without changing what is seen.
-/

namespace Overlay

open List

/-- How the values of a type are read as layers. -/
structure Layers (α β : Type) where
  (lo hi : α → Nat)
  val : α → Nat → β

variable {α β : Type}

namespace Layers

variable (v : Layers α β)

def Covers (a : α) (n : Nat) : Prop := v.lo a ≤ n ∧ n < v.hi a

instance (a : α) (n : Nat) : Decidable (v.Covers a n) := inferInstanceAs (Decidable (_ ∧ _))

/-- What is seen in cell `n` when the layers lie on `bottom`. -/
def top (l : List α) (bottom : β) (n : Nat) : β := l.foldl (fun b a => if v.Covers a n then v.val a n else b) bottom

/-- Some layer gives cell `n` the value `b`. -/
def Shows (l : List α) (n : Nat) (b : β) : Prop := ∃ a ∈ l, v.Covers a n ∧ v.val a n = b

/-- No layer covers cell `n`. -/
def Bare (l : List α) (n : Nat) : Prop := ∀ a ∈ l, ¬ v.Covers a n

/-- The layers of a list follow each other. -/
def Follows (a b : α) : Prop := v.hi a ≤ v.lo b

variable {v} {l l' : List α} {bottom b b' : β} {n : Nat} {a : α}

theorem top_append : v.top (l ++ l') bottom n = v.top l' (v.top l bottom n) n := foldl_append

theorem top_cons : v.top (a :: l) bottom n = v.top l (if v.Covers a n then v.val a n else bottom) n := rfl

theorem top_of_bare (h : v.Bare l n) : v.top l bottom n = bottom := by
  induction l with
  | nil => rfl
  | cons a l ih =>
    rw [top_cons, if_neg (h a mem_cons_self)]
    exact ih fun b hb => h b (mem_cons_of_mem _ hb)

/-- The last layer that covers a cell is what one sees there. -/
theorem top_of_last (h : v.Covers a n) (hlast : v.Bare l' n) : v.top (l ++ a :: l') bottom n = v.val a n := by
  rw [top_append, top_cons, if_pos h, top_of_bare hlast]

/-- Where two bottoms are seen there is no layer. -/
theorem bare_of_top (hne : b ≠ b') (h : v.top l b n = b) (h' : v.top l b' n = b') : v.Bare l n := by
  induction l with
  | nil => exact forall_mem_nil _
  | cons a l ih =>
    rw [top_cons] at h h'
    by_cases hcovers : v.Covers a n
    · rw [if_pos hcovers] at h h'
      exact absurd (h.symm.trans h') hne
    · rw [if_neg hcovers] at h h'
      exact forall_mem_cons.mpr ⟨hcovers, ih h h'⟩

/-- Layers that do not contradict each other in a cell show there what they all give. -/
theorem top_of_shows (hunique : ∀ b', v.Shows l n b' → b' = b) (h : v.Shows l n b) : v.top l bottom n = b := by
  induction l generalizing bottom with
  | nil => obtain ⟨a, ha, _⟩ := h; cases ha
  | cons a l ih =>
    rw [top_cons]
    have hunique' : ∀ b', v.Shows l n b' → b' = b := fun b' ⟨c, hc, hcovers⟩ =>
      hunique b' ⟨c, mem_cons_of_mem _ hc, hcovers⟩
    by_cases hl : ∃ b', v.Shows l n b'
    · obtain ⟨b', hb'⟩ := hl
      exact ih hunique' (hunique' b' hb' ▸ hb')
    · rw [top_of_bare fun c hc hcovers => hl ⟨_, c, hc, hcovers, rfl⟩]
      obtain ⟨c, hc, hcovers, hval⟩ := h
      rcases mem_cons.mp hc with rfl | hc
      · rw [if_pos hcovers, hval]
      · exact absurd ⟨_, c, hc, hcovers, rfl⟩ hl

/-- Either no layer covers a cell, or it shows something there. -/
theorem bare_or_shows (l : List α) (n : Nat) : v.Bare l n ∨ ∃ b, v.Shows l n b := by
  by_cases h : ∃ a ∈ l, v.Covers a n
  · obtain ⟨a, ha, hcovers⟩ := h
    exact .inr ⟨_, a, ha, hcovers, rfl⟩
  · exact .inl fun a ha hcovers => h ⟨a, ha, hcovers⟩

theorem Bare.not_shows (h : v.Bare l n) : ¬ v.Shows l n b := fun ⟨a, ha, hcovers, _⟩ => h a ha hcovers

theorem shows_append : v.Shows (l ++ l') n b ↔ v.Shows l n b ∨ v.Shows l' n b := by
  simp only [Shows, mem_append, or_and_right, exists_or]

theorem shows_cons : v.Shows (a :: l) n b ↔ (v.Covers a n ∧ v.val a n = b) ∨ v.Shows l n b := by
  simp [Shows]

theorem shows_perm (h : l.Perm l') : v.Shows l n b ↔ v.Shows l' n b := by
  simp only [Shows, h.mem_iff]

/-- Layers that follow each other do not contradict each other. -/
theorem shows_unique (hfollows : l.Pairwise v.Follows) (h : v.Shows l n b) (h' : v.Shows l n b') : b = b' := by
  induction l with
  | nil => obtain ⟨a, ha, _⟩ := h; cases ha
  | cons a l ih =>
    -- A cell of the first layer lies before all others.
    have hfirst : v.Covers a n → v.Bare l n := by
      intro hcovers c hc hcovers'
      have hle : v.hi a ≤ v.lo c := (pairwise_cons.mp hfollows).1 c hc
      exact absurd (Nat.lt_of_lt_of_le hcovers.2 hle) (Nat.not_lt.mpr hcovers'.1)
    rw [shows_cons] at h h'
    rcases h with ⟨hcovers, rfl⟩ | h
    · rcases h' with ⟨_, rfl⟩ | h'
      · rfl
      · exact absurd h' (hfirst hcovers).not_shows
    · rcases h' with ⟨hcovers, rfl⟩ | h'
      · exact absurd h (hfirst hcovers).not_shows
      · exact ih hfollows.of_cons h h'

/-- Nonempty layers that lie apart follow each other once they are sorted by where they begin. -/
theorem follows_of_sorted (hsorted : l.Pairwise fun a b => v.lo a ≤ v.lo b)
    (hapart : l.Pairwise fun a b => v.Follows a b ∨ v.Follows b a) (hnonempty : ∀ a ∈ l, v.lo a < v.hi a) :
    l.Pairwise v.Follows := by
  apply (hsorted.and hapart).imp_of_mem
  rintro a b ha hb ⟨hle, hab | hba⟩
  · exact hab
  · have := hnonempty b hb
    have hba' : v.hi b ≤ v.lo a := hba
    omega

theorem top_eq_of_shows (hfollows : l.Pairwise v.Follows) (h : v.Shows l n b) : v.top l bottom n = b :=
  top_of_shows (fun _ h' => shows_unique hfollows h' h) h

/-- Lists of layers that follow each other and show the same look the same. -/
theorem top_congr (hl : l.Pairwise v.Follows) (hl' : l'.Pairwise v.Follows)
    (h : ∀ b, v.Shows l n b ↔ v.Shows l' n b) : v.top l bottom n = v.top l' bottom n := by
  rcases bare_or_shows l n with hbare | ⟨b, hb⟩
  · rw [top_of_bare hbare, top_of_bare]
    exact fun a ha hcovers => hbare.not_shows ((h _).mpr ⟨a, ha, hcovers, rfl⟩)
  · rw [top_eq_of_shows hl hb, top_eq_of_shows hl' ((h b).mp hb)]

end Layers

/-! ## Cutting a range out of layers -/

/-- `pieces` are what is left of `a` outside of the cells from `lo` to before `hi`. -/
structure CutOf (v : Layers α β) (lo hi : Nat) (a : α) (pieces : List α) : Prop where
  covers : ∀ n, (∃ p ∈ pieces, v.Covers p n) ↔ v.Covers a n ∧ ¬ (lo ≤ n ∧ n < hi)
  val : ∀ p ∈ pieces, ∀ n, v.Covers p n → v.val p n = v.val a n
  lo_le : ∀ p ∈ pieces, v.lo a ≤ v.lo p
  hi_le : ∀ p ∈ pieces, v.hi p ≤ v.hi a
  nonempty : v.lo a < v.hi a → ∀ p ∈ pieces, v.lo p < v.hi p
  follows : pieces.Pairwise v.Follows

/-- `l` is the part of `a` from cell `lo` to before `hi`, if there is one. -/
def PartOf (v : Layers α β) (a : α) (lo hi : Nat) (l : List α) : Prop :=
  (l = [] ∧ hi ≤ lo) ∨
    lo < hi ∧ ∃ p, l = [p] ∧ v.lo p = lo ∧ v.hi p = hi ∧ ∀ n, v.Covers p n → v.val p n = v.val a n

namespace PartOf

variable {v : Layers α β} {a p : α} {lo hi n : Nat} {l : List α}

section

variable (h : PartOf v a lo hi l)

include h

theorem covers : (∃ p ∈ l, v.Covers p n) ↔ lo ≤ n ∧ n < hi := by
  rcases h with ⟨rfl, hle⟩ | ⟨_, p, rfl, hlo, hhi, _⟩
  · simp only [not_mem_nil, false_and, exists_false, false_iff]
    omega
  · simp [Layers.Covers, hlo, hhi]

theorem bounds (hp : p ∈ l) : v.lo p = lo ∧ v.hi p = hi := by
  rcases h with ⟨rfl, _⟩ | ⟨_, q, rfl, hlo, hhi, _⟩
  · cases hp
  · rw [mem_singleton.mp hp]
    exact ⟨hlo, hhi⟩

theorem val (hp : p ∈ l) (hcovers : v.Covers p n) : v.val p n = v.val a n := by
  rcases h with ⟨rfl, _⟩ | ⟨_, q, rfl, _, _, hval⟩
  · cases hp
  · rw [mem_singleton.mp hp] at hcovers ⊢
    exact hval n hcovers

theorem nonempty (hp : p ∈ l) : v.lo p < v.hi p := by
  rcases h with ⟨rfl, _⟩ | ⟨hlt, q, rfl, hlo, hhi, _⟩
  · cases hp
  · rw [mem_singleton.mp hp, hlo, hhi]
    exact hlt

theorem follows : l.Pairwise v.Follows := by
  rcases h with ⟨rfl, _⟩ | ⟨_, q, rfl, _⟩
  · exact List.Pairwise.nil
  · exact pairwise_singleton _ _

end

end PartOf

namespace CutOf

variable {v : Layers α β} {lo hi n : Nat} {b : β} {l : List α} {pss : List (List α)}

/-- A layer that lies outside of the cells stays. -/
theorem self {a : α} (h : hi ≤ v.lo a ∨ v.hi a ≤ lo) : CutOf v lo hi a [a] where
  covers := by
    intro n
    simp only [mem_singleton, exists_eq_left, Layers.Covers]
    omega
  val := fun p hp n _ => by rw [mem_singleton.mp hp]
  lo_le := fun p hp => Nat.le_of_eq (by rw [mem_singleton.mp hp])
  hi_le := fun p hp => Nat.le_of_eq (by rw [mem_singleton.mp hp])
  nonempty := fun h p hp => by rwa [mem_singleton.mp hp]
  follows := pairwise_singleton _ _

/-- One that meets them leaves a part before and a part after them. -/
theorem of_parts {a : α} {left right} (hle : lo ≤ hi) (hlo : v.lo a < hi) (hhi : lo < v.hi a)
    (hleft : PartOf v a (v.lo a) lo left) (hright : PartOf v a hi (v.hi a) right) :
    CutOf v lo hi a (left ++ right) where
  covers := by
    intro n
    have hsplit : (∃ p ∈ left ++ right, v.Covers p n) ↔ (∃ p ∈ left, v.Covers p n) ∨ ∃ p ∈ right, v.Covers p n := by
      simp only [mem_append, or_and_right, exists_or]
    rw [hsplit, hleft.covers, hright.covers, Layers.Covers]
    omega
  val := by
    intro p hp n hcovers
    rcases mem_append.mp hp with hp | hp
    · exact hleft.val hp hcovers
    · exact hright.val hp hcovers
  lo_le := by
    intro p hp
    rcases mem_append.mp hp with hp | hp
    · exact Nat.le_of_eq (hleft.bounds hp).1.symm
    · rw [(hright.bounds hp).1]
      exact Nat.le_of_lt hlo
  hi_le := by
    intro p hp
    rcases mem_append.mp hp with hp | hp
    · rw [(hleft.bounds hp).2]
      exact Nat.le_of_lt hhi
    · exact Nat.le_of_eq (hright.bounds hp).2
  nonempty := by
    intro _ p hp
    rcases mem_append.mp hp with hp | hp
    · exact hleft.nonempty hp
    · exact hright.nonempty hp
  follows := by
    refine pairwise_append.mpr ⟨hleft.follows, hright.follows, fun p hp q hq => ?_⟩
    rw [Layers.Follows, (hleft.bounds hp).2, (hright.bounds hq).1]
    exact hle

theorem shows_flatten (h : List.Forall₂ (CutOf v lo hi) l pss) :
    v.Shows pss.flatten n b ↔ v.Shows l n b ∧ ¬ (lo ≤ n ∧ n < hi) := by
  induction h with
  | nil => simp [Layers.Shows]
  | @cons a ps l pss hcut _ ih =>
    rw [flatten_cons, Layers.shows_append, ih, Layers.shows_cons]
    have hpieces : v.Shows ps n b ↔ (v.Covers a n ∧ v.val a n = b) ∧ ¬ (lo ≤ n ∧ n < hi) := by
      constructor
      · rintro ⟨p, hp, hcovers, hval⟩
        obtain ⟨hcovers', hout⟩ := (hcut.covers n).mp ⟨p, hp, hcovers⟩
        exact ⟨⟨hcovers', by rw [← hcut.val p hp n hcovers, hval]⟩, hout⟩
      · rintro ⟨⟨hcovers, hval⟩, hout⟩
        obtain ⟨p, hp, hcovers'⟩ := (hcut.covers n).mpr ⟨hcovers, hout⟩
        exact ⟨p, hp, hcovers', by rw [hcut.val p hp n hcovers', hval]⟩
    rw [hpieces, or_and_right]

/-- Where a piece comes from. -/
theorem exists_of_mem_flatten (h : List.Forall₂ (CutOf v lo hi) l pss) {p : α} (hp : p ∈ pss.flatten) :
    ∃ a ∈ l, v.lo a ≤ v.lo p ∧ v.hi p ≤ v.hi a ∧ (v.lo a < v.hi a → v.lo p < v.hi p) := by
  induction h with
  | nil => cases hp
  | @cons a ps l pss hcut _ ih =>
    rw [flatten_cons, mem_append] at hp
    rcases hp with hp | hp
    · exact ⟨a, mem_cons_self, hcut.lo_le p hp, hcut.hi_le p hp, fun hlt => hcut.nonempty hlt p hp⟩
    · obtain ⟨c, hc, hbounds⟩ := ih hp
      exact ⟨c, mem_cons_of_mem _ hc, hbounds⟩

theorem follows_flatten (h : List.Forall₂ (CutOf v lo hi) l pss) (hfollows : l.Pairwise v.Follows) :
    pss.flatten.Pairwise v.Follows := by
  induction h with
  | nil => exact List.Pairwise.nil
  | @cons a ps l pss hcut hrest ih =>
    rw [flatten_cons, pairwise_append]
    refine ⟨hcut.follows, ih hfollows.of_cons, ?_⟩
    intro p hp q hq
    obtain ⟨c, hc, hlo, _, _⟩ := exists_of_mem_flatten hrest hq
    have hac : v.hi a ≤ v.lo c := (pairwise_cons.mp hfollows).1 c hc
    exact Nat.le_trans (hcut.hi_le p hp) (Nat.le_trans hac hlo)

end CutOf

/-! ## Writing into a list -/

/-- Replaces the values from `start` on by those of `piece`. -/
def patch (out : List β) (start : Nat) (piece : List β) : List β :=
  out.take start ++ piece ++ out.drop (start + piece.length)

section Patch

variable {out piece : List β} {start : Nat}

theorem length_patch (h : start + piece.length ≤ out.length) : (patch out start piece).length = out.length := by
  simp only [patch, length_append, length_take, length_drop]
  omega

theorem getElem?_patch (h : start + piece.length ≤ out.length) (i : Nat) :
    (patch out start piece)[i]? =
      if start ≤ i ∧ i < start + piece.length then piece[i - start]? else out[i]? := by
  have htake : (out.take start).length = start := by rw [length_take]; omega
  rw [patch, append_assoc]
  by_cases hi : i < start
  · rw [getElem?_append_left (by omega), if_neg (by omega), getElem?_take_of_lt hi]
  · rw [getElem?_append_right (by omega), htake]
    by_cases hin : i < start + piece.length
    · rw [getElem?_append_left (by omega), if_pos ⟨by omega, hin⟩]
    · rw [getElem?_append_right (by omega), if_neg (by omega), getElem?_drop]
      congr 1
      omega

/-- Writing the part of a layer that lies in a buffer lays the layer over the buffer; `offset` is the cell that the
    buffer begins with. -/
theorem getElem?_patch_layer {v : Layers α β} {a : α} {offset lo hi : Nat} (hlo : lo = max offset (v.lo a))
    (hhi : hi = min (offset + out.length) (v.hi a)) (hlt : lo < hi) (hlength : piece.length = hi - lo)
    (hpiece : ∀ n, lo ≤ n → n < hi → piece[n - lo]? = some (v.val a n)) {i : Nat} {b : β} (hb : out[i]? = some b) :
    (patch out (lo - offset) piece)[i]? = some (if v.Covers a (offset + i) then v.val a (offset + i) else b) := by
  have hi' : i < out.length := (List.getElem?_eq_some_iff.mp hb).1
  rw [getElem?_patch (by omega)]
  by_cases hcovers : v.Covers a (offset + i)
  · have hbounds := hcovers
    rw [Layers.Covers] at hbounds
    rw [if_pos (by omega), if_pos hcovers, ← hpiece (offset + i) (by omega) (by omega)]
    congr 1
    omega
  · have hbounds := hcovers
    rw [Layers.Covers] at hbounds
    rw [if_neg (by omega), if_neg hcovers, hb]

end Patch

end Overlay
