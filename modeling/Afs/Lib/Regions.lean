import Afs.Lib.Overlay

/-!
# `Lib.Regions` — writes to regions of a buffer

A region is a start and a length. `Writes` is the frame of a computation on a buffer: nothing outside the given regions
has changed. `Holds` says what a region contains. What a region holds survives every computation that only writes
elsewhere (`Holds.keep`).
-/

namespace Regions

open Overlay List

structure Region where
  (start length : Nat)
  deriving DecidableEq

def Region.Contains (region : Region) (i : Nat) : Prop := region.start ≤ i ∧ i < region.start + region.length

/-- The regions have no place in common. -/
def Region.Apart (region other : Region) : Prop := ∀ i, region.Contains i → ¬other.Contains i

theorem Region.Apart.symm {region other : Region} (h : region.Apart other) : other.Apart region :=
  fun i hother hregion => h i hregion hother

variable {β : Type} {regions more : List Region} {region : Region} {out mid out' : List β} {content : Nat → β}

/-- The buffer has changed in these regions at most. -/
structure Writes (regions : List Region) (out out' : List β) : Prop where
  length : out'.length = out.length
  frame : ∀ i, (∀ region ∈ regions, ¬region.Contains i) → out'[i]? = out[i]?

theorem Writes.refl (out : List β) : Writes [] out out := ⟨rfl, fun _ _ => rfl⟩

theorem Writes.trans (h : Writes regions out mid) (h' : Writes more mid out') : Writes (regions ++ more) out out' where
  length := h'.length.trans h.length
  frame := by
    intro i hi
    rw [h'.frame i fun region hregion => hi region (mem_append_right _ hregion)]
    exact h.frame i fun region hregion => hi region (mem_append_left _ hregion)

theorem Writes.mono (h : Writes regions out out') (hmore : regions ⊆ more) : Writes more out out' where
  length := h.length
  frame := fun i hi => h.frame i fun region hregion => hi region (hmore hregion)

theorem Writes.cover (h : Writes regions out out')
    (hcover : ∀ region ∈ regions, ∀ i, region.Contains i → ∃ other ∈ more, other.Contains i) :
    Writes more out out' where
  length := h.length
  frame := by
    intro i hi
    refine h.frame i fun region hregion hcontains => ?_
    obtain ⟨other, hother, hother'⟩ := hcover region hregion i hcontains
    exact hi other hother hother'

/-- The region of the buffer has the content. -/
def Holds (region : Region) (content : Nat → β) (out : List β) : Prop :=
  ∀ k < region.length, out[region.start + k]? = some (content k)

theorem Holds.keep (h : Holds region content out) (hwrites : Writes regions out out')
    (hapart : ∀ other ∈ regions, region.Apart other) : Holds region content out' := by
  intro k hk
  rw [hwrites.frame _ fun other hother => hapart other hother _ ⟨Nat.le_add_right _ _, by omega⟩]
  exact h k hk

theorem Holds.bound (h : Holds region content out) (hpos : 0 < region.length) :
    region.start + region.length ≤ out.length := by
  have hlast := h (region.length - 1) (by omega)
  have := (List.getElem?_eq_some_iff.mp hlast).1
  omega

/-- What a region contains, as a list of its own. -/
def slice (region : Region) (out : List β) : List β := (out.drop region.start).take region.length

theorem length_slice (h : region.start + region.length ≤ out.length) : (slice region out).length = region.length := by
  simp only [slice, length_take, length_drop]
  omega

theorem getElem?_slice {k} (hk : k < region.length) : (slice region out)[k]? = out[region.start + k]? := by
  rw [slice, getElem?_take_of_lt hk, getElem?_drop]

section

variable {piece : List β} (h : region.start + region.length ≤ out.length) (hlength : piece.length = region.length)

include h hlength

/-- Copying a piece to a place changes only that place, which then has the piece. -/
theorem writes_patch : Writes [region] out (patch out region.start piece) where
  length := length_patch (by omega)
  frame := by
    intro i hi
    rw [getElem?_patch (by omega), hlength]
    exact if_neg (hi region (mem_singleton_self _))

theorem holds_patch (hpiece : ∀ k < region.length, piece[k]? = some (content k)) :
    Holds region content (patch out region.start piece) := by
  intro k hk
  rw [getElem?_patch (by omega), if_pos ⟨by omega, by omega⟩, Nat.add_sub_cancel_left]
  exact hpiece k hk

end

section Fold

variable {α : Type} {place : α → Region} {value : α → Nat → β} {write : List β → α → List β} {items : List α}

theorem foldl_writes (hwrite : ∀ item ∈ items, ∀ mid : List β, mid.length = out.length →
    Writes [place item] mid (write mid item)) : Writes (items.map place) out (items.foldl write out) := by
  induction items generalizing out with
  | nil => exact .refl _
  | cons item rest ih =>
    have hwrites := hwrite item mem_cons_self out rfl
    exact hwrites.trans
      (ih fun other hother mid hmid => hwrite other (mem_cons_of_mem _ hother) mid (hmid.trans hwrites.length))

/-- Writes to regions that lie apart, one after the other: each region keeps what was written to it. -/
theorem foldl_holds (hapart : items.Pairwise fun item other => (place item).Apart (place other))
    (hwrite : ∀ item ∈ items, ∀ mid : List β, mid.length = out.length →
      Writes [place item] mid (write mid item) ∧ Holds (place item) (value item) (write mid item)) :
    ∀ item ∈ items, Holds (place item) (value item) (items.foldl write out) := by
  induction items generalizing out with
  | nil => exact nofun
  | cons item rest ih =>
    obtain ⟨hfirst, hrest⟩ := pairwise_cons.mp hapart
    obtain ⟨hwrites, hholds⟩ := hwrite item mem_cons_self out rfl
    have hstep : ∀ other ∈ rest, ∀ mid : List β, mid.length = (write out item).length →
        Writes [place other] mid (write mid other) ∧ Holds (place other) (value other) (write mid other) :=
      fun other hother mid hmid => hwrite other (mem_cons_of_mem _ hother) mid (hmid.trans hwrites.length)
    have hlater := foldl_writes fun other hother mid hmid => (hstep other hother mid hmid).1
    refine forall_mem_cons.mpr ⟨hholds.keep hlater ?_, ih hrest hstep⟩
    intro region hregion
    obtain ⟨other, hother, rfl⟩ := mem_map.mp hregion
    exact hfirst other hother

/-- The regions that were written, and what they hold, determine the buffer. -/
theorem eq_of_holds {last last'} (hwrites : Writes (items.map place) out last)
    (hwrites' : Writes (items.map place) out last') (hholds : ∀ item ∈ items, Holds (place item) (value item) last)
    (hholds' : ∀ item ∈ items, Holds (place item) (value item) last') : last = last' := by
  refine ext_getElem? fun i => ?_
  by_cases hi : ∃ item ∈ items, (place item).Contains i
  · obtain ⟨item, hitem, hstart, hstop⟩ := hi
    have hbyte := hholds item hitem (i - (place item).start) (by omega)
    have hbyte' := hholds' item hitem (i - (place item).start) (by omega)
    rw [Nat.add_sub_cancel' hstart] at hbyte hbyte'
    rw [hbyte, hbyte']
  · have hout : ∀ region ∈ items.map place, ¬region.Contains i := by
      intro region hregion hcontains
      obtain ⟨item, hitem, rfl⟩ := mem_map.mp hregion
      exact hi ⟨item, hitem, hcontains⟩
    rw [hwrites.frame i hout, hwrites'.frame i hout]

end Fold

end Regions
