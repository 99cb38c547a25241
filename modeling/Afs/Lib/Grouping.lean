import Mathlib.Data.List.Perm.Basic
import Mathlib.Data.List.Perm.Lattice

/-!
# `Lib.Grouping` — items put into groups one after the other

Each item joins the first group whose first member it belongs with, or opens a group of its own. Nothing is lost or
duplicated (`flatten_group`), and in every group all members belong with the first one.
-/

namespace Grouping

variable {α : Type}

/-- Puts an item into the first group that it belongs to. -/
def place (same : α → α → Bool) (item : α) : List (List α) → List (List α)
  | [] => [[item]]
  | [] :: rest => [] :: place same item rest
  | (first :: members) :: rest =>
    if same first item then (first :: members ++ [item]) :: rest else (first :: members) :: place same item rest

def group (same : α → α → Bool) (items : List α) : List (List α) :=
  items.foldl (fun groups item => place same item groups) []

variable {same : α → α → Bool}

theorem flatten_place (item : α) (groups : List (List α)) :
    (place same item groups).flatten.Perm (groups.flatten ++ [item]) := by
  induction groups with
  | nil => exact .refl _
  | cons members rest ih =>
    cases members with
    | nil => exact ih
    | cons =>
      unfold place
      split
      · simp only [List.flatten_cons, List.append_assoc]
        exact List.Perm.append_left _ List.perm_append_comm
      · simp only [List.flatten_cons, List.append_assoc]
        exact List.Perm.append_left _ ih

/-- **The groups have the items, each as often as the list.** -/
theorem flatten_group (same : α → α → Bool) (items : List α) : (group same items).flatten.Perm items := by
  have hfold : ∀ groups : List (List α), (items.foldl (fun groups item => place same item groups) groups).flatten.Perm
      (groups.flatten ++ items) := by
    induction items with
    | nil => simp
    | cons item items ih =>
      intro groups
      apply (ih _).trans
      rw [show groups.flatten ++ item :: items = groups.flatten ++ [item] ++ items by simp]
      exact List.Perm.append_right _ (flatten_place item groups)
  exact hfold []

/-- The first member of a group, with which all the others belong. -/
def Headed (same : α → α → Bool) (members : List α) : Prop :=
  ∃ first rest, members = first :: rest ∧ ∀ member ∈ rest, same first member = true

theorem headed_place {item : α} {groups} (h : ∀ members ∈ groups, Headed same members) :
    ∀ members ∈ place same item groups, Headed same members := by
  induction groups with
  | nil =>
    intro members hmembers
    rw [place, List.mem_singleton] at hmembers
    exact ⟨item, [], hmembers, nofun⟩
  | cons members rest ih =>
    obtain ⟨hfirst, hrest⟩ := List.forall_mem_cons.mp h
    obtain ⟨first, others, rfl, hothers⟩ := hfirst
    unfold place
    split
    · next hsame =>
      refine List.forall_mem_cons.mpr ⟨⟨first, others ++ [item], rfl, ?_⟩, hrest⟩
      intro member hmember
      rcases List.mem_append.mp hmember with hmember | hmember
      · exact hothers member hmember
      · rwa [List.mem_singleton.mp hmember]
    · exact List.forall_mem_cons.mpr ⟨⟨first, others, rfl, hothers⟩, ih hrest⟩

theorem headed_group (same : α → α → Bool) (items : List α) : ∀ members ∈ group same items, Headed same members := by
  have hfold : ∀ groups : List (List α), (∀ members ∈ groups, Headed same members) →
      ∀ members ∈ items.foldl (fun groups item => place same item groups) groups, Headed same members := by
    induction items with
    | nil => exact fun _ h => h
    | cons item items ih => exact fun groups h => ih _ (headed_place h)
  exact hfold [] nofun

end Grouping
