import Mathlib.Data.List.AList
import Mathlib.Data.List.Sort

/-!
# `Lib.Pairs` — finite maps as lists of pairs

A map is written out as the list of its pairs in key order and read back one pair at a time, where every pair is
checked and a key may occur once. What is accepted passed the check (`of_insertPairs`), and what a map is written out
as is accepted and gives the map back (`insertPairs_sortedPairs`).
-/

namespace Pairs

open List

variable {α β ε : Type} [DecidableEq α]

/-- Keeps the pairs that pass a test. -/
def retain (keep : α → β → Bool) (map : AList (fun _ : α => β)) : AList (fun _ : α => β) where
  entries := map.entries.filter fun entry => keep entry.1 entry.2
  nodupKeys := map.nodupKeys.sublist List.filter_sublist

variable {key : α}

theorem lookup_retain {keep map} {value : β} :
    (retain keep map).lookup key = some value ↔ map.lookup key = some value ∧ keep key value = true := by
  rw [← Option.mem_def, AList.mem_lookup_iff, ← Option.mem_def, AList.mem_lookup_iff, retain, mem_filter]

omit [DecidableEq α] in
theorem length_keys_retain_le (keep : α → β → Bool) (map : AList (fun _ : α => β)) :
    (retain keep map).keys.length ≤ map.keys.length := by
  show (List.map _ _).length ≤ (List.map _ _).length
  rw [List.length_map, List.length_map]
  exact length_filter_le _ _

theorem length_keys_erase {map : AList (fun _ : α => β)} (h : key ∈ map) :
    (map.erase key).keys.length + 1 = map.keys.length := by
  have hpos : 0 < map.keys.length := length_pos_of_mem h
  rw [AList.keys_erase, length_erase_of_mem h]
  omega

theorem length_keys_insert_of_mem {map : AList (fun _ : α => β)} (h : key ∈ map) (value : β) :
    (map.insert key value).keys.length = map.keys.length := by
  have hpos : 0 < map.keys.length := length_pos_of_mem h
  rw [AList.keys_insert, length_cons, length_erase_of_mem h]
  omega

theorem length_keys_insert_le (map : AList (fun _ : α => β)) (key : α) (value : β) :
    (map.insert key value).keys.length ≤ map.keys.length + 1 := by
  rw [AList.keys_insert, length_cons]
  exact Nat.succ_le_succ (length_erase_le)

/-- Changes every value of a map. -/
def mapValues (f : β → β) (map : AList (fun _ : α => β)) : AList (fun _ : α => β) where
  entries := map.entries.map fun entry => ⟨entry.1, f entry.2⟩
  nodupKeys := by
    rw [List.NodupKeys, List.keys, List.map_map]
    exact map.keys_nodup

/-- Maps with the same values under every key have the same entries, in some order. -/
theorem perm_of_lookup {map map' : AList (fun _ : α => β)} (h : ∀ key, map'.lookup key = map.lookup key) :
    map'.entries.Perm map.entries :=
  lookup_ext map'.nodupKeys map.nodupKeys fun key value => by
    show value ∈ map'.lookup key ↔ value ∈ map.lookup key
    rw [h key]

/-- Sorting forgets the order, if no two elements are of the same rank. -/
theorem insertionSort_eq_of_perm {γ : Type} {r : γ → γ → Prop} [DecidableRel r] [Std.Total r] [IsTrans γ r]
    {l l' : List γ} (hperm : l'.Perm l) (hrank : ∀ a ∈ l, ∀ b ∈ l, r a b → r b a → a = b) :
    l'.insertionSort r = l.insertionSort r := by
  refine List.Perm.eq_of_pairwise ?_ (pairwise_insertionSort r l') (pairwise_insertionSort r l) ?_
  · intro a b ha hb
    rw [mem_insertionSort] at ha hb
    exact hrank a (hperm.mem_iff.mp ha) b hb
  · exact (perm_insertionSort r l').trans (hperm.trans (perm_insertionSort r l).symm)

/-- The pairs of a map in the order of the keys. -/
def sortedPairs [Ord α] (map : AList (fun _ : α => β)) : List (α × β) :=
  (map.entries.map fun entry => (entry.1, entry.2)).mergeSort fun a b => (compare a.1 b.1).isLE

/-- Adds pairs to a map. Every pair has to pass the check, and its key has to be new. -/
def insertPairs (check : α → β → Except ε Unit) (duplicate : ε) :
    AList (fun _ : α => β) → List (α × β) → Except ε (AList (fun _ : α => β))
  | map, [] => .ok map
  | map, (key, value) :: rest =>
    match check key value with
    | .error e => .error e
    | .ok () =>
      if (map.lookup key).isSome then .error duplicate
      else insertPairs check duplicate (map.insert key value) rest

variable {check : α → β → Except ε Unit} {duplicate : ε} {map map' : AList (fun _ : α => β)} {pairs : List (α × β)}

/-- What an accepted list leaves in the map was there before or has passed the check. -/
theorem of_insertPairs (h : insertPairs check duplicate map pairs = .ok map') {value : β}
    (hlookup : map'.lookup key = some value) : map.lookup key = some value ∨ check key value = .ok () := by
  induction pairs generalizing map with
  | nil =>
    cases h
    exact .inl hlookup
  | cons pair rest ih =>
    obtain ⟨key', value'⟩ := pair
    rw [insertPairs] at h
    split at h
    · cases h
    · next hcheck =>
      split at h
      · cases h
      · rcases ih h with hnew | hchecked
        · by_cases hk : key = key'
          · subst hk
            rw [AList.lookup_insert, Option.some.injEq] at hnew
            exact .inr (hnew ▸ hcheck)
          · rw [AList.lookup_insert_ne hk] at hnew
            exact .inl hnew
        · exact .inr hchecked

variable (map duplicate) in
/-- Pairs of different new keys that pass the check are accepted. -/
theorem insertPairs_of_nodup (hcheck : ∀ pair ∈ pairs, check pair.1 pair.2 = .ok ())
    (hnodup : (pairs.map Prod.fst).Nodup) (hnew : ∀ pair ∈ pairs, map.lookup pair.1 = none) :
    ∃ map', insertPairs check duplicate map pairs = .ok map' ∧
      ∀ key value, map'.lookup key = some value ↔ (key, value) ∈ pairs ∨ map.lookup key = some value := by
  induction pairs generalizing map with
  | nil => exact ⟨map, rfl, by simp⟩
  | cons pair rest ih =>
    obtain ⟨key', value'⟩ := pair
    rw [map_cons, nodup_cons] at hnodup
    have hfirst : map.lookup key' = none := hnew _ (mem_cons_self ..)
    have hrest : ∀ pair ∈ rest, (map.insert key' value').lookup pair.1 = none := by
      intro pair hpair
      have hne : pair.1 ≠ key' := fun he => hnodup.1 (mem_map.mpr ⟨pair, hpair, he⟩)
      rw [AList.lookup_insert_ne hne]
      exact hnew pair (mem_cons_of_mem _ hpair)
    obtain ⟨map', hok, hlookup⟩ :=
      ih _ (fun pair hpair => hcheck pair (mem_cons_of_mem _ hpair)) hnodup.2 hrest
    refine ⟨map', ?_, fun key value => ?_⟩
    · rw [insertPairs, hcheck _ (mem_cons_self ..)]
      simpa [hfirst] using hok
    · rw [hlookup, mem_cons, Prod.mk.injEq]
      by_cases hk : key = key'
      · subst hk
        simp only [AList.lookup_insert, Option.some.injEq, hfirst, reduceCtorEq, or_false, true_and]
        exact ⟨Or.symm ∘ Or.imp_right Eq.symm, Or.symm ∘ Or.imp_left Eq.symm⟩
      · simp [AList.lookup_insert_ne hk, hk]

section Sorted

variable [Ord α]

theorem mem_sortedPairs {value : β} : (key, value) ∈ sortedPairs map ↔ map.lookup key = some value := by
  rw [sortedPairs, mem_mergeSort, ← Option.mem_def, AList.mem_lookup_iff]
  simp only [mem_map, Prod.mk.injEq]
  constructor
  · rintro ⟨entry, hmem, rfl, rfl⟩
    exact hmem
  · exact fun hmem => ⟨⟨key, value⟩, hmem, rfl, rfl⟩

omit [DecidableEq α] in
theorem nodup_sortedPairs : ((sortedPairs map).map Prod.fst).Nodup := by
  have hperm : ((sortedPairs map).map Prod.fst).Perm map.keys := by
    apply ((mergeSort_perm _ _).map Prod.fst).trans
    rw [map_map]
    exact List.Perm.refl _
  exact hperm.nodup_iff.mpr map.nodupKeys

variable (map check duplicate) in
/-- **A map that is written out can be read back**, if its pairs pass the check. -/
theorem insertPairs_sortedPairs (hcheck : ∀ key value, map.lookup key = some value → check key value = .ok ()) :
    ∃ map', insertPairs check duplicate ∅ (sortedPairs map) = .ok map' ∧ ∀ key, map'.lookup key = map.lookup key := by
  obtain ⟨map', hok, hlookup⟩ := insertPairs_of_nodup duplicate ∅
    (fun pair hpair => hcheck pair.1 pair.2 (mem_sortedPairs.mp hpair)) nodup_sortedPairs (by simp)
  refine ⟨map', hok, fun key => Option.ext fun value => ?_⟩
  rw [hlookup, mem_sortedPairs]
  simp

end Sorted

end Pairs
