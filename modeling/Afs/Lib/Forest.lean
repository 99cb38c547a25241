import Mathlib.Data.Set.Card

/-!
# `Lib.Forest` — directory forests with link counts

A forest is a set of named entries that point at nodes. Every entry lies in a parent node; every node has a label
that never changes and a link count that the operations adjust. `Linked` says that the forest is a tree of
directories below one root, with other nodes hanging off it under any number of names, and that the link counts
are what the entries make them: two and one for every subdirectory for a directory, and for another node a count
related by `R` to the number of its names. The operations (`addLeaf`, `addName`, `removeName`, `removeDir`, `move`)
are given as changes of the three functions, with the side conditions under which they keep `Linked`.

Nodes, entry keys and labels are arbitrary types. What a client supplies is a `Shape`: the parent of a key, the
root, which labels are directories, and which labels an entry may point at.
-/

namespace DirTree

open Classical Function

/-- Entries, labels and link counts. -/
structure Forest (κ ν τ : Type) where
  entry : κ → Option ν
  label : ν → Option τ
  links : ν → Nat

/-- How entries and labels of a client's forest are read. -/
structure Shape (κ ν τ : Type) where
  parentOf : κ → ν
  root : ν
  isDir : τ → Prop
  fits : κ → τ → Prop

variable {κ ν τ : Type} {S : Shape κ ν τ} {f : Forest κ ν τ}
variable {n' x d : ν} {e entry entry' : κ → Option ν} {k' old new : κ} {v : Option ν}

/-- The node exists and is a directory. -/
def IsDir (S : Shape κ ν τ) (f : Forest κ ν τ) (n : ν) : Prop := ∃ l, f.label n = some l ∧ S.isDir l

/-- The entries that name a node. -/
def names (f : Forest κ ν τ) (n : ν) : Set κ := {k | f.entry k = some n}

/-- The entries of a directory that name directories. -/
def subdirs (S : Shape κ ν τ) (f : Forest κ ν τ) (d : ν) : Set κ :=
  {k | S.parentOf k = d ∧ ∃ n, f.entry k = some n ∧ IsDir S f n}

/-- No entry lies in the node. -/
def Empty (S : Shape κ ν τ) (f : Forest κ ν τ) (n : ν) : Prop := ∀ k, S.parentOf k = n → f.entry k = none

/-- Following parents from a node leads to the root. -/
inductive Reaches (S : Shape κ ν τ) (entry : κ → Option ν) : ν → Prop
  | root : Reaches S entry S.root
  | step {k : κ} {n : ν} (hk : entry k = some n) (hp : Reaches S entry (S.parentOf k)) : Reaches S entry n

/-- The same without meeting the node `x`. -/
inductive ReachesAvoiding (S : Shape κ ν τ) (entry : κ → Option ν) (x : ν) : ν → Prop
  | root (hx : S.root ≠ x) : ReachesAvoiding S entry x S.root
  | step {k : κ} {n : ν} (hx : n ≠ x) (hk : entry k = some n)
      (hp : ReachesAvoiding S entry x (S.parentOf k)) : ReachesAvoiding S entry x n

/-- The directory a new entry may be put into. -/
def Holds (S : Shape κ ν τ) (f : Forest κ ν τ) (k : κ) : Prop :=
  ∃ l, f.label (S.parentOf k) = some l ∧ S.isDir l ∧ S.fits k l ∧ 0 < f.links (S.parentOf k)

/-- A relation between the link count of a leaf and the number of its names that adding and removing a name
    keep. -/
structure LinkRel (R : Nat → Nat → Prop) : Prop where
  zero : R 0 0
  le : ∀ n c, R n c → c ≤ n
  succ : ∀ n c, R n c → R (n + 1) (c + 1)
  pred : ∀ n c, R n (c + 1) → R (n - 1) c

theorem linkRel_eq : LinkRel (· = ·) := ⟨rfl, by omega, by omega, by omega⟩

theorem linkRel_ge : LinkRel (· ≥ ·) := ⟨Nat.le_refl 0, by omega, by omega, by omega⟩

/-- **A tree of directories with exact link counts.** -/
structure Linked (S : Shape κ ν τ) (R : Nat → Nat → Prop) (f : Forest κ ν τ) : Prop where
  finite : {k | f.entry k ≠ none}.Finite
  holds : ∀ k n, f.entry k = some n → Holds S f k
  target : ∀ k n, f.entry k = some n → ∃ l, f.label n = some l ∧ S.fits k l ∧ 0 < f.links n
  rootIsDir : ∀ l, f.label S.root = some l → S.isDir l
  rootUnnamed : ∀ k, f.entry k ≠ some S.root
  named : ∀ d, IsDir S f d → 0 < f.links d → d ≠ S.root → ∃ k, f.entry k = some d
  unique : ∀ d k k', IsDir S f d → f.entry k = some d → f.entry k' = some d → k = k'
  reaches : ∀ d, IsDir S f d → 0 < f.links d → Reaches S f.entry d
  dirLinks : ∀ d, IsDir S f d → 0 < f.links d → f.links d = 2 + (subdirs S f d).ncard
  leafLinks : ∀ n l, f.label n = some l → ¬S.isDir l → R (f.links n) (names f n).ncard

/-! ## Single changes -/

/-- The entry under a key becomes `v`. -/
noncomputable def setEntry (f : Forest κ ν τ) (k : κ) (v : Option ν) : Forest κ ν τ :=
  { f with entry := update f.entry k v }

/-- A node gets a label and a link count. -/
noncomputable def setNode (f : Forest κ ν τ) (n : ν) (l : τ) (m : Nat) : Forest κ ν τ :=
  { f with label := update f.label n (some l), links := update f.links n m }

/-- A node gets another link count. -/
noncomputable def setLinks (f : Forest κ ν τ) (n : ν) (m : Nat) : Forest κ ν τ :=
  { f with links := update f.links n m }

variable {n : ν} {l : τ}

theorem setNode_of_label (h : f.label n = some l) (m : Nat) : setNode f n l m = setLinks f n m := by
  simp only [setNode, setLinks, ← h, update_eq_self]

theorem setLinks_self (f : Forest κ ν τ) (n : ν) : setLinks f n (f.links n) = f := by
  simp only [setLinks, update_eq_self]

theorem setLinks_links_of_ne (h : n' ≠ n) (m : Nat) : (setLinks f n m).links n' = f.links n' :=
  update_of_ne h _ _

theorem setLinks_comm (h : n ≠ n') (m m' : Nat) :
    setLinks (setLinks f n m) n' m' = setLinks (setLinks f n' m') n m := by
  simp only [setLinks, update_comm h]

/-- Writing back the link count of another node changes nothing. -/
theorem setLinks_links (h : n ≠ n') (m : Nat) : setLinks (setLinks f n m) n' (f.links n') = setLinks f n m := by
  rw [setLinks_comm h, setLinks_self]

/-! ## Counting entries -/

/-- Changing one entry changes a count of entries by what the entry contributes before and after. -/
theorem ncard_update {P : κ → Option ν → Prop} (hnone : ∀ k, ¬P k none) (hfin : {k | e k ≠ none}.Finite) (k₀ : κ)
    (v : Option ν) :
    {k | P k (update e k₀ v k)}.ncard + (if P k₀ (e k₀) then 1 else 0) =
      {k | P k (e k)}.ncard + (if P k₀ v then 1 else 0) := by
  have hfinP : {k | P k (e k)}.Finite := by
    refine hfin.subset fun k hk hn => hnone k ?_
    rw [Set.mem_ofPred_eq, hn] at hk
    exact hk
  -- away from the changed entry both sets are the same
  have hsame : {k | P k (update e k₀ v k)} \ {k₀} = {k | P k (e k)} \ {k₀} := by
    ext k
    by_cases hk : k = k₀
    · simp [hk]
    · simp [hk]
  have hfinB : ({k | P k (e k)} \ {k₀}).Finite := hfinP.subset Set.sdiff_subset
  have hsplit : ∀ A : Set κ, A \ {k₀} = {k | P k (e k)} \ {k₀} →
      A.ncard = ({k | P k (e k)} \ {k₀}).ncard + (if k₀ ∈ A then 1 else 0) := by
    intro A hA
    by_cases hk : k₀ ∈ A
    · have hins : A = insert k₀ (A \ {k₀}) := by simp [Set.insert_eq_of_mem hk]
      rw [hins, hA, Set.ncard_insert_of_notMem (by simp) hfinB]
      simp
    · rw [← Set.sdiff_singleton_eq_self hk, hA]
      simp
  rw [hsplit _ hsame, hsplit _ rfl]
  simp only [Set.mem_ofPred_eq, update_self]
  omega

variable {k : κ}

theorem entry_update_cases (h : update e k v k' = some n) : (k' = k ∧ v = some n) ∨ (k' ≠ k ∧ e k' = some n) := by
  by_cases hk : k' = k
  · subst hk
    rw [update_self] at h
    exact .inl ⟨rfl, h⟩
  · rw [update_of_ne hk] at h
    exact .inr ⟨hk, h⟩

/-- Changing an entry between nothing and one node leaves the names of the others. -/
theorem update_eq_some_iff (hk : e k = none ∨ e k = some n) (hv : v = none ∨ v = some n) (hn : n' ≠ n) :
    update e k v k' = some n' ↔ e k' = some n' := by
  by_cases hkk : k' = k
  · rcases hk with hk | hk <;> rcases hv with hv | hv <;> simp [hkk, hk, hv, Ne.symm hn]
  · rw [update_of_ne hkk]

theorem finite_update (hfin : {k | e k ≠ none}.Finite) (k₀ : κ) (v : Option ν) :
    {k | update e k₀ v k ≠ none}.Finite := by
  refine (hfin.insert k₀).subset fun k hk => ?_
  by_cases hkk : k = k₀
  · exact .inl hkk
  · rw [Set.mem_ofPred_eq, update_of_ne hkk] at hk
    exact .inr hk

/-! ## Paths -/

/-- A path survives when the entries of all its nodes do. -/
theorem Reaches.mono (h : Reaches S entry n) (keep : ν → Prop) (hn : keep n)
    (hkeep : ∀ k m, entry k = some m → keep m → entry' k = some m ∧ keep (S.parentOf k)) : Reaches S entry' n := by
  induction h with
  | root => exact .root
  | step hk hp ih =>
    obtain ⟨hk', hp'⟩ := hkeep _ _ hk hn
    exact .step hk' (ih hp')

/-- An avoiding path survives when the entries of all other nodes do. -/
theorem ReachesAvoiding.mono (h : ReachesAvoiding S entry x n) (keep : ν → Prop) (hn : keep n)
    (hkeep : ∀ k m, m ≠ x → entry k = some m → keep m → entry' k = some m ∧ keep (S.parentOf k)) :
    ReachesAvoiding S entry' x n := by
  induction h with
  | root hx => exact .root hx
  | step hx hk hp ih =>
    obtain ⟨hk', hp'⟩ := hkeep _ _ hx hk hn
    exact .step hx hk' (ih hp')

theorem ReachesAvoiding.reaches (h : ReachesAvoiding S entry x n) : Reaches S entry n := by
  induction h with
  | root hx => exact .root
  | step hx hk hp ih => exact .step hk ih

/-- A path may be followed up to a node that reaches the root in another way. -/
theorem Reaches.reroute (h : Reaches S entry n) (hx : Reaches S entry' x)
    (hkeep : ∀ k m, m ≠ x → entry k = some m → entry' k = some m) : Reaches S entry' n := by
  induction h with
  | root => exact .root
  | @step k m hk hp ih =>
    by_cases hm : m = x
    · exact hm ▸ hx
    · exact .step (hkeep k m hm hk) ih

theorem Reaches.top (h : Reaches S entry n) : n = S.root ∨ ∃ k m, entry k = some m ∧ S.parentOf k = S.root := by
  induction h with
  | root => exact .inl rfl
  | @step k m hk hp ih =>
    rcases ih with hroot | htop
    · exact .inr ⟨k, m, hk, hroot⟩
    · exact .inr htop

/-! ## Operations

Every operation changes the names of one node, and link counts; a new node gets its label with its first name. -/

/-- A new node under a new name; a new directory is one more subdirectory of its parent. -/
noncomputable def addLeaf (S : Shape κ ν τ) (f : Forest κ ν τ) (k : κ) (n : ν) (l : τ) (m : Nat) : Forest κ ν τ where
  entry := update f.entry k (some n)
  label := update f.label n (some l)
  links := update (update f.links (S.parentOf k) (f.links (S.parentOf k) + if S.isDir l then 1 else 0)) n m

section Relink

variable {R : Nat → Nat → Prop} {g : Forest κ ν τ}

theorem isDir_congr (hlabel : g.label = f.label) (d : ν) : IsDir S g d ↔ IsDir S f d := by
  rw [IsDir, IsDir, hlabel]

/-- A second name for a node that is no directory. -/
noncomputable def addName (f : Forest κ ν τ) (k : κ) (n : ν) : Forest κ ν τ where
  entry := update f.entry k (some n)
  label := f.label
  links := update f.links n (f.links n + 1)

/-- The last step of removing a name of a node that is no directory. -/
noncomputable def removeName (f : Forest κ ν τ) (k : κ) (n : ν) : Forest κ ν τ where
  entry := update f.entry k none
  label := f.label
  links := update f.links n (f.links n - 1)

/-- The removal of a directory, one subdirectory less for its parent. -/
noncomputable def removeDir (S : Shape κ ν τ) (f : Forest κ ν τ) (k : κ) (n : ν) : Forest κ ν τ where
  entry := update f.entry k none
  label := f.label
  links := update (update f.links (S.parentOf k) (f.links (S.parentOf k) - 1)) n 0

/-- A node goes to another name; a directory also changes the number of subdirectories of two parents. -/
noncomputable def move (S : Shape κ ν τ) (f : Forest κ ν τ) (old new : κ) (n : ν) : Forest κ ν τ where
  entry := update (update f.entry old none) new (some n)
  label := f.label
  links := if IsDir S f n ∧ S.parentOf old ≠ S.parentOf new then
      update (update f.links (S.parentOf old) (f.links (S.parentOf old) - 1)) (S.parentOf new)
        (f.links (S.parentOf new) + 1)
    else f.links

/-- The entries of `d` that are directories, as a count over any entry function. -/
theorem subdirs_count (hdir : ∀ k' n', f.entry k' = some n' → (IsDir S g n' ↔ IsDir S f n'))
    (hfin : {k | f.entry k ≠ none}.Finite) (hentry : g.entry = update f.entry k v) (d : ν) :
    (subdirs S g d).ncard + (if S.parentOf k = d ∧ ∃ n, f.entry k = some n ∧ IsDir S f n then 1 else 0) =
      (subdirs S f d).ncard + (if S.parentOf k = d ∧ ∃ n, v = some n ∧ IsDir S g n then 1 else 0) := by
  have hcount := ncard_update (P := fun k' v => S.parentOf k' = d ∧ ∃ n, v = some n ∧ IsDir S g n)
    (fun k' hP => by simp at hP) hfin k v
  have hsame : ∀ k', (∃ n, f.entry k' = some n ∧ IsDir S g n) ↔ ∃ n, f.entry k' = some n ∧ IsDir S f n := fun k' =>
    exists_congr fun n => and_congr_right (hdir k' n)
  simp only [hsame] at hcount
  rw [subdirs, hentry]
  convert hcount
  rfl

/-- The names of a node, as a count over any entry function. -/
theorem names_count (hfin : {k | f.entry k ≠ none}.Finite) (hentry : g.entry = update f.entry k v) (n : ν) :
    (names g n).ncard + (if f.entry k = some n then 1 else 0) =
      (names f n).ncard + (if v = some n then 1 else 0) := by
  have hcount := ncard_update (P := fun _ v => v = some n) (fun _ hP => by cases hP) hfin k v
  rw [names, hentry]
  convert hcount
  rfl

theorem Linked.leaf_ne_dir (hl : f.label n = some l) (hleaf : ¬S.isDir l) (hd : IsDir S f d) : n ≠ d := by
  rintro rfl
  obtain ⟨l', hl', hdir⟩ := hd
  rw [hl, Option.some.injEq] at hl'
  exact hleaf (hl' ▸ hdir)

theorem Linked.parent_isDir (h : Linked S R f) (hk : f.entry k' = some n') : IsDir S f (S.parentOf k') := by
  obtain ⟨l, hl, hdir, -⟩ := h.holds k' n' hk
  exact ⟨l, hl, hdir⟩

/-- Only the names of one node change, and link counts of directories. The node is still reached, or nothing lies in
    it. -/
theorem Linked.relink (h : Linked S R f) (hroot : S.root ≠ n) (hlabel : ∀ d, d ≠ n → g.label d = f.label d)
    (hkept : ∀ l, f.label n = some l → g.label n = some l)
    (hsame : ∀ k' n', n' ≠ n → (g.entry k' = some n' ↔ f.entry k' = some n')) (hfinite : {k | g.entry k ≠ none}.Finite)
    (hlinks : ∀ d, d ≠ n → (0 < g.links d ↔ 0 < f.links d) ∧ (¬IsDir S f d → g.links d = f.links d))
    (hnames : ∀ k', g.entry k' = some n → Holds S f k' ∧ ∃ l, g.label n = some l ∧ S.fits k' l ∧ 0 < g.links n)
    (hself : 0 < g.links n ∧ Reaches S g.entry n ∨
      (IsDir S g n → g.links n = 0) ∧ ∀ k' n', f.entry k' = some n' → S.parentOf k' ≠ n)
    (hunique : IsDir S g n → ∀ k₁ k₂, g.entry k₁ = some n → g.entry k₂ = some n → k₁ = k₂)
    (hdirLinks : ∀ d, IsDir S g d → 0 < g.links d → g.links d = 2 + (subdirs S g d).ncard)
    (hleafLinks : ¬IsDir S g n → R (g.links n) (names g n).ncard) : Linked S R g := by
  have hdir (d : ν) (hdn : d ≠ n) : IsDir S g d ↔ IsDir S f d := by rw [IsDir, IsDir, hlabel d hdn]
  have hlive (d : ν) (hdn : d ≠ n) : 0 < g.links d ↔ 0 < f.links d := (hlinks d hdn).1
  have hreach : ∀ d, IsDir S g d → 0 < g.links d → Reaches S g.entry d := by
    intro d hd hpos
    by_cases hdn : d = n
    · subst hdn
      rcases hself with hself | ⟨hdead, -⟩
      · exact hself.2
      · exact absurd (hdead hd) hpos.ne'
    · have hold := h.reaches d ((hdir d hdn).mp hd) ((hlive d hdn).mp hpos)
      -- the old path, up to the node if it passes it
      rcases hself with ⟨-, hself⟩ | ⟨-, hchild⟩
      · exact hold.reroute hself fun k' n' hn' he => (hsame k' n' hn').mpr he
      · exact hold.mono (· ≠ n) hdn fun k' n' he hn' => ⟨(hsame k' n' hn').mpr he, hchild k' n' he⟩
  refine
    { finite := hfinite, holds := ?_, target := ?_, rootIsDir := fun l hl => h.rootIsDir l (hlabel _ hroot ▸ hl),
      rootUnnamed := fun k' he => h.rootUnnamed k' ((hsame k' _ hroot).mp he), named := ?_, unique := ?_,
      reaches := hreach, dirLinks := hdirLinks, leafLinks := ?_ }
  · intro k' n' he
    have hholds : Holds S f k' ∧ (S.parentOf k' = n → 0 < g.links n) := by
      by_cases hnn : n' = n
      · obtain ⟨hholds, l, -, -, hpos⟩ := hnames k' (hnn ▸ he)
        exact ⟨hholds, fun _ => hpos⟩
      · have he' := (hsame k' n' hnn).mp he
        exact ⟨h.holds k' n' he', fun hp => (hself.resolve_right fun hnot => hnot.2 k' n' he' hp).1⟩
    obtain ⟨⟨l, hl, hdir', hfit, hpos⟩, hown⟩ := hholds
    by_cases hp : S.parentOf k' = n
    · exact ⟨l, by rw [hp] at hl ⊢; exact hkept l hl, hdir', hfit, hp ▸ hown hp⟩
    · exact ⟨l, (hlabel _ hp).trans hl, hdir', hfit, (hlive _ hp).mpr hpos⟩
  · intro k' n' he
    by_cases hnn : n' = n
    · subst hnn
      exact (hnames k' he).2
    · obtain ⟨l, hl, hfit, hpos⟩ := h.target k' n' ((hsame k' n' hnn).mp he)
      exact ⟨l, (hlabel n' hnn).trans hl, hfit, (hlive n' hnn).mpr hpos⟩
  · intro d hd hpos hne
    cases hreach d hd hpos with
    | root => exact absurd rfl hne
    | step hk => exact ⟨_, hk⟩
  · intro d k₁ k₂ hd h₁ h₂
    by_cases hdn : d = n
    · subst hdn
      exact hunique hd k₁ k₂ h₁ h₂
    · exact h.unique d k₁ k₂ ((hdir d hdn).mp hd) ((hsame k₁ d hdn).mp h₁) ((hsame k₂ d hdn).mp h₂)
  · intro n' l hl hleaf
    have hnot : ¬IsDir S g n' := fun hd => leaf_ne_dir hl hleaf hd rfl
    by_cases hnn : n' = n
    · subst hnn
      exact hleafLinks hnot
    · have hsamenames : names g n' = names f n' := Set.ext fun k' => hsame k' n' hnn
      rw [hsamenames, (hlinks n' hnn).2 ((hdir n' hnn).not.mp hnot)]
      exact h.leafLinks n' l (hlabel n' hnn ▸ hl) hleaf

/-- Only the names of one node that is no directory change, and its link count. -/
theorem Linked.relinkLeaf (h : Linked S R f) (hl : f.label n = some l) (hleaf : ¬S.isDir l)
    (hlabel : g.label = f.label) (hlinks : ∀ d, d ≠ n → g.links d = f.links d)
    (hsame : ∀ k' n', n' ≠ n → (g.entry k' = some n' ↔ f.entry k' = some n')) (hfinite : {k | g.entry k ≠ none}.Finite)
    (hnames : ∀ k', g.entry k' = some n → Holds S f k' ∧ S.fits k' l ∧ 0 < g.links n)
    (hcount : R (g.links n) (names g n).ncard) : Linked S R g := by
  have hne : ∀ d, IsDir S f d → d ≠ n := fun d hd => (leaf_ne_dir hl hleaf hd).symm
  have hdir := isDir_congr (S := S) hlabel
  have hroot : S.root ≠ n := by
    rintro rfl
    exact hleaf (h.rootIsDir l hl)
  refine h.relink hroot (fun d _ => congrFun hlabel d) (fun l hl => hlabel ▸ hl) hsame hfinite
    (fun d hd => by simp [hlinks d hd]) (fun k' he => ⟨(hnames k' he).1, l, hlabel ▸ hl, (hnames k' he).2⟩)
    (.inr ⟨fun hd => absurd rfl (hne n ((hdir n).mp hd)), fun k' n' he => hne _ (h.parent_isDir he)⟩)
    (fun hd => absurd rfl (hne n ((hdir n).mp hd))) (fun d hd hlive => ?_) fun _ => hcount
  rw [hdir] at hd
  rw [hlinks d (hne d hd)] at hlive ⊢
  have hsubdirs : subdirs S g d = subdirs S f d := by
    ext k'
    refine and_congr_right fun _ => exists_congr fun m => ?_
    rw [hdir]
    exact and_congr_left fun hm => hsame k' m (hne m hm)
  rw [hsubdirs]
  exact h.dirLinks d hd hlive

theorem Linked.nameAdded (hR : LinkRel R) (h : Linked S R f) (hk : f.entry k = none)
    (hp : Holds S f k) (hl : f.label n = some l) (hleaf : ¬S.isDir l) (hfit : S.fits k l) :
    Linked S R (addName f k n) := by
  refine h.relinkLeaf hl hleaf rfl (fun d hd => update_of_ne hd _ _)
    (fun k' n' hn' => update_eq_some_iff (.inl hk) (.inr rfl) hn') (finite_update h.finite k (some n))
    (fun k' he => ?_) ?_
  · refine and_assoc.mp ⟨?_, by simp [addName]⟩
    rcases entry_update_cases he with ⟨rfl, -⟩ | ⟨-, he'⟩
    · exact ⟨hp, hfit⟩
    · obtain ⟨l', hl', hfit', -⟩ := h.target k' n he'
      exact ⟨h.holds k' n he', Option.some.inj (hl'.symm.trans hl) ▸ hfit'⟩
  · have hcount := names_count (f := f) (g := addName f k n) h.finite rfl n
    simp [hk] at hcount
    rw [hcount]
    simpa [addName] using hR.succ _ _ (h.leafLinks n l hl hleaf)

theorem Linked.nameRemoved (hR : LinkRel R) (h : Linked S R f) (hk : f.entry k = some n)
    (hl : f.label n = some l) (hleaf : ¬S.isDir l) : Linked S R (removeName f k n) := by
  have hfinite := finite_update h.finite k none
  have hcount := names_count (f := f) (g := removeName f k n) h.finite rfl n
  simp [hk] at hcount
  have hrel := h.leafLinks n l hl hleaf
  rw [← hcount] at hrel
  refine h.relinkLeaf hl hleaf rfl (fun d hd => update_of_ne hd _ _)
    (fun k' n' hn' => update_eq_some_iff (.inr hk) (.inl rfl) hn') hfinite (fun k' he => ?_)
    (by simpa [removeName] using hR.pred _ _ hrel)
  rcases entry_update_cases he with ⟨-, hv⟩ | ⟨-, he'⟩
  · cases hv
  · obtain ⟨l', hl', hfit, -⟩ := h.target k' n he'
    refine ⟨h.holds k' n he', Option.some.inj (hl'.symm.trans hl) ▸ hfit, ?_⟩
    -- a name is left, so the count was at least two
    have hleft : 0 < (names (removeName f k n) n).ncard := by
      refine (Set.ncard_pos (hfinite.subset fun k'' hk'' hn => ?_)).mpr ⟨k', he⟩
      exact Option.some_ne_none _ (Eq.trans (Eq.symm hk'') hn)
    have hle := hR.le _ _ hrel
    simp only [removeName, update_self]
    omega

/-- A node without a label has no name and no entry. -/
theorem Linked.fresh (h : Linked S R f) (hn : f.label n = none) (hk : f.entry k' = some n') :
    n' ≠ n ∧ S.parentOf k' ≠ n := by
  obtain ⟨l, hl, -⟩ := h.target k' n' hk
  obtain ⟨l', hl', -⟩ := h.holds k' n' hk
  constructor <;> rintro rfl
  · cases hn.symm.trans hl
  · cases hn.symm.trans hl'

theorem links_addLeaf_of_ne {m} (hd : d ≠ n) :
    (addLeaf S f k n l m).links d = f.links d + if S.parentOf k = d ∧ S.isDir l then 1 else 0 := by
  by_cases hp : d = S.parentOf k
  · subst hp
    simp [addLeaf, update_of_ne hd]
  · simp [addLeaf, update_of_ne hd, hp, Ne.symm hp]

theorem Linked.leafAdded (h : Linked S R f) {m} (hk : f.entry k = none)
    (hn : f.label n = none) (hroot : n ≠ S.root) (hp : Holds S f k) (hfit : S.fits k l) (hm : 0 < m)
    (hdir : S.isDir l → m = 2) (hleaf : ¬S.isDir l → R m 1) : Linked S R (addLeaf S f k n l m) := by
  have hlabel : (addLeaf S f k n l m).label n = some l := by simp [addLeaf]
  have hlinks : (addLeaf S f k n l m).links n = m := by simp [addLeaf]
  have hmpos : 0 < (addLeaf S f k n l m).links n := by rwa [hlinks]
  have hself : IsDir S (addLeaf S f k n l m) n ↔ S.isDir l := by simp [IsDir, hlabel]
  have hsame : ∀ k' n', n' ≠ n → ((addLeaf S f k n l m).entry k' = some n' ↔ f.entry k' = some n') :=
    fun k' n' hn' => update_eq_some_iff (.inl hk) (.inr rfl) hn'
  have hname : ∀ k', (addLeaf S f k n l m).entry k' = some n → k' = k := by
    intro k' he
    rcases entry_update_cases he with ⟨hkk, -⟩ | ⟨-, he'⟩
    · exact hkk
    · exact absurd rfl (h.fresh hn he').1
  obtain ⟨lp, hlp, hdirp, -, hpos⟩ := id hp
  have hpn : S.parentOf k ≠ n := by
    rintro rfl
    cases hn.symm.trans hlp
  have hlive : ∀ d, d ≠ n → (0 < (addLeaf S f k n l m).links d ↔ 0 < f.links d) := by
    intro d hdn
    rw [links_addLeaf_of_ne hdn]
    by_cases hpd : S.parentOf k = d
    · subst hpd
      omega
    · simp [hpd]
  have hreach : Reaches S (addLeaf S f k n l m).entry n := by
    refine .step (k := k) (by simp [addLeaf]) ((h.reaches _ ⟨lp, hlp, hdirp⟩ hpos).mono (fun _ => True) trivial ?_)
    exact fun k' n' he _ => ⟨(hsame k' n' (h.fresh hn he).1).mpr he, trivial⟩
  refine h.relink hroot.symm (fun d hdn => update_of_ne hdn _ _) (by simp [hn]) hsame
    (finite_update h.finite k (some n))
    (fun d hdn => ⟨hlive d hdn, fun hnot => ?_⟩) (fun k' he => ?_) (.inl ⟨hmpos, hreach⟩)
    (fun _ k₁ k₂ h₁ h₂ => (hname k₁ h₁).trans (hname k₂ h₂).symm) (fun d hd hposd => ?_) fun hnot => ?_
  · have hpd : S.parentOf k ≠ d := fun hpd => hnot (hpd ▸ ⟨lp, hlp, hdirp⟩)
    simp [links_addLeaf_of_ne hdn, hpd]
  · rw [hname k' he]
    exact ⟨hp, l, hlabel, hfit, hmpos⟩
  · have hcount := subdirs_count (S := S) (f := f) (g := addLeaf S f k n l m) (fun k' n' he => by
      simp [IsDir, addLeaf, update_of_ne (h.fresh hn he).1]) h.finite rfl d
    simp [hk, hself] at hcount
    by_cases hdn : d = n
    · -- nothing lies in the new node yet
      subst hdn
      have hempty : subdirs S f d = ∅ := Set.eq_empty_of_forall_notMem fun k' ⟨hp', n', he, _⟩ => (h.fresh hn he).2 hp'
      rw [hcount, hlinks, hdir (hself.mp hd), hempty]
      simp [hpn]
    · have hdf : IsDir S f d := by simpa [IsDir, addLeaf, hdn] using hd
      rw [hcount, links_addLeaf_of_ne hdn, h.dirLinks d hdf ((hlive d hdn).mp hposd)]
      omega
  · have hcount := names_count (f := f) (g := addLeaf S f k n l m) h.finite rfl n
    have hempty : names f n = ∅ := Set.eq_empty_of_forall_notMem fun k' he => (h.fresh hn he).1 rfl
    rw [hk, hempty, if_neg nofun, if_pos rfl, Set.ncard_empty] at hcount
    rw [← Nat.add_zero (Set.ncard _), hcount, hlinks]
    exact hleaf (hself.not.mp hnot)

/-- A directory that has a subdirectory is linked from it. -/
theorem Linked.parent_links (h : Linked S R f) (hk : f.entry k = some n) (hd : IsDir S f n) :
    3 ≤ f.links (S.parentOf k) := by
  obtain ⟨l, hl, hdir, -, hpos⟩ := h.holds k n hk
  have hfin : (subdirs S f (S.parentOf k)).Finite := h.finite.subset fun k' ⟨_, n', hn', _⟩ hnone => by
    rw [hnone] at hn'
    cases hn'
  have hone : 0 < (subdirs S f (S.parentOf k)).ncard := (Set.ncard_pos hfin).mpr ⟨k, rfl, n, hk, hd⟩
  have hlinks := h.dirLinks _ ⟨l, hl, hdir⟩ hpos
  omega

theorem Linked.root_ne (h : Linked S R f) (hk : f.entry k' = some n) : S.root ≠ n := by
  rintro rfl
  exact h.rootUnnamed k' hk

theorem Linked.dirRemoved (h : Linked S R f) (hk : f.entry k = some n) (hd : IsDir S f n)
    (hempty : Empty S f n) : Linked S R (removeDir S f k n) := by
  have hchild : ∀ k' n', f.entry k' = some n' → S.parentOf k' ≠ n := by
    intro k' n' he hp
    rw [hempty k' hp] at he
    cases he
  have hlinks : ∀ d, d ≠ n →
      (removeDir S f k n).links d = f.links d - if S.parentOf k = d then 1 else 0 := by
    intro d hdn
    by_cases hp : d = S.parentOf k
    · simp [removeDir, hp, update_of_ne (hchild k n hk)]
    · simp [removeDir, update_of_ne hdn, hp, Ne.symm hp]
  have hlive : ∀ d, d ≠ n → (0 < (removeDir S f k n).links d ↔ 0 < f.links d) := by
    intro d hdn
    have hthree := h.parent_links hk hd
    rw [hlinks d hdn]
    by_cases hp : S.parentOf k = d
    · subst hp
      simp only [if_true]
      omega
    · simp [hp]
  have hgone : (removeDir S f k n).links n = 0 := by simp [removeDir]
  -- a directory has one name only
  have hnames : ∀ k', (removeDir S f k n).entry k' ≠ some n := by
    intro k' he
    rcases entry_update_cases he with ⟨-, hv⟩ | ⟨hkk, he'⟩
    · cases hv
    · exact hkk (h.unique n k' k hd he' hk)
  refine h.relink (h.root_ne hk) (fun _ _ => rfl) (fun _ hl => hl)
    (fun k' n' hn' => update_eq_some_iff (.inr hk) (.inl rfl) hn') (finite_update h.finite k none)
    (fun d hdn => ⟨hlive d hdn, fun hleaf => ?_⟩) (fun k' he => absurd he (hnames k')) (.inr ⟨fun _ => hgone, hchild⟩)
    (fun _ k₁ _ he => absurd he (hnames k₁)) (fun d hdir hpos => ?_) fun hleaf => absurd hd hleaf
  · have hp : S.parentOf k ≠ d := fun hp => hleaf (hp ▸ h.parent_isDir hk)
    rw [hlinks d hdn, if_neg hp, Nat.sub_zero]
  · have hdn : d ≠ n := by
      rintro rfl
      omega
    have hcount := subdirs_count (S := S) (f := f) (g := removeDir S f k n) (fun _ _ _ => Iff.rfl) h.finite rfl d
    have hlinked := h.dirLinks d hdir ((hlive d hdn).mp hpos)
    simp [hk, hd] at hcount
    rw [hlinks d hdn]
    omega

/-- Moving a node that is no directory adds the new name and removes the old one. -/
theorem move_leaf (hne : old ≠ new) (hleaf : ¬IsDir S f n) :
    move S f old new n = removeName (addName f new n) old n := by
  have hentry : update (update f.entry old none) new (some n) = update (update f.entry new (some n)) old none :=
    (update_comm hne none (some n) f.entry)
  have hlinks : update (update f.links n (f.links n + 1)) n (f.links n) = f.links := by
    rw [update_idem, update_eq_self]
  simp [move, removeName, addName, hleaf, hentry, hlinks]

theorem Linked.dirMoved (h : Linked S R f) (hold : f.entry old = some n) (hnew : f.entry new = none)
    (hp : Holds S f new) (hl : f.label n = some l) (hdirl : S.isDir l) (hfit : S.fits new l)
    (hpath : ReachesAvoiding S f.entry n (S.parentOf new)) : Linked S R (move S f old new n) := by
  have hd : IsDir S f n := ⟨l, hl, hdirl⟩
  have hne : old ≠ new := by
    rintro rfl
    rw [hold] at hnew
    cases hnew
  have hthree := h.parent_links hold hd
  have hlinks : ∀ d, (move S f old new n).links d + (if S.parentOf old = d then 1 else 0) =
      f.links d + if S.parentOf new = d then 1 else 0 := by
    intro d
    by_cases hpp : S.parentOf old = S.parentOf new
    · simp [move, hpp]
    · by_cases hpn : d = S.parentOf new
      · subst hpn
        simp [move, hd, hpp]
      · by_cases hpo : d = S.parentOf old
        · subst hpo
          simp [move, hd, hpp, Ne.symm hpn]
          omega
        · simp [move, hd, hpp, hpn, hpo, Ne.symm hpn, Ne.symm hpo]
  have hlive : ∀ d, 0 < (move S f old new n).links d ↔ 0 < f.links d := by
    intro d
    have hsum := hlinks d
    obtain ⟨-, -, -, -, hpos⟩ := hp
    by_cases hpo : S.parentOf old = d
    · subst hpo
      split_ifs at hsum <;> omega
    · by_cases hpn : S.parentOf new = d
      · subst hpn
        simp [hpo] at hsum
        omega
      · simp [hpo, hpn] at hsum
        omega
  have hsame : ∀ k' n', n' ≠ n → ((move S f old new n).entry k' = some n' ↔ f.entry k' = some n') :=
    fun k' n' hn' => (update_eq_some_iff (.inl (by simpa [Ne.symm hne] using hnew)) (.inr rfl) hn').trans
      (update_eq_some_iff (.inr hold) (.inl rfl) hn')
  -- a directory has one name only
  have hnames : ∀ k', (move S f old new n).entry k' = some n → k' = new := by
    intro k' he
    rcases entry_update_cases he with ⟨rfl, -⟩ | ⟨-, he'⟩
    · rfl
    · rcases entry_update_cases he' with ⟨-, hv⟩ | ⟨hko, he'⟩
      · cases hv
      · exact absurd (h.unique n k' old hd he' hold) hko
  -- the path of the new parent does not pass the moved directory, so it is still there
  have hmoved : Reaches S (move S f old new n).entry n := by
    refine .step (k := new) (by simp [move]) (hpath.mono (fun _ => True) trivial fun k' n' hx he _ => ?_).reaches
    exact ⟨(hsame k' n' hx).mpr he, trivial⟩
  obtain ⟨-, -, -, hpos⟩ := h.target old n hold
  refine h.relink (h.root_ne hold) (fun _ _ => rfl) (fun _ hl => hl) hsame
    (finite_update (finite_update h.finite old none) new (some n)) (fun d _ => ⟨hlive d, fun hleaf => ?_⟩)
    (fun k' he => ?_)
    (.inl ⟨(hlive n).mpr hpos, hmoved⟩) (fun _ k₁ k₂ h₁ h₂ => (hnames k₁ h₁).trans (hnames k₂ h₂).symm)
    (fun d hdir hpos => ?_) fun hleaf => absurd hd hleaf
  · obtain ⟨ln, hln, hdirn, -⟩ := hp
    have hpo : S.parentOf old ≠ d := fun hp => hleaf (hp ▸ h.parent_isDir hold)
    have hpn : S.parentOf new ≠ d := fun hp => hleaf (hp ▸ ⟨ln, hln, hdirn⟩)
    simpa [hpo, hpn] using hlinks d
  · rw [hnames k' he]
    exact ⟨hp, l, hl, hfit, (hlive n).mpr hpos⟩
  · let g : Forest κ ν τ := { f with entry := update f.entry old none }
    have hgnew : g.entry new = none := by simp [g, Ne.symm hne, hnew]
    have hremoved := subdirs_count (S := S) (f := f) (g := g) (fun _ _ _ => Iff.rfl) h.finite rfl d
    have hadded := subdirs_count (S := S) (f := g) (g := move S f old new n) (fun _ _ _ => Iff.rfl)
      (finite_update h.finite old none) rfl d
    have hlinked := h.dirLinks d hdir ((hlive d).mp hpos)
    have hsum := hlinks d
    have hmd : IsDir S (move S f old new n) n := hd
    simp [hold, hd] at hremoved
    simp [hgnew, hmd] at hadded
    omega

theorem Linked.nodeMoved (hR : LinkRel R) (h : Linked S R f) (hold : f.entry old = some n)
    (hnew : f.entry new = none) (hp : Holds S f new) (hl : f.label n = some l) (hfit : S.fits new l)
    (hpath : IsDir S f n → ReachesAvoiding S f.entry n (S.parentOf new)) : Linked S R (move S f old new n) := by
  by_cases hd : S.isDir l
  · exact h.dirMoved hold hnew hp hl hd hfit (hpath ⟨l, hl, hd⟩)
  · have hne : old ≠ new := by
      rintro rfl
      rw [hold] at hnew
      cases hnew
    have hleaf : ¬IsDir S f n := by
      rintro ⟨l', hl', hd'⟩
      rw [hl, Option.some.injEq] at hl'
      exact hd (hl' ▸ hd')
    rw [move_leaf hne hleaf]
    refine (h.nameAdded hR hnew hp hl hd hfit).nameRemoved hR ?_ hl hd
    simpa [addName, hne] using hold

/-- Moving a node over an empty directory, which is removed first. -/
theorem Linked.moveOverDir (hR : LinkRel R) (h : Linked S R f) {n t : ν} (hold : f.entry old = some n)
    (hnew : f.entry new = some t) (hne : old ≠ new) (hl : f.label n = some l) (hd : IsDir S f t) (hempty : Empty S f t)
    (hfit : S.fits new l) (hpath : IsDir S f n → ReachesAvoiding S f.entry n (S.parentOf new)) :
    Linked S R (move S (removeDir S f new t) old new n) := by
  have hchild : ∀ k m, f.entry k = some m → S.parentOf k ≠ t := by
    intro k m he hp
    rw [hempty k hp] at he
    cases he
  have hthree := h.parent_links hnew hd
  have hself : (removeDir S f new t).links (S.parentOf new) = f.links (S.parentOf new) - 1 := by
    simp [removeDir, hchild new t hnew]
  refine (h.dirRemoved hnew hd hempty).nodeMoved hR ?_ ?_ ?_ hl hfit ?_
  · simpa [removeDir, hne] using hold
  · simp [removeDir]
  · obtain ⟨l', hl', hdir', hfit', -⟩ := h.holds new t hnew
    exact ⟨l', hl', hdir', hfit', by rw [hself]; omega⟩
  · intro hdn
    -- an empty directory is on no path
    refine (hpath hdn).mono (· ≠ t) (hchild new t hnew) fun k m _ he hm => ⟨?_, hchild k m he⟩
    have hk : k ≠ new := by
      rintro rfl
      rw [hnew, Option.some.injEq] at he
      exact hm he.symm
    simpa [removeDir, hk] using he

/-- Moving a node that is no directory over another one. -/
theorem Linked.moveOverName (hR : LinkRel R) (h : Linked S R f) {n t : ν} {l lt : τ} (hold : f.entry old = some n)
    (hnew : f.entry new = some t) (hne : old ≠ new) (hl : f.label n = some l) (hleaf : ¬S.isDir l)
    (hlt : f.label t = some lt) (hleaft : ¬S.isDir lt) (hfit : S.fits new l) :
    Linked S R (move S (removeName f new t) old new n) := by
  have hlinked := h.nameRemoved hR hnew hlt hleaft
  refine hlinked.nodeMoved hR ?_ ?_ ?_ hl hfit ?_
  · simpa [removeName, hne] using hold
  · simp [removeName]
  · obtain ⟨l', hl', hdir', hfit', hpos⟩ := h.holds new t hnew
    have hp : S.parentOf new ≠ t := (leaf_ne_dir hlt hleaft ⟨l', hl', hdir'⟩).symm
    exact ⟨l', hl', hdir', hfit', by simpa [removeName, hp] using hpos⟩
  · rintro ⟨l', hl', hd'⟩
    have hll : l' = l := Option.some.inj (hl'.symm.trans hl)
    exact absurd (hll ▸ hd') hleaf

/-- A node under another name, without any change of link counts. -/
noncomputable def moved (f : Forest κ ν τ) (old new : κ) (n : ν) : Forest κ ν τ :=
  setEntry (setEntry f old none) new (some n)

/-- A name that is taken over need not be freed first. -/
theorem moved_setEntry (hne : old ≠ new) (n : ν) : moved (setEntry f new none) old new n = moved f old new n := by
  simp only [moved, setEntry, update_comm hne.symm, update_idem]

theorem moved_removeName (hne : old ≠ new) (n t : ν) :
    moved (removeName f new t) old new n = setLinks (moved f old new n) t (f.links t - 1) := by
  rw [← moved_setEntry (f := f) hne n]
  rfl

theorem moved_removeDir (hne : old ≠ new) (n t : ν) :
    moved (removeDir S f new t) old new n =
      setLinks (setLinks (moved f old new n) (S.parentOf new) (f.links (S.parentOf new) - 1)) t 0 := by
  rw [← moved_setEntry (f := f) hne n]
  rfl

theorem setLinks_idem (n : ν) (m m' : Nat) : setLinks (setLinks f n m) n m' = setLinks f n m' := by
  simp only [setLinks, update_idem]

theorem move_eq_moved (h : ¬(IsDir S f n ∧ S.parentOf old ≠ S.parentOf new)) :
    move S f old new n = moved f old new n := by
  simp only [move, if_neg h]
  rfl

theorem move_eq_setLinks (hd : IsDir S f n) (hp : S.parentOf old ≠ S.parentOf new) :
    move S f old new n = setLinks (setLinks (moved f old new n) (S.parentOf old) (f.links (S.parentOf old) - 1))
      (S.parentOf new) (f.links (S.parentOf new) + 1) := by
  simp only [move, if_pos (And.intro hd hp)]
  rfl

end Relink

/-! ## The first directory -/

/-- The root of an empty forest. -/
noncomputable def addRoot (S : Shape κ ν τ) (f : Forest κ ν τ) (l : τ) : Forest κ ν τ where
  entry := f.entry
  label := update f.label S.root (some l)
  links := update f.links S.root 2

/-- Without a root there is no entry. -/
theorem Linked.entry_eq_none {R : Nat → Nat → Prop} (h : Linked S R f) (hroot : f.label S.root = none) (k : κ) :
    f.entry k = none := by
  by_contra hne
  obtain ⟨n, hn⟩ := Option.ne_none_iff_exists'.mp hne
  have hlabel : ∀ k' n', f.entry k' = some n' → S.parentOf k' ≠ S.root := by
    intro k' n' he hp
    obtain ⟨l, hl, -⟩ := h.holds k' n' he
    rw [hp, hroot] at hl
    cases hl
  obtain ⟨l, hl, hdir, -, hpos⟩ := h.holds k n hn
  rcases (h.reaches _ ⟨l, hl, hdir⟩ hpos).top with htop | ⟨k', n', he, hp⟩
  · exact hlabel k n hn htop
  · exact hlabel k' n' he hp

theorem Linked.rootAdded {R : Nat → Nat → Prop} (h : Linked S R f) (hroot : f.label S.root = none)
    (hdir : S.isDir l) : Linked S R (addRoot S f l) := by
  have hnone : ∀ k n, f.entry k ≠ some n := by
    intro k n he
    rw [h.entry_eq_none hroot k] at he
    cases he
  have hdead : ∀ d, IsDir S (addRoot S f l) d → 0 < (addRoot S f l).links d → d = S.root := by
    intro d hd hpos
    by_contra hne
    have hd' : IsDir S f d := by simpa [IsDir, addRoot, hne] using hd
    have hpos' : 0 < f.links d := by simpa [addRoot, hne] using hpos
    obtain ⟨k, hk⟩ := h.named d hd' hpos' hne
    exact hnone k d hk
  refine
    { finite := h.finite, holds := fun k n he => absurd he (hnone k n), target := fun k n he => absurd he (hnone k n),
      rootIsDir := ?_, rootUnnamed := fun k => hnone k _, named := ?_, unique := ?_, reaches := ?_, dirLinks := ?_,
      leafLinks := ?_ }
  · intro l' hl'
    have hll : l' = l := by simpa [addRoot] using hl'.symm
    exact hll ▸ hdir
  · intro d hd hpos hne
    exact absurd (hdead d hd hpos) hne
  · intro d k k' _ he _
    exact absurd he (hnone k d)
  · intro d hd hpos
    rw [hdead d hd hpos]
    exact .root
  · intro d hd hpos
    have hempty : subdirs S (addRoot S f l) d = ∅ := by
      ext k
      simp only [Set.mem_empty_iff_false, iff_false]
      rintro ⟨-, n, hn, -⟩
      exact hnone k n hn
    rw [hempty, Set.ncard_empty, hdead d hd hpos]
    simp [addRoot]
  · intro n l' hl' hleaf
    have hne : n ≠ S.root := by
      rintro rfl
      have hll : l' = l := by simpa [addRoot] using hl'.symm
      exact hleaf (hll ▸ hdir)
    have hl : f.label n = some l' := by simpa [addRoot, hne] using hl'
    simpa [addRoot, hne, names] using h.leafLinks n l' hl hleaf

/-- The forest without entries and nodes. -/
theorem Linked.empty {R : Nat → Nat → Prop} : Linked S R ⟨fun _ => none, fun _ => none, fun _ => 0⟩ := by
  refine
    { finite := by simp, holds := ?_, target := ?_, rootIsDir := ?_, rootUnnamed := ?_, named := ?_, unique := ?_,
      reaches := ?_, dirLinks := ?_, leafLinks := ?_ } <;>
    simp [IsDir]

end DirTree
