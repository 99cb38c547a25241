import Afs.Dfs
import Afs.Error
import Afs.Lib.Runs
import Mathlib.Data.List.Sort

/-!
# `Node.Directories` — reading a directory page by page

Both backends sort the names of a directory and cut a page out of the sorted list; the cookie of an entry is the
position after it. A DFS handle keeps the entries it was opened with. A local handle reads the directory again for
every page.

FUSE puts "." and ".." in front, with the cookies 1 and 2, and raises the cookies of the first two entries to 3. A
reader that goes on from such a cookie goes on behind the third entry. Whether a scan is complete therefore depends on
where its pages end (`Clear`). A local scan also depends on what is created and removed meanwhile: positions move with
every name in front of them (`Behind`).

Cookies are natural numbers here. The inode numbers that FUSE hands out are left out.
-/

namespace Afs.Directories

open List

structure DirectoryEntry where
  name : Bytes
  kind : InodeKind
  nextCookie : Nat

def sortEntries (rows : List DirectoryEntry) : List DirectoryEntry := rows.insertionSort fun a b => a.name ≤ b.name

/-- Every row with the position behind it. -/
def withCookies (rows : List DirectoryEntry) : List DirectoryEntry :=
  rows.zipIdx.map fun row => { row.1 with nextCookie := row.2 + 1 }

def sliceDirectoryEntries (rows : List DirectoryEntry) (cookie maxEntries : Nat) : List DirectoryEntry :=
  ((withCookies (sortEntries rows)).drop cookie).take maxEntries

/-! ## Scans through FUSE -/

/-- What is added to a reply. -/
structure Row where
  cookie : Nat
  kind : InodeKind
  name : Bytes
  deriving DecidableEq

def backendCookie (offset : Nat) : Nat := if offset ≤ 2 then 0 else offset

def dots (offset : Nat) : List Row := if offset = 0 then [⟨1, .directory, [46]⟩, ⟨2, .directory, [46, 46]⟩] else []

def entryRow (entry : DirectoryEntry) : Row := ⟨max entry.nextCookie 3, entry.kind, entry.name⟩

/-- The rows in the order in which `add_backend_entries` adds them. The reply takes as many of them as it has room
    for. -/
def backendRows (offset : Nat) (entries : List DirectoryEntry) : List Row :=
  dots offset ++ entries.map entryRow

def readdir (snapshot : List DirectoryEntry) (offset : Nat) : List Row :=
  backendRows offset (sliceDirectoryEntries snapshot (backendCookie offset) 128)

/-- The first `count` rows from `offset` on. -/
def page (snapshot : List DirectoryEntry) (offset count : Nat) : List Row := (readdir snapshot offset).take count

/-- The cookie of the last row. -/
def resume (offset : Nat) (rows : List Row) : Nat := (rows.getLast?.map Row.cookie).getD offset

/-- A scan whose pages have at most so many rows: what it delivers, and where it would go on. -/
def scan (snapshot : List DirectoryEntry) : Nat → List Nat → List Row × Nat
  | offset, [] => ([], offset)
  | offset, count :: counts =>
    let rest := scan snapshot (resume offset (page snapshot offset count)) counts
    (page snapshot offset count ++ rest.1, rest.2)

/-- The entries in front of the end of a page of `count` rows. -/
def passed (offset count : Nat) : Nat := backendCookie offset + (count - (dots offset).length)

/-- A page may end behind "..", behind the third entry, and where the directory ends. -/
def ClearEnd (snapshot : List DirectoryEntry) (offset count : Nat) : Prop :=
  count = 0 ∨ (dots offset).length ≤ count ∧
    (passed offset count = 0 ∨ 3 ≤ passed offset count ∨ snapshot.length ≤ passed offset count)

/-- All pages of the scan end so. -/
def Clear (snapshot : List DirectoryEntry) : Nat → List Nat → Prop
  | _, [] => True
  | offset, count :: counts =>
    ClearEnd snapshot offset (page snapshot offset count).length ∧
      Clear snapshot (resume offset (page snapshot offset count)) counts

/-- What there is from `offset` on. -/
def rowsFrom (snapshot : List DirectoryEntry) (offset : Nat) : List Row :=
  backendRows offset ((withCookies (sortEntries snapshot)).drop (backendCookie offset))

section

variable {snapshot : List DirectoryEntry} {offset count : Nat}

theorem length_dots : (dots offset).length = if offset = 0 then 2 else 0 := by
  unfold dots
  split <;> rfl

theorem length_withCookies_sort : (withCookies (sortEntries snapshot)).length = snapshot.length := by
  simp [withCookies, sortEntries]

theorem length_rowsFrom :
    (rowsFrom snapshot offset).length = (dots offset).length + (snapshot.length - backendCookie offset) := by
  simp [rowsFrom, backendRows, length_withCookies_sort]

theorem names_withCookies (rows : List DirectoryEntry) :
    ((withCookies rows).map entryRow).map Row.name = rows.map DirectoryEntry.name := by
  rw [withCookies, map_map, map_map]
  nth_rewrite 2 [← zipIdx_map_fst 0 rows]
  rw [map_map]
  rfl

/-- A page is the beginning of what there is. -/
theorem page_eq : page snapshot offset count =
    (rowsFrom snapshot offset).take (page snapshot offset count).length := by
  refine List.prefix_iff_eq_take.mp ((List.take_prefix _ _).trans ?_)
  exact (List.prefix_append_right_inj _).mpr ((List.take_prefix _ _).map _)

theorem length_page_le : (page snapshot offset count).length ≤ (rowsFrom snapshot offset).length := by
  rw [page_eq]
  exact length_take_le' _ _

/-- The cookies of the rows. -/
theorem cookie_rowsFrom {i} (hi : i < (rowsFrom snapshot offset).length) :
    (rowsFrom snapshot offset)[i]?.map Row.cookie =
      some (if i < (dots offset).length then i + 1 else max (passed offset (i + 1)) 3) := by
  rw [length_rowsFrom] at hi
  rw [rowsFrom, backendRows, getElem?_append]
  split
  · next hdots =>
    by_cases hoffset : offset = 0
    · subst hoffset
      match i, hdots with
      | 0, _ => rfl
      | 1, _ => rfl
    · simp [dots, hoffset] at hdots
  · next hdots =>
    have hsorted : backendCookie offset + (i - (dots offset).length) < (sortEntries snapshot).length := by
      rw [sortEntries, length_insertionSort]
      omega
    have hpassed : passed offset (i + 1) = backendCookie offset + (i - (dots offset).length) + 1 := by
      rw [passed]
      omega
    simp [withCookies, entryRow, getElem?_eq_getElem hsorted, hpassed]

/-- Where a page of `count` rows goes on. -/
theorem resume_page : resume offset (page snapshot offset count) =
    if (page snapshot offset count).length = 0 then offset
    else if (page snapshot offset count).length ≤ (dots offset).length then (page snapshot offset count).length
    else max (passed offset (page snapshot offset count).length) 3 := by
  have hle := @length_page_le snapshot offset count
  rw [resume, page_eq]
  generalize (page snapshot offset count).length = n at hle ⊢
  rw [length_take_of_le hle, getLast?_take]
  by_cases hn : n = 0
  · simp [hn]
  · have hlast := @cookie_rowsFrom snapshot offset (n - 1) (by omega)
    obtain ⟨row, hrow, hcookie⟩ := Option.map_eq_some_iff.mp hlast
    rw [show n - 1 + 1 = n by omega] at hcookie
    rw [if_neg hn, if_neg hn, hrow, Option.some_or, Option.map_some, Option.getD_some, hcookie]
    simp only [show n - 1 < (dots offset).length ↔ n ≤ (dots offset).length by omega]

/-- What is left behind the dots. -/
theorem drop_rowsFrom {n} (h : (dots offset).length ≤ n) :
    (rowsFrom snapshot offset).drop n =
      ((withCookies (sortEntries snapshot)).drop (passed offset n)).map entryRow := by
  rw [rowsFrom, backendRows, drop_append, drop_eq_nil_of_le h, nil_append, ← map_drop, drop_drop,
    passed]

/-- Going on never goes back. -/
theorem rowsFrom_resume_suffix : rowsFrom snapshot (resume offset (page snapshot offset count)) <:+
    (rowsFrom snapshot offset).drop (page snapshot offset count).length := by
  rw [resume_page]
  generalize (page snapshot offset count).length = n
  split
  · next hn => simp [hn]
  · next hn =>
    split
    · next hdots =>
      -- dots are there at the beginning only
      by_cases hoffset : offset = 0
      · subst hoffset
        match n, hn, hdots with
        | 1, _, _ => exact suffix_cons _ _
        | 2, _, _ => exact suffix_refl _
      · simp only [dots, hoffset, if_false, length_nil] at hdots
        omega
    · next hdots =>
      have hrows := @drop_rowsFrom snapshot (max (passed offset n) 3) 0 (by simp [dots])
      have hbehind : passed (max (passed offset n) 3) 0 = max (passed offset n) 3 := by
        rw [passed, backendCookie, if_neg (by omega), Nat.zero_sub, Nat.add_zero]
      rw [drop_zero, hbehind] at hrows
      rw [hrows, drop_rowsFrom (by omega)]
      exact (drop_suffix_drop_left _ (le_max_left _ _)).map _

/-- Nothing is skipped exactly if the page ends clear. -/
theorem length_rowsFrom_resume : (rowsFrom snapshot (resume offset (page snapshot offset count))).length =
      (rowsFrom snapshot offset).length - (page snapshot offset count).length ↔
    ClearEnd snapshot offset (page snapshot offset count).length := by
  have hle := @length_page_le snapshot offset count
  rw [resume_page, ClearEnd]
  simp only [length_rowsFrom, passed] at *
  generalize (page snapshot offset count).length = n at *
  simp only [length_dots, backendCookie] at *
  split_ifs at * <;> omega

variable (snapshot) in
/-- A scan delivers a part of what there is, in its order, and what it has not reached is still there. -/
theorem scan_sublist (offset : Nat) (counts : List Nat) :
    ((scan snapshot offset counts).1 ++ rowsFrom snapshot (scan snapshot offset counts).2).Sublist
      (rowsFrom snapshot offset) := by
  induction counts generalizing offset with
  | nil => exact List.Sublist.refl _
  | cons count counts ih =>
    have hrest := (ih (resume offset (page snapshot offset count))).trans rowsFrom_resume_suffix.sublist
    have hwhole : page snapshot offset count ++ (rowsFrom snapshot offset).drop (page snapshot offset count).length =
        rowsFrom snapshot offset := by
      nth_rewrite 1 [page_eq]
      exact take_append_drop _ _
    rw [scan, append_assoc, ← hwhole]
    exact (List.Sublist.refl _).append hrest

variable (snapshot) in
/-- It leaves nothing out exactly if its pages end clear. -/
theorem length_scan (offset : Nat) (counts : List Nat) :
    (scan snapshot offset counts).1.length + (rowsFrom snapshot (scan snapshot offset counts).2).length =
      (rowsFrom snapshot offset).length ↔ Clear snapshot offset counts := by
  induction counts generalizing offset with
  | nil => simp [scan, Clear]
  | cons count counts ih =>
    have hpage := @length_page_le snapshot offset count
    have hsuffix := (@rowsFrom_resume_suffix snapshot offset count).length_le
    have hrest := (scan_sublist snapshot (resume offset (page snapshot offset count)) counts).length_le
    rw [length_drop] at hsuffix
    rw [length_append] at hrest
    simp only [Clear, ← length_rowsFrom_resume, ← ih, scan, length_append]
    omega

/-- **Directory paging through FUSE is complete** exactly if no page ends behind "." alone or behind the first or second
    of more entries. -/
theorem directory_paging_complete_iff {counts : List Nat} (hdone : readdir snapshot (scan snapshot 0 counts).2 = []) :
    ((scan snapshot 0 counts).1.map Row.name).Perm ([46] :: [46, 46] :: snapshot.map DirectoryEntry.name) ↔
      Clear snapshot 0 counts := by
  have hend : rowsFrom snapshot (scan snapshot 0 counts).2 = [] := by
    have hlength := congrArg length hdone
    simp only [readdir, backendRows, sliceDirectoryEntries, length_append, length_map, length_take,
      length_drop, length_withCookies_sort, length_nil] at hlength
    exact length_eq_zero_iff.mp (by rw [length_rowsFrom]; omega)
  have hsublist := scan_sublist snapshot 0 counts
  have hlength := length_scan snapshot 0 counts
  rw [hend, append_nil] at hsublist
  rw [hend, length_nil, Nat.add_zero] at hlength
  rw [← hlength]
  constructor
  · intro hperm
    have hcount := hperm.length_eq
    simp only [length_map, length_cons] at hcount
    rw [hcount, length_rowsFrom]
    exact Nat.add_comm _ 2
  · intro hcount
    rw [hsublist.eq_of_length hcount]
    refine List.Perm.cons _ (List.Perm.cons _ ?_)
    show (((withCookies (sortEntries snapshot)).map entryRow).map Row.name).Perm _
    rw [names_withCookies]
    exact (perm_insertionSort _ snapshot).map _

end

/-- Two files. -/
def twoFiles : List DirectoryEntry := [⟨[98], .regular, 0⟩, ⟨[97], .regular, 0⟩]

theorem directory_paging_complete_two_pages :
    readdir twoFiles (scan twoFiles 0 [2, 9]).2 = [] ∧
      ((scan twoFiles 0 [2, 9]).1.map Row.name).Perm ([46] :: [46, 46] :: twoFiles.map DirectoryEntry.name) :=
  ⟨by decide, (directory_paging_complete_iff (by decide)).mpr (by simp [Clear, ClearEnd]; decide)⟩

/-- A page that ends behind the first of two files: the second is skipped. -/
theorem second_file_skipped :
    readdir twoFiles (scan twoFiles 0 [3, 9]).2 = [] ∧
      (scan twoFiles 0 [3, 9]).1.map Row.name = [[46], [46, 46], [97]] := by
  decide

/-! ## Scans of a local directory -/

def listing (names : List Bytes) : List Bytes := names.insertionSort (· ≤ ·)

/-- The loop over the names of a page. Each is looked up, and the page is lost if one of them is gone. -/
def lookupEntries (lookup : Bytes → Result InodeKind) : Nat → List Bytes → Result (List DirectoryEntry)
  | _, [] => return []
  | index, name :: names => do
    let kind ← lookup name
    let rest ← lookupEntries lookup (index + 1) names
    return ⟨name, kind, index + 1⟩ :: rest

/-- `readdir` of a local handle. -/
def localReaddir (lookup : Bytes → Result InodeKind) (names : List Bytes) (cookie maxEntries : Nat) :
    Result (List DirectoryEntry) := lookupEntries lookup cookie (((listing names).drop cookie).take maxEntries)

inductive Change
  | create (name : Bytes)
  | unlink (name : Bytes)
  | rename (source target : Bytes)

/-- The names after a change. A rename replaces what had the new name. -/
def Change.apply (names : List Bytes) : Change → List Bytes
  | .create name => if name ∈ names then names else name :: names
  | .unlink name => names.erase name
  | .rename source target => if source ∈ names then target :: (names.erase source).erase target else names

def Change.touched : Change → List Bytes
  | .create name | .unlink name => [name]
  | .rename source target => [source, target]

structure LocalScan where
  names : List Bytes
  cookie : Nat
  returned : List Bytes

inductive ScanEvent
  | change (change : Change)
  | page (lookup : Bytes → Result InodeKind) (maxEntries : Nat)

def LocalScan.step (s : LocalScan) : ScanEvent → Option LocalScan
  | .change change => some { s with names := change.apply s.names }
  | .page lookup maxEntries =>
    match localReaddir lookup s.names s.cookie maxEntries with
    | .error _ => some s
    | .ok entries => some { s with
        cookie := (entries.getLast?.map DirectoryEntry.nextCookie).getD s.cookie
        returned := s.returned ++ entries.map DirectoryEntry.name }

/-- Only names behind all those that were returned are created, removed or renamed. -/
def Behind (s : LocalScan) : ScanEvent → Prop
  | .change change => ∀ name ∈ change.touched, ∀ passed ∈ s.returned, passed < name
  | .page _ _ => True

/-- What was returned are the names in front of the position. -/
structure ScanInv (s : LocalScan) : Prop where
  distinct : s.names.Nodup
  inside : s.cookie ≤ s.names.length
  returned : s.returned = (listing s.names).take s.cookie

theorem Change.nodup_apply {names} (h : names.Nodup) (change : Change) : (change.apply names).Nodup := by
  cases change with
  | create name =>
    rw [Change.apply]
    split
    · exact h
    · next hnew => exact nodup_cons.mpr ⟨hnew, h⟩
  | unlink name => exact h.erase _
  | rename source target =>
    rw [Change.apply]
    split
    · have hrest := h.erase source
      exact nodup_cons.mpr ⟨hrest.not_mem_erase, hrest.erase _⟩
    · exact h

theorem Change.mem_apply {names : List Bytes} {change : Change} {name : Bytes} (h : name ∉ change.touched) :
    name ∈ change.apply names ↔ name ∈ names := by
  cases change with
  | create | unlink | rename => grind [Change.apply, Change.touched]

/-- Changes behind a part of the listing leave it in place. -/
theorem listing_apply {names front rest : List Bytes} {change : Change} (hdistinct : names.Nodup)
    (hlisting : listing names = front ++ rest) (hbehind : ∀ name ∈ change.touched, ∀ passed ∈ front, passed < name) :
    ∃ rest', listing (change.apply names) = front ++ rest' := by
  have hsorted : (front ++ rest).Pairwise (· ≤ ·) := hlisting ▸ pairwise_insertionSort _ _
  have hperm : names.Perm (front ++ rest) := hlisting ▸ (perm_insertionSort _ _).symm
  have hchanged : ∀ name, name ∉ front → name ∈ change.apply names → name ∈ change.touched ∨ name ∈ rest := by
    grind [Change.mem_apply, hperm.mem_iff]
  have hkept : ∀ name ∈ front, name ∈ change.apply names := by
    intro name hname
    have huntouched : name ∉ change.touched := fun htouched => Std.lt_irrefl (hbehind name htouched name hname)
    exact (Change.mem_apply huntouched).mpr (hperm.mem_iff.mpr (mem_append_left _ hname))
  rw [pairwise_append] at hsorted
  refine ⟨listing ((change.apply names).filter (· ∉ front)), List.Perm.eq_of_pairwise' (pairwise_insertionSort _ _)
    (pairwise_append.mpr ⟨hsorted.1, pairwise_insertionSort _ _, ?_⟩) ?_⟩
  · intro passed hpassed name hname
    have hname : name ∈ change.apply names ∧ name ∉ front := by simpa [listing] using hname
    rcases hchanged name hname.2 hname.1 with htouched | hrest
    · exact Std.le_of_lt (hbehind name htouched passed hpassed)
    · exact hsorted.2.2 passed hpassed name hrest
  · have hfront : front.Nodup := (nodup_append.mp (hperm.nodup_iff.mp hdistinct)).1
    have hnodup := change.nodup_apply hdistinct
    refine (perm_insertionSort _ _).trans (.trans ?_ ((perm_insertionSort _ _).symm.append_left front))
    refine (perm_ext_iff_of_nodup hnodup ?_).mpr ?_
    · exact hfront.append (hnodup.filter _) (by simp +contextual [List.Disjoint])
    · grind

/-- A page has the next names, and goes on behind them. -/
theorem lookupEntries_ok {lookup index names entries} (h : lookupEntries lookup index names = .ok entries) :
    entries.map DirectoryEntry.name = names ∧
      (entries.getLast?.map DirectoryEntry.nextCookie).getD index = index + names.length := by
  induction names generalizing index entries with
  | nil =>
    cases h
    exact ⟨rfl, rfl⟩
  | cons name names ih =>
    obtain ⟨kind, -, h⟩ := bind_eq_ok.mp h
    obtain ⟨rest, hrest, h⟩ := bind_eq_ok.mp h
    cases h
    obtain ⟨hnames, hcookie⟩ := ih hrest
    refine ⟨by rw [map_cons, hnames], ?_⟩
    rw [getLast?_cons, Option.map_some, Option.getD_some, length_cons]
    cases hlast : rest.getLast? with
    | none | some =>
      rw [hlast] at hcookie
      simp at hcookie ⊢
      omega

theorem ScanInv.step {s t : LocalScan} {event : ScanEvent} (h : ScanInv s) (hbehind : Behind s event)
    (hstep : s.step event = some t) : ScanInv t := by
  have hlength : (listing s.names).length = s.names.length := length_insertionSort _ _
  cases event with
  | change change =>
    cases hstep
    have hbehind : ∀ name ∈ change.touched, ∀ passed ∈ s.returned, passed < name := hbehind
    rw [h.returned] at hbehind
    obtain ⟨rest, hlisting⟩ :=
      listing_apply h.distinct (take_append_drop s.cookie (listing s.names)).symm hbehind
    have hreturned : (listing (change.apply s.names)).take s.cookie = (listing s.names).take s.cookie := by
      rw [hlisting, take_append_of_le_length (by simp [hlength, h.inside]), take_take, min_self]
    refine ⟨change.nodup_apply h.distinct, ?_, h.returned.trans hreturned.symm⟩
    have hall := congrArg length hlisting
    simp only [listing, length_insertionSort, length_append, length_take] at hall
    have hinside := h.inside
    show s.cookie ≤ (change.apply s.names).length
    omega
  | page lookup maxEntries =>
    simp only [LocalScan.step] at hstep
    split at hstep
    · cases hstep
      exact h
    · next entries hentries =>
      cases hstep
      obtain ⟨hnames, hcookie⟩ := lookupEntries_ok hentries
      rw [length_take, length_drop, hlength] at hcookie
      have hinside := h.inside
      simp only [hcookie, hnames]
      refine ⟨h.distinct, ?_, ?_⟩
      · show s.cookie + min maxEntries (s.names.length - s.cookie) ≤ s.names.length
        omega
      · simp only [h.returned, ← take_add, take_eq_take_iff, hlength]
        omega

/-- **A local scan returns every name once** if only names behind those it has returned come and go. -/
theorem local_scan_complete {names : List Bytes} {s : LocalScan} (hnames : names.Nodup)
    (hrun : Runs.Run LocalScan.step Behind ⟨names, 0, []⟩ s) (hend : s.names.length ≤ s.cookie) :
    ∀ name ∈ s.names, s.returned.count name = 1 := by
  have hinv := hrun.invariant (fun s e t hs hbehind hstep => ScanInv.step hs hbehind hstep)
    ⟨hnames, Nat.zero_le _, take_zero.symm⟩
  have hall : s.returned = listing s.names := by
    rw [hinv.returned, take_of_length_le]
    exact (length_insertionSort _ _).trans_le hend
  intro name hname
  have hperm : (listing s.names).Perm s.names := perm_insertionSort _ _
  rw [hall, hperm.count_eq]
  exact count_eq_one_of_mem hinv.distinct hname

/-- The names a, b and c. -/
def threeNames : List Bytes := [[97], [98], [99]]

def someKind : Bytes → Result InodeKind := fun _ => .ok .regular

/-- While b and c are still to come, c is renamed to d. -/
theorem local_scan_complete_after_rename : ∃ s, Runs.Run LocalScan.step Behind ⟨threeNames, 0, []⟩ s ∧
    s.names.length ≤ s.cookie ∧ ∀ name ∈ s.names, s.returned.count name = 1 := by
  have hrun : Runs.Run LocalScan.step Behind ⟨threeNames, 0, []⟩
      ⟨[[100], [97], [98]], 3, [[97], [98], [100]]⟩ :=
    ((Runs.Run.refl.tail (.page someKind 1) trivial rfl).tail (.change (.rename [99] [100]))
      (by simp [Behind, Change.touched]; decide) rfl).tail (.page someKind 9) trivial rfl
  exact ⟨_, hrun, by decide, local_scan_complete (by decide) hrun (by decide)⟩

/-- While a page ends behind a, a is removed: b, which is there all the time, is not returned. -/
theorem unlinked_name_hides_next :
    Runs.execute LocalScan.step [.page someKind 1, .change (.unlink [97]), .page someKind 9] ⟨threeNames, 0, []⟩ =
      some ⟨[[98], [99]], 2, [[97], [99]]⟩ := rfl

end Afs.Directories
