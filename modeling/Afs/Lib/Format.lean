import Mathlib.Data.Nat.Digits.Lemmas

/-!
# `Lib.Format` — textual forms and their readers

A `Form` writes the values of a type as text and reads them back from the front of a text. Forms are put together as the
texts are: behind and in front of fixed text, one after the other, as JSON numbers and strings. `Lawful` says that
a form reads what it writes, if the text that follows is one it can tell apart, and that it writes no line break; each
way of putting forms together has the lemma that it keeps this.
-/

namespace Format

open List

def lineBreak : UInt8 := 10

/-- A textual form of the values of a type. -/
structure Form (α : Type) where
  print : α → List UInt8
  read : List UInt8 → Option (α × List UInt8)

/-- The form reads what it writes, in front of a text that `follow` allows, and writes on one line. -/
structure Form.Lawful {α : Type} (form : Form α) (follow : List UInt8 → Prop) : Prop where
  reads : ∀ a rest, follow rest → form.read (form.print a ++ rest) = some (a, rest)
  oneLine : ∀ a, lineBreak ∉ form.print a

/-- Any text may follow. -/
def anything (_ : List UInt8) : Prop := True

/-- A lawful form writes different values differently. -/
theorem Form.Lawful.print_injective {α : Type} {form : Form α} (h : form.Lawful anything) :
    Function.Injective form.print := by
  intro a b hprint
  have ha := h.reads a [] trivial
  rw [hprint, h.reads b [] trivial] at ha
  exact (Prod.mk.inj (Option.some.inj ha)).1.symm

/-- A text of ASCII characters. -/
def text (s : String) : List UInt8 := s.toList.map fun c => UInt8.ofNat c.toNat

section Combinators

variable {α β : Type} {form : Form α} {other : Form β} {follow : List UInt8 → Prop}

/-! ## Fixed text -/

/-- The form behind a fixed text. -/
def Form.behind (text : List UInt8) (form : Form α) : Form α where
  print := fun a => text ++ form.print a
  read := fun input => (input.dropPrefix? text).bind form.read

/-- The form in front of a fixed text. -/
def Form.closedBy (form : Form α) (text : List UInt8) : Form α where
  print := fun a => form.print a ++ text
  read := fun input => (form.read input).bind fun (a, rest) => (rest.dropPrefix? text).map fun rest => (a, rest)

theorem dropPrefix_append (text rest : List UInt8) : (text ++ rest).dropPrefix? text = some rest := by
  induction text with
  | nil => simp
  | cons b text ih => simp [dropPrefix?, ih]

theorem Form.Lawful.behind {text} (h : form.Lawful follow) (htext : lineBreak ∉ text) :
    (form.behind text).Lawful follow where
  reads := by
    intro a rest hrest
    simp only [Form.behind, append_assoc, dropPrefix_append, Option.bind_some]
    exact h.reads a rest hrest
  oneLine := by
    intro a hmem
    rcases mem_append.mp hmem with hmem | hmem
    · exact htext hmem
    · exact h.oneLine a hmem

theorem Form.Lawful.closedBy {text} (h : form.Lawful follow) (htext : lineBreak ∉ text)
    (hfollow : ∀ rest, follow (text ++ rest)) : (form.closedBy text).Lawful anything where
  reads := by
    intro a rest _
    simp [Form.closedBy, h.reads a (text ++ rest) (hfollow rest), dropPrefix_append]
  oneLine := by
    intro a hmem
    rcases mem_append.mp hmem with hmem | hmem
    · exact h.oneLine a hmem
    · exact htext hmem

/-! ## Pairs and other types -/

/-- One form after the other. -/
def Form.pair (form : Form α) (other : Form β) : Form (α × β) where
  print := fun p => form.print p.1 ++ other.print p.2
  read := fun input =>
    (form.read input).bind fun (a, rest) => (other.read rest).map fun (b, rest) => ((a, b), rest)

theorem Form.Lawful.pair (h : form.Lawful anything) (h' : other.Lawful follow) : (form.pair other).Lawful follow where
  reads := by
    intro p rest hrest
    simp [Form.pair, h.reads p.1 _ trivial, h'.reads p.2 rest hrest]
  oneLine := by
    intro p hmem
    rcases mem_append.mp hmem with hmem | hmem
    · exact h.oneLine p.1 hmem
    · exact h'.oneLine p.2 hmem

/-- The values of another type, written as values of this one. -/
def Form.as (form : Form α) (write : β → α) (accept : α → Option β) : Form β where
  print := fun b => form.print (write b)
  read := fun input => (form.read input).bind fun (a, rest) => (accept a).map fun b => (b, rest)

theorem Form.Lawful.as {write : β → α} {accept} (h : form.Lawful follow)
    (haccept : ∀ b, accept (write b) = some b) : (form.as write accept).Lawful follow where
  reads := by
    intro b rest hrest
    simp [Form.as, h.reads (write b) rest hrest, haccept]
  oneLine := fun b => h.oneLine (write b)

end Combinators

/-! ## Numbers -/

def isDigit (b : UInt8) : Bool := 48 ≤ b && b ≤ 57

def printDigit (d : Nat) : UInt8 := UInt8.ofNat (48 + d)

def readDigit (b : UInt8) : Nat := b.toNat - 48

def printNumber (n : Nat) : List UInt8 :=
  if n = 0 then [printDigit 0] else (Nat.digits 10 n).reverse.map printDigit

/-- A number in decimal notation. -/
def number : Form Nat where
  print := printNumber
  read := fun input =>
    let digits := input.takeWhile isDigit
    if digits = [] then none
    else some (Nat.ofDigits 10 (digits.map readDigit).reverse, input.dropWhile isDigit)

/-- The text does not go on with a digit. -/
def NoDigit (rest : List UInt8) : Prop := ∀ b ∈ rest.head?, isDigit b = false

theorem noDigit_append {l} (hne : l ≠ []) (h : ∀ b ∈ l.head?, isDigit b = false) (rest : List UInt8) :
    NoDigit (l ++ rest) := by
  cases l with
  | nil => exact absurd rfl hne
  | cons b l => exact h

theorem readDigit_printDigit : ∀ d < 10, readDigit (printDigit d) = d := by decide

theorem isDigit_printDigit : ∀ d < 10, isDigit (printDigit d) = true := by decide

/-- Digits below ten that stand for the number, most significant one first. -/
theorem exists_digits (n : Nat) :
    ∃ digits : List Nat, digits ≠ [] ∧ (∀ d ∈ digits, d < 10) ∧ Nat.ofDigits 10 digits.reverse = n ∧
      printNumber n = digits.map printDigit := by
  by_cases hn : n = 0
  · subst hn
    exact ⟨[0], by simp, by simp, rfl, rfl⟩
  · refine ⟨(Nat.digits 10 n).reverse, ?_, ?_, ?_, ?_⟩
    · rw [Ne, reverse_eq_nil_iff, Nat.digits_eq_nil_iff_eq_zero]
      exact hn
    · intro d hd
      exact Nat.digits_lt_base (by omega) (mem_reverse.mp hd)
    · rw [reverse_reverse, Nat.ofDigits_digits]
    · rw [printNumber, if_neg hn]

theorem number_lawful : number.Lawful NoDigit where
  reads := by
    intro n rest hrest
    obtain ⟨digits, hne, hten, hvalue, hprint⟩ := exists_digits n
    have hall : ∀ b ∈ digits.map printDigit, isDigit b = true := by
      intro b hb
      obtain ⟨d, hd, rfl⟩ := mem_map.mp hb
      exact isDigit_printDigit d (hten d hd)
    have hstop : rest.takeWhile isDigit = [] ∧ rest.dropWhile isDigit = rest := by
      cases rest with
      | nil => exact ⟨rfl, rfl⟩
      | cons b rest => simp [hrest b rfl]
    have htake : (digits.map printDigit ++ rest).takeWhile isDigit = digits.map printDigit := by
      rw [takeWhile_append_of_pos hall, hstop.1, append_nil]
    have hdrop : (digits.map printDigit ++ rest).dropWhile isDigit = rest := by
      rw [dropWhile_append_of_pos hall, hstop.2]
    have hdigits : (digits.map printDigit).map readDigit = digits := by
      rw [map_map]
      calc digits.map (readDigit ∘ printDigit)
        _ = digits.map id := map_congr_left fun d hd => readDigit_printDigit d (hten d hd)
        _ = digits := map_id digits
    simp only [number, hprint, htake, hdrop, hdigits, hvalue, map_eq_nil_iff, if_neg hne]
  oneLine := by
    intro n hmem
    obtain ⟨digits, -, hten, -, hprint⟩ := exists_digits n
    have hmem : lineBreak ∈ printNumber n := hmem
    rw [hprint] at hmem
    obtain ⟨d, hd, heq⟩ := mem_map.mp hmem
    have hdigit := isDigit_printDigit d (hten d hd)
    rw [heq] at hdigit
    exact absurd hdigit (by decide)

/-- A number of 64 bits. -/
def u64 : Form UInt64 :=
  number.as UInt64.toNat fun n => if n < UInt64.size then some (UInt64.ofNat n) else none

theorem u64_lawful : u64.Lawful NoDigit :=
  number_lawful.as fun x => by rw [if_pos x.toNat_lt_size, UInt64.ofNat_toNat]

section Closed

variable {α : Type} {form : Form α} {s : String}

/-- A number is told apart from the text behind it. -/
theorem closedNumber (h : form.Lawful NoDigit) (htext : lineBreak ∉ text s)
    (hdigit : (text s).head?.all (fun b => !isDigit b) = true) (hne : text s ≠ []) :
    (form.closedBy (text s)).Lawful anything := by
  refine h.closedBy htext (noDigit_append hne fun b hb => ?_)
  rw [Option.mem_def.mp hb] at hdigit
  simpa using hdigit

theorem closed (h : form.Lawful anything) (htext : lineBreak ∉ text s) : (form.closedBy (text s)).Lawful anything :=
  h.closedBy htext fun _ => trivial

end Closed

/-! ## Strings -/

def quote : UInt8 := 34
def backslash : UInt8 := 92

def printHex (d : UInt8) : UInt8 := if d < 10 then 48 + d else 87 + d

def readHex (b : UInt8) : UInt8 := if b < 97 then b - 48 else b - 87

/-- How a byte is written in a JSON string. -/
def escape (b : UInt8) : List UInt8 :=
  if b = quote then [backslash, quote]
  else if b = backslash then [backslash, backslash]
  else if b = 8 then [backslash, 98]
  else if b = 9 then [backslash, 116]
  else if b = 10 then [backslash, 110]
  else if b = 12 then [backslash, 102]
  else if b = 13 then [backslash, 114]
  else if b < 32 then [backslash, 117, 48, 48, printHex (b / 16), printHex (b % 16)]
  else [b]

/-- The byte for a letter behind a backslash. -/
def unescape (letter : UInt8) : Option UInt8 :=
  if letter = quote then some quote
  else if letter = backslash then some backslash
  else if letter = 98 then some 8
  else if letter = 116 then some 9
  else if letter = 110 then some 10
  else if letter = 102 then some 12
  else if letter = 114 then some 13
  else none

/-- The bytes of a JSON string up to the closing quote, and the text behind it. -/
def readEscaped : List UInt8 → Option (List UInt8 × List UInt8)
  | [] => none
  | b :: input =>
    if b = quote then some ([], input)
    else if b = backslash then
      match input with
      | 117 :: 48 :: 48 :: high :: low :: input =>
        (readEscaped input).map fun (bytes, rest) => ((16 * readHex high + readHex low) :: bytes, rest)
      | letter :: input =>
        (unescape letter).bind fun b => (readEscaped input).map fun (bytes, rest) => (b :: bytes, rest)
      | [] => none
    else if b < 32 then none
    else (readEscaped input).map fun (bytes, rest) => (b :: bytes, rest)

theorem forall_byte {P : UInt8 → Prop} (h : ∀ n < 256, P (UInt8.ofNat n)) (b : UInt8) : P b := by
  rw [← UInt8.ofNat_toNat (x := b)]
  exact h b.toNat b.toNat_lt

/-- A byte is written as itself, as a letter behind a backslash or by its code. -/
inductive Escaped : UInt8 → List UInt8 → Prop
  | plain {b : UInt8} (hquote : b ≠ quote) (hslash : b ≠ backslash) (hprintable : ¬b < 32) : Escaped b [b]
  | letter {b letter : UInt8} (h : unescape letter = some b) : Escaped b [backslash, letter]
  | code {b high low : UInt8} (h : 16 * readHex high + readHex low = b) : Escaped b [backslash, 117, 48, 48, high, low]

theorem escaped_escape (b : UInt8) : Escaped b (escape b) := by
  have hcode : ∀ b : UInt8, b < 32 → 16 * readHex (printHex (b / 16)) + readHex (printHex (b % 16)) = b := by
    intro b
    exact forall_byte (P := fun b => b < 32 → 16 * readHex (printHex (b / 16)) + readHex (printHex (b % 16)) = b)
      (by decide +kernel) b
  unfold escape
  split_ifs with hquote hslash h8 h9 h10 h12 h13 hcontrol
  · exact .letter (by rw [hquote]; decide)
  · exact .letter (by rw [hslash]; decide)
  · exact .letter (by rw [h8]; decide)
  · exact .letter (by rw [h9]; decide)
  · exact .letter (by rw [h10]; decide)
  · exact .letter (by rw [h12]; decide)
  · exact .letter (by rw [h13]; decide)
  · exact .code (hcode b hcontrol)
  · exact .plain hquote hslash hcontrol

theorem Escaped.read {b text} (h : Escaped b text) (rest : List UInt8) :
    readEscaped (text ++ rest) = (readEscaped rest).map fun (bytes, rest) => (b :: bytes, rest) := by
  have hne : backslash ≠ quote := by decide
  cases h with
  | plain hquote hslash hprintable =>
    rw [cons_append, nil_append, readEscaped.eq_def]
    simp only [if_neg hquote, if_neg hslash, if_neg hprintable]
  | letter hletter =>
    rename_i letter
    have hcode : letter ≠ 117 := by
      intro heq
      rw [heq] at hletter
      cases hletter
    rw [cons_append, cons_append, nil_append, readEscaped, if_neg hne, if_pos rfl, hletter,
      Option.bind_some]
    intro high low input heq
    exact absurd heq hcode
  | code hcode =>
    rw [cons_append, readEscaped.eq_def]
    simp only [if_neg hne, if_pos, cons_append, nil_append, hcode]

theorem readEscaped_flatMap (bytes rest : List UInt8) :
    readEscaped (bytes.flatMap escape ++ quote :: rest) = some (bytes, rest) := by
  induction bytes with
  | nil =>
    rw [flatMap_nil, nil_append, readEscaped.eq_def]
    simp
  | cons b bytes ih =>
    rw [flatMap_cons, append_assoc, (escaped_escape b).read, ih]
    rfl

theorem lineBreak_not_mem_escape (b : UInt8) : lineBreak ∉ escape b :=
  forall_byte (P := fun b => lineBreak ∉ escape b) (by decide +kernel) b

/-- The bytes of a JSON string between its quotes. -/
def escaped : Form (List UInt8) where
  print := fun bytes => quote :: (bytes.flatMap escape ++ [quote])
  read
    | b :: input => if b = quote then readEscaped input else none
    | [] => none

theorem escaped_lawful : escaped.Lawful anything where
  reads := by
    intro bytes rest _
    have hquoted : quote :: (bytes.flatMap escape ++ [quote]) ++ rest =
        quote :: (bytes.flatMap escape ++ quote :: rest) := by
      simp
    simp [escaped, hquoted, readEscaped_flatMap]
  oneLine := by
    intro bytes hmem
    rcases mem_cons.mp hmem with heq | hmem
    · exact absurd heq (by decide)
    rcases mem_append.mp hmem with hmem | hmem
    · obtain ⟨b, -, hb⟩ := mem_flatMap.mp hmem
      exact lineBreak_not_mem_escape b hb
    · exact absurd (mem_singleton.mp hmem) (by decide)

/-- A JSON string. -/
def string : Form String :=
  escaped.as (fun s => s.toUTF8.data.toList) fun bytes => String.fromUTF8? ⟨bytes.toArray⟩

theorem fromUTF8_toUTF8 (s : String) : String.fromUTF8? ⟨s.toUTF8.data.toList.toArray⟩ = some s := by
  have hvalid : (⟨s.toUTF8.data⟩ : ByteArray).IsValidUTF8 := s.isValidUTF8
  rw [Array.toArray_toList, String.fromUTF8?, dif_pos hvalid]
  rfl

theorem string_lawful : string.Lawful anything := escaped_lawful.as fromUTF8_toUTF8

/-! ## Joined texts -/

section Joined

variable {α : Type} [DecidableEq α] {sep : α} {x x' y y' : List α}

/-- A text is split at a separator in one way, if the number of separators before is known. -/
theorem append_cons_inj (hcount : x.count sep = x'.count sep) (h : x ++ sep :: y = x' ++ sep :: y') :
    x = x' ∧ y = y' := by
  induction x generalizing x' with
  | nil =>
    cases x' with
    | nil => exact ⟨rfl, (cons.inj h).2⟩
    | cons a x' =>
      obtain ⟨rfl, -⟩ := cons.inj h
      simp at hcount
  | cons a x ih =>
    cases x' with
    | nil =>
      obtain ⟨rfl, -⟩ := cons.inj h
      simp at hcount
    | cons a' x' =>
      obtain ⟨rfl, hrest⟩ := cons.inj h
      rw [count_cons, count_cons, Nat.add_right_cancel_iff] at hcount
      obtain ⟨rfl, rfl⟩ := ih hcount hrest
      exact ⟨rfl, rfl⟩

/-- A number is a text without separators, if these are no digits. -/
theorem count_toString {sep} (hsep : sep.isDigit = false) (n : Nat) : (toString n).toList.count sep = 0 := by
  rw [count_eq_zero, Nat.toString_eq_ofList_toDigits, String.toList_ofList]
  intro hmem
  rw [Nat.isDigit_of_mem_toDigits (by decide) (by decide) hmem] at hsep
  cases hsep

theorem toString_injective {n m : Nat} (h : toString n = toString m) : n = m := by
  rw [Nat.toString_eq_ofList_toDigits, Nat.toString_eq_ofList_toDigits, String.ofList_inj] at h
  rw [← Nat.ofDigitChars_ten_toDigits (n := n), h, Nat.ofDigitChars_ten_toDigits]

end Joined

end Format
