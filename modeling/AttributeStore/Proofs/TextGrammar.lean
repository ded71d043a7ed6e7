import AttributeStore.Text.Blank
import AttributeStore.Text.Numeral
import Mathlib.Data.List.Basic
import Mathlib.Data.List.Forall2
import Mathlib.Data.List.TakeWhile
import Mathlib.Tactic.ByContra

/-!
# Signs, integers, words and white space

The parts that the texts of primitives are made of, each given by a rule and not by a function that
reads it.

## Main definitions

* `Text.IsSign`, `Text.IsInteger`: an optional sign, and one in front of digits.
* `Text.IsWord`: a word in either case.
* `Text.Strips`: a text without the white space at its ends.

## Main results

* `Text.readInteger?_eq_some_iff`: the texts that are read as integers.
* `Text.map_toLower_eq_iff`: the texts that are a word in lower case.
* `Text.strips_trim`, `Text.Strips.eq_trim`: trimming a text strips it, and this is the only way to
  strip it.
-/

namespace AttributeStore

/-! ### Runs of characters -/

section Runs

variable {p : Char → Bool} {run rest : List Char}

theorem takeWhile_append_of_head? (hrun : ∀ c ∈ run, p c) (hrest : ∀ c ∈ rest.head?, p c = false) :
    (run ++ rest).takeWhile p = run := by
  rw [List.takeWhile_append_of_pos hrun]
  cases rest with
  | nil => simp
  | cons c rest => simp [hrest c rfl]

theorem dropWhile_append_of_head? (hrun : ∀ c ∈ run, p c) (hrest : ∀ c ∈ rest.head?, p c = false) :
    (run ++ rest).dropWhile p = rest := by
  rw [List.dropWhile_append_of_pos hrun]
  cases rest with
  | nil => simp
  | cons c rest => simp [hrest c rfl]

end Runs

namespace Text

/-! ### Signs and integers -/

/-- An optional sign, and whether it is a minus. -/
inductive IsSign : List Char → Bool → Prop
  | missing : IsSign [] false
  | plus : IsSign ['+'] false
  | minus : IsSign ['-'] true

/-- One or more digits. -/
structure IsDigits (text : List Char) : Prop where
  ne_nil : text ≠ []
  isDigit : ∀ c ∈ text, c.isDigit

/-- The text of an integer: digits with an optional sign in front of them, and nothing else. -/
inductive IsInteger : List Char → Int → Prop
  | intro {sign digits : List Char} {negative : Bool} (hsign : IsSign sign negative)
      (hdigits : IsDigits digits) :
      IsInteger (sign ++ digits) (signed negative (digitsValue digits))

section

variable {sign rest text : List Char} {negative : Bool} {c : Char} {n : Int}

/-- What is split off is a sign. -/
theorem exists_splitSign_eq (text : List Char) :
    ∃ sign negative rest, splitSign text = (negative, rest) ∧ IsSign sign negative ∧
      text = sign ++ rest := by
  unfold splitSign
  split
  next rest => exact ⟨['-'], true, rest, rfl, .minus, rfl⟩
  next rest => exact ⟨['+'], false, rest, rfl, .plus, rfl⟩
  next => exact ⟨[], false, text, rfl, .missing, rfl⟩

/-- A sign is split off from what does not start with a sign itself. -/
theorem IsSign.splitSign_append (h : IsSign sign negative)
    (hrest : ∀ c ∈ rest.head?, c ≠ '-' ∧ c ≠ '+') :
    splitSign (sign ++ rest) = (negative, rest) := by
  cases h with
  | missing =>
    rw [List.nil_append]
    unfold splitSign
    split
    · exact absurd rfl (hrest '-' rfl).1
    · exact absurd rfl (hrest '+' rfl).2
    · rfl
  | plus => rfl
  | minus => rfl

theorem toNat_of_isDigit (h : c.isDigit) : 0x30 ≤ c.toNat ∧ c.toNat ≤ 0x39 :=
  Char.isDigit_iff_toNat.1 h

theorem ne_sign_of_isDigit (h : c.isDigit) : c ≠ '-' ∧ c ≠ '+' := by
  constructor <;> rintro rfl <;> cases h

theorem IsDigits.isDigit_of_mem_head? (h : IsDigits text) (hc : c ∈ text.head?) : c.isDigit :=
  h.isDigit c (List.mem_of_mem_head? hc)

theorem IsDigits.isDigit_of_mem_getLast? (h : IsDigits text) (hc : c ∈ text.getLast?) :
    c.isDigit :=
  h.isDigit c (List.mem_of_getLast? hc)

/-- The texts that are read as integers. -/
theorem readInteger?_eq_some_iff : readInteger? text = some n ↔ IsInteger text n := by
  constructor
  · intro h
    obtain ⟨sign, negative, digits, hsplit, hsign, rfl⟩ := exists_splitSign_eq text
    simp only [readInteger?, hsplit, Option.ite_none_right_eq_some, Option.some.injEq] at h
    obtain ⟨⟨hne, hall⟩, rfl⟩ := h
    exact .intro hsign ⟨hne, List.all_eq_true.1 hall⟩
  · rintro ⟨hsign, hdigits⟩
    rw [readInteger?, hsign.splitSign_append fun c hc =>
      ne_sign_of_isDigit (hdigits.isDigit_of_mem_head? hc)]
    exact if_pos ⟨hdigits.ne_nil, List.all_eq_true.2 hdigits.isDigit⟩

theorem IsInteger.ne_nil (h : IsInteger text n) : text ≠ [] := by
  obtain ⟨-, hdigits⟩ := h
  exact List.append_ne_nil_of_right_ne_nil _ hdigits.ne_nil

/-- The text of an integer is made of digits and signs. -/
theorem IsInteger.mem_cases (h : IsInteger text n) (hc : c ∈ text) :
    c.isDigit ∨ c = '+' ∨ c = '-' := by
  obtain ⟨hsign, hdigits⟩ := h
  rcases List.mem_append.1 hc with hc | hc
  · cases hsign with
    | missing => cases hc
    | plus => exact .inr (.inl (List.mem_singleton.1 hc))
    | minus => exact .inr (.inr (List.mem_singleton.1 hc))
  · exact .inl (hdigits.isDigit c hc)

/-- The last character of an integer is a digit. -/
theorem IsInteger.isDigit_of_mem_getLast? (h : IsInteger text n) (hc : c ∈ text.getLast?) :
    c.isDigit := by
  obtain ⟨-, hdigits⟩ := h
  rw [List.getLast?_append_of_ne_nil _ hdigits.ne_nil] at hc
  exact hdigits.isDigit_of_mem_getLast? hc

theorem digitsValue_singleton_lt (h : c.isDigit) : digitsValue [c] < 10 := by
  have hcode := toNat_of_isDigit h
  have hzero : '0'.toNat = 0x30 := rfl
  rw [digitsValue, Nat.ofDigitChars_cons, Nat.ofDigitChars_nil]
  omega

end

/-! ### Words -/

/-- A text that is a word of lower-case letters, each of them in lower or in upper case.  The code
point of a lower-case letter is by 32 larger than the one of its upper-case letter. -/
def IsWord (word text : List Char) : Prop :=
  List.Forall₂ (fun c letter => c = letter ∨ c.toNat + 32 = letter.toNat) text word

theorem toNat_toLower (c : Char) :
    c.toLower.toNat = if 65 ≤ c.toNat ∧ c.toNat ≤ 90 then c.toNat + 32 else c.toNat := by
  unfold Char.toLower
  split
  next h =>
    have hupper : 65 ≤ c.toNat ∧ c.toNat ≤ 90 := h
    have hshift : ('a'.val - 'A'.val).toNat = 32 := by decide
    rw [if_pos hupper, ← Char.toNat_val, UInt32.toNat_add, Char.toNat_val, hshift]
    omega
  next h => exact (if_neg h).symm

/-- The lower-case letters have the code points from 97 to 122. -/
theorem toLower_eq_iff {letter : Char} (h : 97 ≤ letter.toNat ∧ letter.toNat ≤ 122) {c : Char} :
    c.toLower = letter ↔ c = letter ∨ c.toNat + 32 = letter.toNat := by
  rw [← Char.toNat_inj, ← Char.toNat_inj, toNat_toLower]
  split <;> omega

/-- The texts that are a word in lower case. -/
theorem map_toLower_eq_iff {word : List Char} (h : ∀ c ∈ word, 97 ≤ c.toNat ∧ c.toNat ≤ 122)
    {text : List Char} : text.map Char.toLower = word ↔ IsWord word text := by
  induction word generalizing text with
  | nil => rw [List.map_eq_nil_iff, IsWord, List.forall₂_nil_right_iff]
  | cons letter word ih =>
    cases text with
    | nil => simp only [List.map_nil, List.nil_eq, reduceCtorEq, IsWord, List.forall₂_nil_left_iff]
    | cons c text =>
      rw [List.map_cons, List.cons.injEq, toLower_eq_iff (h letter List.mem_cons_self),
        ih fun c hc => h c (List.mem_cons_of_mem _ hc), IsWord, IsWord, List.forall₂_cons]

/-! ### White space at the ends -/

theorem trim_of_not_isBlank {text : List Char} (h : ∀ c ∈ text, isBlank c = false) :
    trim text = text := by
  have hleft {text : List Char} (h : ∀ c ∈ text, isBlank c = false) : trimLeft text = text := by
    cases text with
    | nil => rfl
    | cons c rest => simp [trimLeft, h c List.mem_cons_self]
  rw [trim, hleft h, hleft (fun c hc => h c (List.mem_reverse.1 hc)), List.reverse_reverse]

/-- The characters from the plus sign to the small letters are not blank. -/
theorem isBlank_of_mem_range {c : Char} (h : 0x2B ≤ c.toNat ∧ c.toNat ≤ 0x7A) :
    isBlank c = false := by
  by_contra hblank
  simp [isBlank, blankRanges] at hblank
  omega

/-- In the text of an integer nothing is blank. -/
theorem IsInteger.isBlank_of_mem {text : List Char} {n : Int} (h : IsInteger text n) {c : Char}
    (hc : c ∈ text) : isBlank c = false := by
  rcases h.mem_cases hc with hdigit | rfl | rfl
  · have hcode := toNat_of_isDigit hdigit
    exact isBlank_of_mem_range (by omega)
  all_goals rfl

/-- `Strips text t` says that `t` is left of a text when the white space at its ends is taken
away. -/
structure Strips (text t : List Char) : Prop where
  exists_eq_append : ∃ front back, (∀ c ∈ front, isBlank c) ∧ (∀ c ∈ back, isBlank c) ∧
    text = front ++ (t ++ back)
  head_not_blank : ∀ c ∈ t.head?, isBlank c = false
  last_not_blank : ∀ c ∈ t.getLast?, isBlank c = false

section

variable {text t : List Char}

theorem strips_trim (text : List Char) : Strips text (trim text) := by
  have hhead (text : List Char) : ∀ c ∈ (trimLeft text).head?, isBlank c = false := by
    intro c hc
    have hnot := List.head?_dropWhile_not isBlank text
    rw [trimLeft, Option.mem_def] at hc
    simpa [hc] using hnot
  have hblank (text : List Char) : ∀ c ∈ text.takeWhile isBlank, isBlank c :=
    fun c hc => List.all_eq_true.1 List.all_takeWhile c hc
  have hsplit (text : List Char) : text = text.takeWhile isBlank ++ trimLeft text :=
    List.takeWhile_append_dropWhile.symm
  have hright : trimLeft text =
      trim text ++ ((trimLeft text).reverse.takeWhile isBlank).reverse := by
    rw [trim, ← List.reverse_append, ← hsplit, List.reverse_reverse]
  refine ⟨⟨text.takeWhile isBlank, ((trimLeft text).reverse.takeWhile isBlank).reverse,
    hblank text, fun c hc => hblank _ c (List.mem_reverse.1 hc), ?_⟩, ?_, ?_⟩
  · rw [← hright]
    exact hsplit text
  · intro c hc
    refine hhead text c ?_
    rw [hright, List.head?_append, Option.mem_def.1 hc, Option.some_or]
    rfl
  · intro c hc
    rw [trim, List.getLast?_reverse] at hc
    exact hhead _ c hc

theorem Strips.eq_trim (h : Strips text t) : t = trim text := by
  obtain ⟨⟨front, back, hfront, hback, rfl⟩, hhead, hlast⟩ := h
  cases t with
  | nil =>
    -- All characters are blank.
    have hall : ∀ c ∈ front ++ back, isBlank c := fun c hc =>
      (List.mem_append.1 hc).elim (hfront c) (hback c)
    have hnil : trimLeft (front ++ back) = [] := List.dropWhile_eq_nil_iff.2 hall
    rw [List.nil_append, trim, hnil]
    rfl
  | cons c rest =>
    have hleft : trimLeft (front ++ (c :: rest ++ back)) = c :: rest ++ back :=
      dropWhile_append_of_head? hfront hhead
    have hright : trimLeft (back.reverse ++ (c :: rest).reverse) = (c :: rest).reverse :=
      dropWhile_append_of_head? (fun c hc => hback c (List.mem_reverse.1 hc))
        (by rwa [List.head?_reverse])
    rw [trim, hleft, List.reverse_append, hright, List.reverse_reverse]

/-- What is left stands in the text. -/
theorem trim_isInfix (text : List Char) : trim text <:+: text := by
  obtain ⟨⟨front, back, -, -, htext⟩, -, -⟩ := strips_trim text
  exact ⟨front, back, by rw [List.append_assoc, ← htext]⟩

/-- A text that does not start with white space keeps its first character. -/
theorem head?_trim_cons {c : Char} (h : isBlank c = false) (rest : List Char) :
    (trim (c :: rest)).head? = some c := by
  obtain ⟨⟨front, back, hfront, hback, htext⟩, -, -⟩ := strips_trim (c :: rest)
  cases front with
  | cons b front =>
    obtain ⟨rfl, -⟩ := List.cons.inj htext
    cases h.symm.trans (hfront c List.mem_cons_self)
  | nil =>
    cases htrim : trim (c :: rest) with
    | nil =>
      -- Then all characters are blank, and the first one with them.
      rw [htrim, List.nil_append, List.nil_append] at htext
      cases h.symm.trans (hback c (htext ▸ List.mem_cons_self))
    | cons b t =>
      rw [htrim] at htext
      exact congrArg some (List.cons.inj htext).1.symm

end

end Text

end AttributeStore
