import AttributeStore.Proofs.DecimalGrammar
import AttributeStore.Proofs.Nearest
import AttributeStore.Value.Coercion

/-!
# The grammar of floating-point literals

The texts that are read as floating-point numbers are given by a grammar, together with what they
denote.  A literal is one of two words or a decimal, with an optional sign in front of it; a decimal
may have an exponent, and one letter may follow it.  White space around a literal is dropped.  A
string is read as a number of either format if and only if it is such a literal, and what it is read
as is the number nearest to the decimal, however long the text and however large its exponent.

## Main definitions

* `Decimal.Denotes`: the literals and what they denote.
* `Decimal.Literal.RoundsTo`: the number of a format that a literal is read as.

## Main results

* `Decimal.readBinary?_eq_some_iff`: what a text is read as.
* `Decimal.coerce?_literal`: both floating-point kinds accept the same strings and round what these
  denote.
-/

namespace AttributeStore.Decimal

open Text (IsSign IsInteger)

/-! ### Literals -/

/-- What a literal denotes. -/
inductive Literal where
  /-- One of the two infinities. -/
  | infinity (negative : Bool)
  /-- No number. -/
  | nan
  /-- A decimal by its sign and its absolute value. -/
  | decimal (negative : Bool) (q : ℚ)

/-- The literals, and what they denote.  The letter behind a decimal does not change it. -/
inductive Denotes : List Char → Literal → Prop
  | infinity {sign : List Char} {negative : Bool} (hsign : IsSign sign negative) :
      Denotes (sign ++ ['I', 'n', 'f', 'i', 'n', 'i', 't', 'y']) (.infinity negative)
  | nan {sign : List Char} {negative : Bool} (hsign : IsSign sign negative) :
      Denotes (sign ++ ['N', 'a', 'N']) .nan
  | decimal {sign text letter : List Char} {negative : Bool} {d : Scientific}
      (hsign : IsSign sign negative) (hdecimal : IsDecimal text d)
      (hletter : letter ∈ typeLetters) :
      Denotes (sign ++ (text ++ letter)) (.decimal negative d.value)

/-- The characters that a literal can start with. -/
def isLiteralStart (c : Char) : Bool :=
  c.isDigit || c = '.' || c = '+' || c = '-' || c = 'I' || c = 'N'

theorem Denotes.head? {text : List Char} {l : Literal} (h : Denotes text l) :
    ∃ c ∈ text.head?, isLiteralStart c := by
  have hsigned {sign rest : List Char} {negative : Bool} (hsign : IsSign sign negative)
      (hrest : ∃ c ∈ rest.head?, isLiteralStart c) :
      ∃ c ∈ (sign ++ rest).head?, isLiteralStart c := by
    cases hsign with
    | missing => exact hrest
    | plus => exact ⟨'+', rfl, rfl⟩
    | minus => exact ⟨'-', rfl, rfl⟩
  cases h with
  | infinity hsign => exact hsigned hsign ⟨'I', rfl, rfl⟩
  | nan hsign => exact hsigned hsign ⟨'N', rfl, rfl⟩
  | decimal hsign hdecimal _ =>
    obtain ⟨c, hc, hdigit⟩ := hdecimal.head?
    refine hsigned hsign ⟨c, List.mem_head?_append_of_mem_head? hc, ?_⟩
    rcases hdigit with hdigit | rfl
    · simp [isLiteralStart, hdigit]
    · rfl

/-- A literal that is no word has a digit. -/
theorem Denotes.exists_isDigit {text : List Char} {l : Literal} (h : Denotes text l)
    (hlength : text.length < 3) : ∃ c ∈ text, c.isDigit := by
  cases h with
  | infinity _ | nan _ =>
    simp only [List.length_append, List.length_cons, List.length_nil] at hlength
    omega
  | decimal _ hdecimal _ =>
    obtain ⟨c, hc, hdigit⟩ := hdecimal.exists_isDigit
    exact ⟨c, List.mem_append_right _ (List.mem_append_left _ hc), hdigit⟩

/-- The text of an integer is a literal, without white space around it. -/
theorem exists_denotes_of_isInteger {text : List Char} {n : Int} (h : IsInteger text n) :
    ∃ l, Denotes (Text.trim text) l := by
  rw [Text.trim_of_not_isBlank fun _ => h.isBlank_of_mem]
  obtain ⟨hsign, hdigits⟩ := h
  have hdecimal := IsDecimal.intro (.whole hdigits) .missing
  have hdenotes := Denotes.decimal hsign hdecimal List.mem_cons_self
  simp only [List.append_nil] at hdenotes
  exact ⟨_, hdenotes⟩

/-- The number of a format that a literal is read as. -/
def Literal.RoundsTo {f : Binary.Format} : Literal → Binary f → Prop
  | infinity negative, x => x = .infinite negative
  | nan, x => x = .nan
  | decimal negative q, x => Binary.IsRounded negative q x

section

variable {f : Binary.Format} {text : List Char} {l : Literal} {x y : Binary f}

theorem Literal.RoundsTo.unique (h : l.RoundsTo x) (h' : l.RoundsTo y) : x = y := by
  cases l with
  | infinity negative => exact h.trans h'.symm
  | nan => exact h.trans h'.symm
  | decimal negative q => exact Binary.IsRounded.unique h h'

/-- A literal without white space around it is read as what it denotes. -/
theorem exists_readBinary?_of_denotes (hf : 0 < f.fractionBits)
    (h : Denotes (Text.trim text) l) : ∃ x, readBinary? f text = some x ∧ l.RoundsTo x := by
  generalize htrim : Text.trim text = t at h
  cases h with
  | infinity hsign =>
    rw [readBinary?_eq_readLiteral?, readLiteral?, htrim, hsign.splitSign_append (by simp)]
    exact ⟨_, if_pos rfl, rfl⟩
  | nan hsign =>
    rw [readBinary?_eq_readLiteral?, readLiteral?, htrim, hsign.splitSign_append (by simp)]
    exact ⟨_, (if_neg (by simp)).trans (if_pos rfl), rfl⟩
  | decimal hsign hdecimal hletter =>
    exact ⟨_, readBinary?_of_isDecimal f hsign hdecimal hletter htrim,
      Binary.isRounded_ofScientific hf _ _⟩

/-- What is read as a number is a literal that denotes it. -/
theorem exists_denotes_of_readBinary? (hf : 0 < f.fractionBits)
    (h : readBinary? f text = some x) : ∃ l, Denotes (Text.trim text) l ∧ l.RoundsTo x := by
  obtain ⟨sign, negative, body, hsplit, hsign, htrim⟩ :=
    Text.exists_splitSign_eq (Text.trim text)
  rw [htrim]
  simp only [readBinary?_eq_readLiteral?, readLiteral?, hsplit] at h
  split at h
  next hbody =>
    cases h
    exact ⟨.infinity negative, hbody ▸ .infinity hsign, rfl⟩
  next =>
    split at h
    next hbody =>
      cases h
      exact ⟨.nan, hbody ▸ .nan hsign, rfl⟩
    next =>
      obtain ⟨d, hd, rfl⟩ := Option.map_eq_some_iff.1 h
      obtain ⟨letter, hletter, hbody⟩ := exists_typeLetter body
      rw [hbody]
      exact ⟨_, .decimal hsign (readUnsigned?_eq_some_iff.1 hd) hletter,
        Binary.isRounded_ofScientific hf _ d⟩

/-- What a text is read as. -/
theorem readBinary?_eq_some_iff (hf : 0 < f.fractionBits) :
    readBinary? f text = some x ↔ ∃ l, Denotes (Text.trim text) l ∧ l.RoundsTo x := by
  refine ⟨exists_denotes_of_readBinary? hf, ?_⟩
  rintro ⟨l, hdenotes, hrounds⟩
  obtain ⟨y, hread, hy⟩ := exists_readBinary?_of_denotes hf hdenotes
  rwa [hrounds.unique hy]

/-- The texts that are read as numbers. -/
theorem isSome_readBinary?_iff (hf : 0 < f.fractionBits) :
    (readBinary? f text).isSome ↔ ∃ l, Denotes (Text.trim text) l := by
  rw [Option.isSome_iff_exists]
  constructor
  · rintro ⟨x, hread⟩
    obtain ⟨l, hdenotes, -⟩ := exists_denotes_of_readBinary? hf hread
    exact ⟨l, hdenotes⟩
  · rintro ⟨l, hdenotes⟩
    obtain ⟨x, hread, -⟩ := exists_readBinary?_of_denotes hf hdenotes
    exact ⟨x, hread⟩

/-- Texts that denote the same are read alike. -/
theorem readBinary?_congr (hf : 0 < f.fractionBits) {text' : List Char}
    (h : Denotes (Text.trim text) l) (h' : Denotes (Text.trim text') l) :
    readBinary? f text = readBinary? f text' := by
  obtain ⟨x, hread, hx⟩ := exists_readBinary?_of_denotes hf h
  obtain ⟨y, hread', hy⟩ := exists_readBinary?_of_denotes hf h'
  rw [hread, hread', hx.unique hy]

end

/-- A string without the white space at its ends is a literal if and only if the string is read as a
number, and this is so for both floating-point kinds.  It is read as the number nearest to what the
literal denotes, as is every other string of such a literal. -/
theorem coerce?_literal (s : String) :
    ∃ t, Text.Strips s.toList t ∧ (∀ t', Text.Strips s.toList t' → t' = t) ∧
      (((Value.string s).coerce? .float).isSome ↔ ∃ l, Denotes t l) ∧
      (((Value.string s).coerce? .double).isSome ↔ ∃ l, Denotes t l) ∧
      ∀ l, Denotes t l →
        (∃ x, (Value.string s).coerce? .float = some x ∧ l.RoundsTo x) ∧
        (∃ x, (Value.string s).coerce? .double = some x ∧ l.RoundsTo x) ∧
        ∀ s' t', Text.Strips s'.toList t' → Denotes t' l →
          (Value.string s').coerce? .float = (Value.string s).coerce? .float ∧
          (Value.string s').coerce? .double = (Value.string s).coerce? .double := by
  have hsingle : 0 < Binary.Format.single.fractionBits := by decide
  have hdouble : 0 < Binary.Format.double.fractionBits := by decide
  refine ⟨Text.trim s.toList, Text.strips_trim _, fun t' => Text.Strips.eq_trim,
    isSome_readBinary?_iff hsingle, isSome_readBinary?_iff hdouble, fun l hdenotes =>
      ⟨exists_readBinary?_of_denotes hsingle hdenotes,
        exists_readBinary?_of_denotes hdouble hdenotes, ?_⟩⟩
  intro s' t' hstrips hdenotes'
  rw [hstrips.eq_trim] at hdenotes'
  exact ⟨readBinary?_congr hsingle hdenotes' hdenotes,
    readBinary?_congr hdouble hdenotes' hdenotes⟩

/-- A letter and white space around a decimal make no difference, not even the letter of the other
kind. -/
example : (Value.string " 1.5d\n").coerce? .float = (Value.string "1.5").coerce? .float := by
  decide +kernel

end AttributeStore.Decimal
