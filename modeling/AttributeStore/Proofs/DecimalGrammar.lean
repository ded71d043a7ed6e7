import AttributeStore.Decimal.Literal
import AttributeStore.Proofs.TextGrammar

/-!
# The grammar of decimals

The texts that are read as decimals without a sign, and the letters that may follow them.  A decimal
has digits with at most one point among them, and perhaps an exponent.  Literals are read in stages,
first by their characters and then by a reader that takes more than literals, but these stages do no
more than one pass over the sign, the decimal and the letter.

## Main definitions

* `Decimal.IsMantissa`, `Decimal.IsExponent`: the two parts of a decimal.
* `Decimal.IsDecimal`: the texts of decimals without a sign, and the decimals that they denote.
* `Decimal.typeLetters`: what may follow a decimal.
* `Decimal.readLiteral?`: the reader of literals in one pass.

## Main results

* `Decimal.readUnsigned?_eq_some_iff`: the texts that are read as decimals without a sign.
* `Decimal.readBinary?_eq_readLiteral?`: the stages of reading do what one pass does.
* `Decimal.readBinary?_of_isDecimal`: a decimal with its sign and a letter is rounded.
-/

namespace AttributeStore.Decimal

open Text (IsSign IsDigits IsInteger)

/-! ### Runs of digits -/

section

variable {run rest text : List Char}

theorem splitDigits_append (hrun : ∀ c ∈ run, c.isDigit)
    (hrest : ∀ c ∈ rest.head?, c.isDigit = false) : splitDigits (run ++ rest) = (run, rest) := by
  rw [splitDigits, takeWhile_append_of_head? hrun hrest, dropWhile_append_of_head? hrun hrest]

theorem splitDigits_eq (h : splitDigits text = (run, rest)) :
    (∀ c ∈ run, c.isDigit) ∧ text = run ++ rest := by
  obtain ⟨rfl, rfl⟩ := Prod.mk.injEq .. ▸ h
  exact ⟨List.all_eq_true.1 List.all_takeWhile, List.takeWhile_append_dropWhile.symm⟩

end

/-! ### Decimals without a sign -/

/-- Digits with at most one point.  `IsMantissa text whole fraction` also says which of the digits
stand in front of the point and which behind it. -/
inductive IsMantissa : List Char → List Char → List Char → Prop
  | whole {whole : List Char} (hwhole : IsDigits whole) : IsMantissa whole whole []
  | pointed {whole fraction : List Char} (hwhole : IsDigits whole)
      (hfraction : ∀ c ∈ fraction, c.isDigit) : IsMantissa (whole ++ '.' :: fraction) whole fraction
  | fraction {fraction : List Char} (hfraction : IsDigits fraction) :
      IsMantissa ('.' :: fraction) [] fraction

/-- An optional exponent behind its mark. -/
inductive IsExponent : List Char → Int → Prop
  | missing : IsExponent [] 0
  | marked {mark : Char} {text : List Char} {exponent : Int} (hmark : mark = 'e' ∨ mark = 'E')
      (hinteger : IsInteger text exponent) : IsExponent (mark :: text) exponent

/-- The text of a decimal without a sign. -/
inductive IsDecimal : List Char → Scientific → Prop
  | intro {mantissa whole fraction exponentText : List Char} {exponent : Int}
      (hmantissa : IsMantissa mantissa whole fraction)
      (hexponent : IsExponent exponentText exponent) :
      IsDecimal (mantissa ++ exponentText)
        ⟨Text.digitsValue (whole ++ fraction), exponent - fraction.length⟩

section

variable {mantissa whole fraction rest text : List Char} {exponent : Int} {d : Scientific}
  {c : Char}

theorem IsMantissa.not_both_nil (h : IsMantissa mantissa whole fraction) :
    ¬ (whole = [] ∧ fraction = []) := by
  cases h with
  | whole hwhole => exact fun hnil => hwhole.ne_nil hnil.1
  | pointed hwhole _ => exact fun hnil => hwhole.ne_nil hnil.1
  | fraction hfraction => exact fun hnil => hfraction.ne_nil hnil.2

/-- A mantissa is split at its point. -/
theorem IsMantissa.split (h : IsMantissa mantissa whole fraction)
    (hrest : ∀ c ∈ rest.head?, c.isDigit = false ∧ c ≠ '.') :
    ∃ afterWhole, splitDigits (mantissa ++ rest) = (whole, afterWhole) ∧
      splitFraction afterWhole = (fraction, rest) := by
  have hend : ∀ c ∈ rest.head?, c.isDigit = false := fun c hc => (hrest c hc).1
  have hpoint (tail : List Char) : ∀ c ∈ ('.' :: tail).head?, c.isDigit = false := by
    rintro c ⟨⟩
    rfl
  cases h with
  | whole hwhole =>
    refine ⟨rest, splitDigits_append hwhole.isDigit hend, ?_⟩
    unfold splitFraction
    split
    · exact absurd rfl (hrest '.' rfl).2
    · rfl
  | pointed hwhole hfraction =>
    refine ⟨'.' :: (fraction ++ rest), ?_, splitDigits_append hfraction hend⟩
    rw [List.append_assoc, List.cons_append]
    exact splitDigits_append hwhole.isDigit (hpoint _)
  | fraction hfraction =>
    refine ⟨'.' :: (fraction ++ rest), ?_, splitDigits_append hfraction.isDigit hend⟩
    exact splitDigits_append (List.forall_mem_nil _) (hpoint _)

/-- What is split at a point is a mantissa, unless there are no digits. -/
theorem exists_isMantissa_of_split (hne : ¬ (whole = [] ∧ fraction = []))
    {afterWhole : List Char} (hsplit : splitDigits text = (whole, afterWhole))
    (hpoint : splitFraction afterWhole = (fraction, rest)) :
    ∃ mantissa, IsMantissa mantissa whole fraction ∧ text = mantissa ++ rest := by
  obtain ⟨hwhole, rfl⟩ := splitDigits_eq hsplit
  unfold splitFraction at hpoint
  split at hpoint
  next tail =>
    obtain ⟨hfraction, rfl⟩ := splitDigits_eq hpoint
    by_cases hnil : whole = []
    · subst hnil
      exact ⟨_, .fraction ⟨fun hnil => hne ⟨rfl, hnil⟩, hfraction⟩, rfl⟩
    · exact ⟨_, .pointed ⟨hnil, hwhole⟩ hfraction, by rw [List.append_assoc, List.cons_append]⟩
  next =>
    obtain ⟨rfl, rfl⟩ := Prod.mk.injEq .. ▸ hpoint
    exact ⟨_, .whole ⟨fun hnil => hne ⟨hnil, rfl⟩, hwhole⟩, rfl⟩

theorem readExponent?_eq_some_iff :
    readExponent? text = some exponent ↔ IsExponent text exponent := by
  cases text with
  | nil =>
    rw [readExponent?, Option.some.injEq]
    constructor
    · rintro rfl
      exact .missing
    · rintro ⟨⟩
      rfl
  | cons mark text =>
    rw [readExponent?, Option.ite_none_right_eq_some, Text.readInteger?_eq_some_iff]
    constructor
    · rintro ⟨hmark, hinteger⟩
      exact .marked hmark hinteger
    · rintro ⟨⟩
      exact ⟨‹_›, ‹_›⟩

theorem IsExponent.head? (h : IsExponent text exponent) (hc : c ∈ text.head?) :
    c.isDigit = false ∧ c ≠ '.' := by
  cases h with
  | missing => cases hc
  | marked hmark _ =>
    cases hc
    rcases hmark with rfl | rfl <;> decide

/-- The texts that are read as decimals without a sign. -/
theorem readUnsigned?_eq_some_iff : readUnsigned? text = some d ↔ IsDecimal text d := by
  constructor
  · intro h
    cases hsplit : splitDigits text with
    | mk whole afterWhole =>
      cases hpoint : splitFraction afterWhole with
      | mk fraction rest =>
        simp only [readUnsigned?, hsplit, hpoint, Option.ite_none_left_eq_some] at h
        obtain ⟨hne, hmap⟩ := h
        obtain ⟨exponent, hexponent, rfl⟩ := Option.map_eq_some_iff.1 hmap
        obtain ⟨mantissa, hmantissa, rfl⟩ := exists_isMantissa_of_split hne hsplit hpoint
        exact .intro hmantissa (readExponent?_eq_some_iff.1 hexponent)
  · rintro ⟨hmantissa, hexponent⟩
    obtain ⟨afterWhole, hwhole, hfraction⟩ := hmantissa.split fun _ => hexponent.head?
    simp only [readUnsigned?, hwhole, hfraction, if_neg hmantissa.not_both_nil,
      readExponent?_eq_some_iff.2 hexponent, Option.map_some]

/-- A decimal starts with a digit or with its point. -/
theorem IsDecimal.head? (h : IsDecimal text d) : ∃ c ∈ text.head?, c.isDigit ∨ c = '.' := by
  have hdigits {run : List Char} (hrun : IsDigits run) (rest : List Char) :
      ∃ c ∈ (run ++ rest).head?, c.isDigit ∨ c = '.' := by
    obtain ⟨c, run, rfl⟩ := List.exists_cons_of_ne_nil hrun.ne_nil
    exact ⟨c, rfl, .inl (hrun.isDigit c List.mem_cons_self)⟩
  obtain ⟨hmantissa, -⟩ := h
  cases hmantissa with
  | whole hwhole => exact hdigits hwhole _
  | pointed hwhole _ =>
    rw [List.append_assoc]
    exact hdigits hwhole _
  | fraction _ => exact ⟨'.', rfl, .inr rfl⟩

theorem IsDecimal.exists_isDigit (h : IsDecimal text d) : ∃ c ∈ text, c.isDigit := by
  have hdigits {run : List Char} (hrun : IsDigits run) : ∃ c ∈ run, c.isDigit := by
    obtain ⟨c, hc⟩ := List.exists_mem_of_ne_nil run hrun.ne_nil
    exact ⟨c, hc, hrun.isDigit c hc⟩
  obtain ⟨hmantissa, -⟩ := h
  cases hmantissa with
  | whole hwhole =>
    obtain ⟨c, hc, hdigit⟩ := hdigits hwhole
    exact ⟨c, List.mem_append_left _ hc, hdigit⟩
  | pointed hwhole _ =>
    obtain ⟨c, hc, hdigit⟩ := hdigits hwhole
    exact ⟨c, List.mem_append_left _ (List.mem_append_left _ hc), hdigit⟩
  | fraction hfraction =>
    obtain ⟨c, hc, hdigit⟩ := hdigits hfraction
    exact ⟨c, List.mem_append_left _ (List.mem_cons_of_mem _ hc), hdigit⟩

/-- A mantissa is made of digits and a point. -/
theorem IsMantissa.mem_cases (h : IsMantissa mantissa whole fraction) (hc : c ∈ mantissa) :
    c.isDigit ∨ c = '.' := by
  cases h with
  | whole hwhole => exact .inl (hwhole.isDigit c hc)
  | pointed hwhole hfraction =>
    rcases List.mem_append.1 hc with hc | hc
    · exact .inl (hwhole.isDigit c hc)
    · exact (List.mem_cons.1 hc).symm.imp_left (hfraction c)
  | fraction hfraction => exact (List.mem_cons.1 hc).symm.imp_left (hfraction.isDigit c)

/-- A decimal ends with a digit or with its point. -/
theorem IsDecimal.getLast? (h : IsDecimal text d) (hc : c ∈ text.getLast?) :
    c.isDigit ∨ c = '.' := by
  obtain ⟨hmantissa, hexponent⟩ := h
  cases hexponent with
  | missing =>
    rw [List.append_nil] at hc
    exact hmantissa.mem_cases (List.mem_of_getLast? hc)
  | marked _ hinteger =>
    rw [List.append_cons, List.getLast?_append_of_ne_nil _ hinteger.ne_nil] at hc
    exact .inl (hinteger.isDigit_of_mem_getLast? hc)

end

/-! ### The letter behind a decimal -/

/-- One of four letters, or nothing. -/
def typeLetters : List (List Char) := [[], ['f'], ['F'], ['d'], ['D']]

section

variable {text letter : List Char}

/-- What is dropped from a text is one of the letters, or nothing. -/
theorem exists_typeLetter (text : List Char) :
    ∃ letter ∈ typeLetters, text = dropTypeLetter text ++ letter := by
  unfold dropTypeLetter
  split
  next hnil => exact ⟨[], by simp [typeLetters], by simpa using hnil⟩
  next last rest heq =>
    have htext : text = rest.reverse ++ [last] := by
      rw [← List.reverse_reverse text, heq, List.reverse_cons]
    split
    next hletter =>
      refine ⟨[last], ?_, htext⟩
      simpa [typeLetters, isTypeLetter, or_assoc] using hletter
    next => exact ⟨[], by simp [typeLetters], by simp⟩

/-- From a text that ends with a digit or a point no more than the letter behind it is dropped. -/
theorem dropTypeLetter_append (hlast : ∀ c ∈ text.getLast?, c.isDigit ∨ c = '.')
    (h : letter ∈ typeLetters) : dropTypeLetter (text ++ letter) = text := by
  have hletters : letter = [] ∨ ∃ c, isTypeLetter c = true ∧ letter = [c] := by
    simp only [typeLetters, List.mem_cons, List.not_mem_nil, or_false] at h
    rcases h with rfl | rfl | rfl | rfl | rfl
    · exact .inl rfl
    all_goals exact .inr ⟨_, rfl, rfl⟩
  unfold dropTypeLetter
  rcases hletters with rfl | ⟨c, hc, rfl⟩
  · rw [List.append_nil]
    split
    next hnil => exact (List.reverse_eq_nil_iff.1 hnil).symm
    next last rest heq =>
      refine if_neg fun hletter => ?_
      rcases hlast last (by rw [← List.head?_reverse, heq]; rfl) with hdigit | rfl
      · simp only [isTypeLetter, Bool.or_eq_true, decide_eq_true_eq] at hletter
        rcases hletter with ((rfl | rfl) | rfl) | rfl <;> cases hdigit
      · cases hletter
  · rw [List.reverse_append]
    exact (if_pos hc).trans (List.reverse_reverse text)

end

/-! ### The stages of reading -/

/-- Reads a floating-point literal in one pass: behind the sign stands one of two words, or else a
decimal, and a letter may follow this. -/
def readLiteral? (f : Binary.Format) (text : List Char) : Option (Binary f) :=
  let (negative, body) := Text.splitSign (Text.trim text)
  if body = ['I', 'n', 'f', 'i', 'n', 'i', 't', 'y'] then some (.infinite negative)
  else if body = ['N', 'a', 'N'] then some .nan
  else (readUnsigned? (dropTypeLetter body)).map (.ofScientific negative)

section

variable {text : List Char} {d : Scientific} {c : Char}

theorem isDecimalChar_of_isDigit (h : c.isDigit) : isDecimalChar c = true := by
  simp [isDecimalChar, h]

/-- A decimal has no other characters than those of decimals. -/
theorem IsDecimal.isDecimalChar (h : IsDecimal text d) (hc : c ∈ text) :
    isDecimalChar c = true := by
  obtain ⟨hmantissa, hexponent⟩ := h
  rcases List.mem_append.1 hc with hc | hc
  · rcases hmantissa.mem_cases hc with hdigit | rfl
    · exact isDecimalChar_of_isDigit hdigit
    · rfl
  · cases hexponent with
    | missing => cases hc
    | marked hmark hinteger =>
      rcases List.mem_cons.1 hc with rfl | hc
      · rcases hmark with rfl | rfl <;> rfl
      · rcases hinteger.mem_cases hc with hdigit | rfl | rfl
        · exact isDecimalChar_of_isDigit hdigit
        · rfl
        · rfl

/-- All words have an `n` in them, which no decimal has. -/
theorem readWord?_of_isDecimalChar (f : Binary.Format) (negative : Bool)
    (h : ∀ c ∈ text, isDecimalChar c = true) : readWord? f negative text = none := by
  have hno : 'n' ∉ text.map Char.toLower := by
    intro hn
    obtain ⟨c, hc, hlower⟩ := List.mem_map.1 hn
    rcases (Text.toLower_eq_iff (by decide)).1 hlower with rfl | hcode
    · exact absurd (h _ hc) (by decide)
    · have hcapital : c.toNat + 32 = 'N'.toNat + 32 := hcode
      obtain rfl : c = 'N' := Char.toNat_inj.1 (Nat.add_right_cancel hcapital)
      exact absurd (h _ hc) (by decide)
  have hword {word : List Char} (hn : 'n' ∈ word) : text.map Char.toLower ≠ word := by
    rintro rfl
    exact hno hn
  simp only [readWord?]
  rw [if_neg (not_or.2 ⟨hword (by decide), hword (by decide)⟩), if_neg (hword (by decide))]

/-- A first character that is no letter itself stays when the letter is dropped. -/
theorem dropTypeLetter_cons (h : isTypeLetter c = false) (text : List Char) :
    dropTypeLetter (c :: text) = c :: dropTypeLetter text := by
  simp only [dropTypeLetter, List.reverse_cons]
  cases htext : text.reverse with
  | nil =>
    obtain rfl := List.reverse_eq_nil_iff.1 htext
    simp [h]
  | cons last rest =>
    simp only [List.cons_append]
    split
    · exact List.reverse_append
    · rfl

/-- It makes no difference whether the sign or the letter is taken off first. -/
theorem splitSign_dropTypeLetter (text : List Char) :
    Text.splitSign (dropTypeLetter text) =
      ((Text.splitSign text).1, dropTypeLetter (Text.splitSign text).2) := by
  cases text with
  | nil => rfl
  | cons c rest =>
    by_cases hminus : c = '-'
    · subst hminus
      exact congrArg Text.splitSign (dropTypeLetter_cons rfl rest)
    by_cases hplus : c = '+'
    · subst hplus
      exact congrArg Text.splitSign (dropTypeLetter_cons rfl rest)
    have hsplit (rest : List Char) : Text.splitSign (c :: rest) = (false, c :: rest) :=
      Text.IsSign.missing.splitSign_append fun c' hc' => by
        obtain rfl := Option.some.inj hc'
        exact ⟨hminus, hplus⟩
    -- What is left of the text is empty or starts as the text does.
    obtain ⟨letter, -, htext⟩ := exists_typeLetter (c :: rest)
    rw [hsplit]
    cases hdrop : dropTypeLetter (c :: rest) with
    | nil => rfl
    | cons c' rest' =>
      rw [hdrop] at htext
      obtain rfl := (List.cons.inj htext).1
      exact hsplit rest'

/-- Behind the test of the characters nothing but a decimal is read. -/
theorem readNumber?_of_isDecimalChar (f : Binary.Format) (text : List Char) :
    (if text.all isDecimalChar then readNumber? f text else none) =
      (readUnsigned? (Text.splitSign text).2).map (.ofScientific (Text.splitSign text).1) := by
  obtain ⟨sign, negative, body, hsplit, hsign, rfl⟩ := Text.exists_splitSign_eq text
  cases hread : readUnsigned? body with
  | none =>
    simp only [readNumber?, hsplit, hread, Option.map_none]
    split
    next hall =>
      refine readWord?_of_isDecimalChar f negative fun c hc => ?_
      exact List.all_eq_true.1 hall c (List.mem_append_right _ hc)
    next => rfl
  | some d =>
    simp only [readNumber?, hsplit, hread, Option.map_some]
    refine if_pos (List.all_eq_true.2 fun c hc => ?_)
    rcases List.mem_append.1 hc with hc | hc
    · cases hsign with
      | missing => cases hc
      | plus => exact List.mem_singleton.1 hc ▸ rfl
      | minus => exact List.mem_singleton.1 hc ▸ rfl
    · exact (readUnsigned?_eq_some_iff.1 hread).isDecimalChar hc

/-- A literal is read in stages as it is in one pass. -/
theorem readBinary?_eq_readLiteral? (f : Binary.Format) (text : List Char) :
    readBinary? f text = readLiteral? f text := by
  rw [readBinary?, readLiteral?]
  generalize Text.trim text = trimmed
  obtain ⟨-, negative, body, hsplit, -⟩ := Text.exists_splitSign_eq trimmed
  simp only [readNumber?_of_isDecimalChar, splitSign_dropTypeLetter, hsplit]
  by_cases hinfinity : body = ['I', 'n', 'f', 'i', 'n', 'i', 't', 'y']
  · subst hinfinity
    rw [if_pos (.inl rfl), if_pos rfl, readNumber?, hsplit]
    rfl
  by_cases hnan : body = ['N', 'a', 'N']
  · subst hnan
    rw [if_pos (.inr rfl), if_neg hinfinity, if_pos rfl, readNumber?, hsplit]
    rfl
  rw [if_neg (not_or.2 ⟨hinfinity, hnan⟩), if_neg hinfinity, if_neg hnan]

end

/-- A decimal with its sign in front of it and a letter behind it is rounded. -/
theorem readBinary?_of_isDecimal (f : Binary.Format) {sign text letter : List Char}
    {negative : Bool} {d : Scientific} (hsign : IsSign sign negative) (h : IsDecimal text d)
    (hletter : letter ∈ typeLetters) {padded : List Char}
    (htrim : Text.trim padded = sign ++ (text ++ letter)) :
    readBinary? f padded = some (.ofScientific negative d) := by
  obtain ⟨c, hc, hdigit⟩ := h.head?
  obtain ⟨rest, rfl⟩ := List.head?_eq_some_iff.1 hc
  have hno : c ≠ '-' ∧ c ≠ '+' ∧ c ≠ 'I' ∧ c ≠ 'N' := by
    rcases hdigit with hdigit | rfl
    · refine ⟨?_, ?_, ?_, ?_⟩ <;> rintro rfl <;> cases hdigit
    · decide
  have hsplit : Text.splitSign (sign ++ (c :: rest ++ letter)) = (negative, c :: rest ++ letter) :=
    hsign.splitSign_append fun c' hc' => by
      obtain rfl : c = c' := Option.some.inj hc'
      exact ⟨hno.1, hno.2.1⟩
  have hword {first : Char} (hfirst : c ≠ first) (letters : List Char) :
      c :: rest ++ letter ≠ first :: letters := fun heq => hfirst (List.cons.inj heq).1
  have hdrop : dropTypeLetter (c :: rest ++ letter) = c :: rest :=
    dropTypeLetter_append (fun _ => h.getLast?) hletter
  rw [readBinary?_eq_readLiteral?]
  simp only [readLiteral?, htrim, hsplit, if_neg (hword hno.2.2.1 _), if_neg (hword hno.2.2.2 _),
    hdrop, readUnsigned?_eq_some_iff.2 h, Option.map_some]

end AttributeStore.Decimal
