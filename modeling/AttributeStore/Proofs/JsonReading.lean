import AttributeStore.Proofs.NumberText

/-!
# Compact JSON reads back

The reader gives every tree back from its compact text, provided that the numbers of the tree are
number tokens.  Each part of a text is read with anything behind it, except that behind a number no
more characters of numbers may follow.

## Main definitions

* `Json.HasNumberTokens`: trees of which every number is a number token.

## Main results

* `Json.readChar?_escapeChar`: escaped characters read back.
* `Json.readsBack`: trees read back with anything behind them.
* `Json.read?_compact`: whole texts read back.
-/

namespace AttributeStore.Json

/-! ### Strings -/

theorem hexValue?_hexDigit : ∀ n < 16, hexValue? (hexDigit n) = some n := by decide

/-- A control character is read from its code point in hexadecimal digits. -/
theorem readCodePoint?_hexDigits {n : Nat} (hn : n < 0x100) (rest : List Char) :
    readCodePoint? ('0' :: '0' :: hexDigit (n / 16) :: hexDigit (n % 16) :: rest) =
      some (n, rest) := by
  have hzero : hexValue? '0' = some 0 := hexValue?_hexDigit 0 (by decide)
  have hhigh : hexValue? (hexDigit (n / 16)) = some (n / 16) := hexValue?_hexDigit _ (by omega)
  have hlow : hexValue? (hexDigit (n % 16)) = some (n % 16) := hexValue?_hexDigit _ (by omega)
  have hsum : ((0 * 16 + 0) * 16 + n / 16) * 16 + n % 16 = n := by omega
  have hsurrogate : ¬ (0xD800 ≤ n ∧ n < 0xDC00) := by omega
  simp only [readCodePoint?, readUnit?, hzero, hhigh, hlow, hsum, if_neg hsurrogate]

/-- A character of a string reads back from its escaped form. -/
theorem readChar?_escapeChar (c : Char) (rest : List Char) :
    readChar? (escapeChar c ++ rest) = some (c, rest) := by
  by_cases hletter : c ∈ ['"', '\\', '\x08', '\x0c', '\n', '\r', '\t']
  · simp only [List.mem_cons, List.not_mem_nil, or_false] at hletter
    rcases hletter with rfl | rfl | rfl | rfl | rfl | rfl | rfl <;> rfl
  · simp only [List.mem_cons, List.not_mem_nil, or_false, not_or] at hletter
    obtain ⟨hquote, hbackslash, hb, hf, hn, hr, ht⟩ := hletter
    by_cases hcontrol : c.toNat < 0x20
    · have hescape : escapeChar c =
          ['\\', 'u', '0', '0', hexDigit (c.toNat / 16), hexDigit (c.toNat % 16)] := by
        simp [escapeChar, hquote, hbackslash, hb, hf, hn, hr, ht, hcontrol]
      have hvalid : c.toNat.isValidChar := c.valid
      simp [hescape, readChar?, readCodePoint?_hexDigits (show c.toNat < 0x100 by omega), hvalid]
    · have hescape : escapeChar c = [c] := by
        simp [escapeChar, hquote, hbackslash, hb, hf, hn, hr, ht, hcontrol]
      simp [hescape, readChar?, hbackslash, hcontrol]

/-- A string reads back from its token, if the limit allows for all of its characters. -/
theorem readChars?_escaped {text : List Char} {limit : Nat} (hlimit : text.length < limit)
    (rest : List Char) :
    readChars? limit (text.flatMap escapeChar ++ '"' :: rest) = some (text, rest) := by
  induction text generalizing limit with
  | nil =>
    obtain ⟨limit, rfl⟩ := Nat.exists_eq_add_one.2 hlimit
    rfl
  | cons c text ih =>
    obtain ⟨limit, rfl⟩ := Nat.exists_eq_add_one.2 (Nat.zero_lt_of_lt hlimit)
    have hread := readChar?_escapeChar c (text.flatMap escapeChar ++ '"' :: rest)
    -- No escaped character starts with a quote, so the string does not end here.
    have hquote : ∀ tail,
        escapeChar c ++ (text.flatMap escapeChar ++ '"' :: rest) ≠ '"' :: tail := by
      rintro tail heq
      rw [heq] at hread
      cases hread
    rw [List.flatMap_cons, List.append_assoc, readChars?]
    · have hlength : text.length < limit := Nat.lt_of_succ_lt_succ hlimit
      simp only [hread, Option.bind_some, ih hlength, Option.map_some]
    · exact fun _ => hquote _

theorem length_lt_length_quoted (text : List Char) : text.length + 1 < (quoted text).length := by
  have hchar (c : Char) : 1 ≤ (escapeChar c).length := by
    simp only [escapeChar]
    repeat' split
    all_goals simp
  have hflat : text.length ≤ (text.flatMap escapeChar).length := by
    induction text with
    | nil => simp
    | cons c text ih =>
      have hone := hchar c
      simp only [List.flatMap_cons, List.length_append, List.length_cons]
      omega
  simp only [quoted, List.length_append, List.length_cons, List.length_nil]
  omega

/-! ### Scalars -/

theorem skipSpace_cons {c : Char} (h : c.isWhitespace = false) (rest : List Char) :
    skipSpace (c :: rest) = c :: rest := by
  simp [skipSpace, h]

theorem ne_of_isNumberChar {c : Char} (h : isNumberChar c) (other : Char)
    (hother : isNumberChar other = false) : c ≠ other := by
  rintro rfl
  simp [h] at hother

theorem isWhitespace_of_isNumberChar {c : Char} (h : isNumberChar c) : c.isWhitespace = false := by
  have hne := ne_of_isNumberChar h
  simp [Char.isWhitespace, hne ' ' rfl, hne '\t' rfl,
    hne '\r' rfl, hne '\n' rfl]

/-- A character of number tokens starts nothing but a number. -/
theorem readTree?_of_isNumberChar {c : Char} (h : isNumberChar c) (limit : Nat)
    (rest : List Char) : readTree? (limit + 1) (c :: rest) = readNumber? (c :: rest) := by
  have hne := ne_of_isNumberChar h
  rw [readTree?, skipSpace_cons (isWhitespace_of_isNumberChar h)]
  simp [hne '"' rfl, hne '[' rfl, hne '\x7b' rfl, readScalar?,
    hne 'n' rfl, hne 't' rfl, hne 'f' rfl]

/-- A text that does not go on with a number token in front of it. -/
def EndsNumber (rest : List Char) : Prop := ∀ c ∈ rest.head?, isNumberChar c = false

theorem endsNumber_cons {c : Char} (h : isNumberChar c = false) (rest : List Char) :
    EndsNumber (c :: rest) := by
  simpa [EndsNumber] using h

/-- A number token is read up to the first character that no number token has. -/
theorem readNumber?_token {token rest : List Char} (htoken : isNumberToken token)
    (hrest : EndsNumber rest) :
    readNumber? (token ++ rest) = some (.number (String.ofList token), rest) := by
  have hchars : ∀ c ∈ token, isNumberChar c := fun _ => isNumberChar_of_mem_token htoken
  rw [readNumber?, takeWhile_append_of_head? hchars hrest, dropWhile_append_of_head? hchars hrest]
  simp [htoken]

/-! ### Trees -/

mutual

/-- Trees of which every number is a number token. -/
def HasNumberTokens : Json → Prop
  | number token => isNumberToken token.toList
  | array items => ItemsHaveNumberTokens items
  | object members => MembersHaveNumberTokens members
  | _ => True
termination_by structural t => t

/-- Every item has number tokens. -/
def ItemsHaveNumberTokens : List Json → Prop
  | [] => True
  | item :: rest => item.HasNumberTokens ∧ ItemsHaveNumberTokens rest

/-- Every tree under a key has number tokens. -/
def MembersHaveNumberTokens : List (String × Json) → Prop
  | [] => True
  | (_, tree) :: rest => tree.HasNumberTokens ∧ MembersHaveNumberTokens rest

end

theorem itemsHaveNumberTokens_iff {items : List Json} :
    ItemsHaveNumberTokens items ↔ ∀ item ∈ items, item.HasNumberTokens := by
  induction items with
  | nil => simp [ItemsHaveNumberTokens]
  | cons item rest ih => simp [ItemsHaveNumberTokens, ih]

theorem membersHaveNumberTokens_iff {members : List (String × Json)} :
    MembersHaveNumberTokens members ↔ ∀ m ∈ members, m.2.HasNumberTokens := by
  induction members with
  | nil => simp [MembersHaveNumberTokens]
  | cons m rest ih => simp [MembersHaveNumberTokens, ih]

/-- The text of a tree starts with a token, and this token is no closing bracket. -/
theorem exists_chars_eq_cons {tree : Json} (h : tree.HasNumberTokens) :
    ∃ c rest, tree.chars = c :: rest ∧ c.isWhitespace = false ∧ c ≠ ']' := by
  cases tree with
  | bool b => cases b <;> exact ⟨_, _, rfl, by decide⟩
  | number token =>
    obtain ⟨c, rest, htoken⟩ := List.exists_cons_of_ne_nil (isNumberToken_ne_nil h)
    have hc : isNumberChar c := isNumberChar_of_mem_token h (htoken ▸ List.mem_cons_self)
    exact ⟨c, rest, htoken, isWhitespace_of_isNumberChar hc, ne_of_isNumberChar hc _ rfl⟩
  | _ => exact ⟨_, _, rfl, by decide⟩

theorem readTree?_quoted {text : List Char} {limit : Nat} (hlimit : (quoted text).length ≤ limit)
    (rest : List Char) :
    readTree? limit (quoted text ++ rest) = some (.string (String.ofList text), rest) := by
  have hlength := length_lt_length_quoted text
  obtain ⟨limit, rfl⟩ := Nat.exists_eq_add_one.2 (show 0 < limit by omega)
  have htext : text.length < limit := by omega
  have hread := readChars?_escaped htext rest
  simp [quoted, readTree?, skipSpace_cons (c := '"') rfl, hread]

theorem separated_cons_cons (first second : List Char) (rest : List (List Char)) :
    separated (first :: second :: rest) = first ++ ',' :: separated (second :: rest) := by
  simp [separated, List.intercalate]

theorem exists_separated_eq (first : List Char) (rest : List (List Char)) :
    ∃ tail, separated (first :: rest) = first ++ tail := by
  cases rest with
  | nil => exact ⟨[], by simp [separated]⟩
  | cons second rest => exact ⟨_, separated_cons_cons first second rest⟩

/-- A tree that reads back with anything behind it that does not go on with a number, if the limit
allows for all of its characters. -/
def ReadsBack (tree : Json) : Prop :=
  ∀ (limit : Nat) (rest : List Char), tree.chars.length ≤ limit → EndsNumber rest →
    readTree? limit (tree.chars ++ rest) = some (tree, rest)

/-- For a literal, one step of the limit is enough. -/
theorem readsBack_of_step {tree : Json} (hne : tree.chars ≠ [])
    (h : ∀ limit rest, readTree? (limit + 1) (tree.chars ++ rest) = some (tree, rest)) :
    tree.ReadsBack := by
  intro limit rest hlimit _
  have hpos := List.length_pos_iff.2 hne
  obtain ⟨limit, rfl⟩ := Nat.exists_eq_add_one.2 (show 0 < limit by omega)
  exact h limit rest

theorem readsBack_string (s : String) : (string s).ReadsBack := by
  intro limit rest hlimit _
  rw [chars, readTree?_quoted hlimit, String.ofList_toList]

theorem readsBack_number {token : String} (h : isNumberToken token.toList) :
    (number token).ReadsBack := by
  intro limit rest hlimit hrest
  obtain ⟨c, cs, htoken⟩ := List.exists_cons_of_ne_nil (isNumberToken_ne_nil h)
  have hc : isNumberChar c := isNumberChar_of_mem_token h (htoken ▸ List.mem_cons_self)
  obtain ⟨limit, rfl⟩ : ∃ n, limit = n + 1 := by
    rw [chars, htoken, List.length_cons] at hlimit
    exact Nat.exists_eq_add_one_of_ne_zero (by omega)
  rw [chars, htoken, List.cons_append, readTree?_of_isNumberChar hc, ← List.cons_append, ← htoken,
    readNumber?_token h hrest, String.ofList_toList]

/-- The items of an array read back with the closing bracket behind them. -/
theorem readItems?_separated {items : List Json} (hne : items ≠ [])
    (h : ∀ item ∈ items, item.ReadsBack) (limit : Nat)
    (hlimit : (separated (charsOfItems items)).length < limit) (rest : List Char) :
    readItems? limit (separated (charsOfItems items) ++ ']' :: rest) = some (items, rest) := by
  induction items generalizing limit with
  | nil => exact absurd rfl hne
  | cons item items ih =>
    obtain ⟨hitem, hitems⟩ := List.forall_mem_cons.1 h
    obtain ⟨limit, rfl⟩ := Nat.exists_eq_add_one.2 (Nat.zero_lt_of_lt hlimit)
    cases items with
    | nil =>
      have hchars : separated (charsOfItems [item]) = item.chars := by
        simp [charsOfItems, separated]
      rw [hchars] at hlimit ⊢
      have hread := hitem limit (']' :: rest) (by omega) (endsNumber_cons rfl _)
      simp [readItems?, hread, skipSpace_cons (c := ']') rfl]
    | cons second items =>
      have hchars : separated (charsOfItems (item :: second :: items)) =
          item.chars ++ ',' :: separated (charsOfItems (second :: items)) :=
        separated_cons_cons _ _ _
      rw [hchars, List.length_append, List.length_cons] at hlimit
      have hread := hitem limit
        (',' :: (separated (charsOfItems (second :: items)) ++ ']' :: rest)) (by omega)
        (endsNumber_cons rfl _)
      have htail := ih (List.cons_ne_nil _ _) hitems limit (by omega)
      simp [hchars, readItems?, hread, skipSpace_cons (c := ',') rfl, htail]

/-- The key and the tree of a member are shorter than the member. -/
private theorem lengths_of_member {key : String} {tree : Json} {limit : Nat}
    (h : (quoted key.toList ++ ':' :: tree.chars).length ≤ limit) :
    key.toList.length < limit ∧ tree.chars.length ≤ limit := by
  have hlength := length_lt_length_quoted key.toList
  rw [List.length_append, List.length_cons] at h
  omega

theorem readMembers?_last {key : String} {tree : Json} (h : tree.ReadsBack) {limit : Nat}
    (hlimit : (quoted key.toList ++ ':' :: tree.chars).length ≤ limit) (rest : List Char) :
    readMembers? (limit + 1) (quoted key.toList ++ ':' :: (tree.chars ++ '\x7d' :: rest)) =
      some ([(key, tree)], rest) := by
  obtain ⟨hkey, htree⟩ := lengths_of_member hlimit
  have hreadKey := readChars?_escaped hkey (':' :: (tree.chars ++ '\x7d' :: rest))
  have hread := h limit ('\x7d' :: rest) htree (endsNumber_cons rfl _)
  simp [quoted, readMembers?, skipSpace_cons (c := '"') rfl, hreadKey,
    skipSpace_cons (c := ':') rfl, hread, skipSpace_cons (c := '\x7d') rfl]

theorem readMembers?_more {key : String} {tree : Json} (h : tree.ReadsBack) {limit : Nat}
    (hlimit : (quoted key.toList ++ ':' :: tree.chars).length ≤ limit)
    {members : List (String × Json)} {text rest : List Char}
    (hmore : readMembers? limit text = some (members, rest)) :
    readMembers? (limit + 1) (quoted key.toList ++ ':' :: (tree.chars ++ ',' :: text)) =
      some ((key, tree) :: members, rest) := by
  obtain ⟨hkey, htree⟩ := lengths_of_member hlimit
  have hreadKey := readChars?_escaped hkey (':' :: (tree.chars ++ ',' :: text))
  have hread := h limit (',' :: text) htree (endsNumber_cons rfl _)
  simp [quoted, readMembers?, skipSpace_cons (c := '"') rfl, hreadKey,
    skipSpace_cons (c := ':') rfl, hread, skipSpace_cons (c := ',') rfl, hmore]

/-- The members of an object read back with the closing brace behind them. -/
theorem readMembers?_separated {members : List (String × Json)} (hne : members ≠ [])
    (h : ∀ m ∈ members, m.2.ReadsBack) (limit : Nat)
    (hlimit : (separated (charsOfMembers members)).length < limit) (rest : List Char) :
    readMembers? limit (separated (charsOfMembers members) ++ '\x7d' :: rest) =
      some (members, rest) := by
  induction members generalizing limit with
  | nil => exact absurd rfl hne
  | cons member members ih =>
    obtain ⟨key, tree⟩ := member
    obtain ⟨htree, hmembers⟩ : tree.ReadsBack ∧ ∀ m ∈ members, m.2.ReadsBack :=
      List.forall_mem_cons.1 h
    obtain ⟨limit, rfl⟩ := Nat.exists_eq_add_one.2 (Nat.zero_lt_of_lt hlimit)
    cases members with
    | nil =>
      have hchars : separated (charsOfMembers [(key, tree)]) =
          quoted key.toList ++ ':' :: tree.chars := by
        simp [charsOfMembers, separated]
      rw [hchars] at hlimit ⊢
      rw [List.append_assoc, List.cons_append]
      exact readMembers?_last htree (Nat.le_of_lt_succ hlimit) rest
    | cons second members =>
      have hchars : separated (charsOfMembers ((key, tree) :: second :: members)) =
          (quoted key.toList ++ ':' :: tree.chars) ++
            ',' :: separated (charsOfMembers (second :: members)) :=
        separated_cons_cons _ _ _
      rw [hchars, List.length_append, List.length_cons] at hlimit
      have htail := ih (List.cons_ne_nil _ _) hmembers limit (by omega)
      rw [hchars, List.append_assoc, List.append_assoc, List.cons_append, List.cons_append]
      exact readMembers?_more htree (by omega) htail

theorem readsBack_array {items : List Json} (htokens : ItemsHaveNumberTokens items)
    (h : ∀ item ∈ items, item.ReadsBack) : (array items).ReadsBack := by
  intro limit rest hlimit _
  have hchars : (array items).chars = '[' :: separated (charsOfItems items) ++ [']'] := rfl
  rw [hchars] at hlimit ⊢
  simp only [List.length_append, List.length_cons, List.length_nil] at hlimit
  obtain ⟨limit, rfl⟩ := Nat.exists_eq_add_one.2 (show 0 < limit by omega)
  cases items with
  | nil => rfl
  | cons item items =>
    have hread := readItems?_separated (List.cons_ne_nil item items) h limit (by omega) rest
    -- The first item does not start with the bracket that would close an empty array.
    obtain ⟨c, cs, hitem, hspace, hbracket⟩ := exists_chars_eq_cons htokens.1
    obtain ⟨tail, htail⟩ := exists_separated_eq item.chars (charsOfItems items)
    have hsep : separated (charsOfItems (item :: items)) = c :: (cs ++ tail) := by
      rw [charsOfItems, htail, hitem, List.cons_append]
    rw [hsep] at hread ⊢
    simp only [List.cons_append, List.append_assoc, List.nil_append] at hread ⊢
    rw [readTree?, skipSpace_cons rfl]
    simp [skipSpace_cons hspace, hbracket, hread]

theorem readsBack_object {members : List (String × Json)} (h : ∀ m ∈ members, m.2.ReadsBack) :
    (object members).ReadsBack := by
  intro limit rest hlimit _
  have hchars : (object members).chars =
    '\x7b' :: separated (charsOfMembers members) ++ ['\x7d'] := rfl
  rw [hchars] at hlimit ⊢
  simp only [List.length_append, List.length_cons, List.length_nil] at hlimit
  obtain ⟨limit, rfl⟩ := Nat.exists_eq_add_one.2 (show 0 < limit by omega)
  cases members with
  | nil => rfl
  | cons member members =>
    have hread := readMembers?_separated (List.cons_ne_nil member members) h limit (by omega)
      rest
    obtain ⟨tail, htail⟩ := exists_separated_eq (quoted member.1.toList ++ ':' :: member.2.chars)
      (charsOfMembers members)
    have hsep : separated (charsOfMembers (member :: members)) =
        (quoted member.1.toList ++ ':' :: member.2.chars) ++ tail := htail
    rw [hsep] at hread ⊢
    simp only [quoted, List.cons_append, List.append_assoc, List.nil_append] at hread ⊢
    rw [readTree?, skipSpace_cons rfl]
    simp [skipSpace_cons (c := '"') rfl, hread]

mutual

/-- Every tree reads back whose numbers are number tokens. -/
theorem readsBack : (tree : Json) → tree.HasNumberTokens → tree.ReadsBack
  | null, _ => readsBack_of_step (by decide) fun _ _ => rfl
  | bool true, _ => readsBack_of_step (by decide) fun _ _ => rfl
  | bool false, _ => readsBack_of_step (by decide) fun _ _ => rfl
  | number _, h => readsBack_number h
  | string s, _ => readsBack_string s
  | array items, h => readsBack_array h (readsBack_items items h)
  | object members, h => readsBack_object (readsBack_members members h)
termination_by structural tree => tree

theorem readsBack_items :
    (items : List Json) → ItemsHaveNumberTokens items → ∀ item ∈ items, item.ReadsBack
  | [], _ => by simp
  | item :: items, h => List.forall_mem_cons.2 ⟨readsBack item h.1, readsBack_items items h.2⟩

theorem readsBack_members : (members : List (String × Json)) → MembersHaveNumberTokens members →
    ∀ m ∈ members, m.2.ReadsBack
  | [], _ => by simp
  | (_, tree) :: members, h =>
    List.forall_mem_cons.2 ⟨readsBack tree h.1, readsBack_members members h.2⟩

end

/-- The compact text of a tree reads back. -/
theorem read?_compact {tree : Json} (h : tree.HasNumberTokens) :
    read? tree.compact = some tree := by
  have hread := readsBack tree h tree.chars.length [] (Nat.le_refl _)
    (by simp [EndsNumber])
  rw [List.append_nil] at hread
  rw [read?, compact, String.length_ofList, String.toList_ofList, hread]
  rfl

end AttributeStore.Json
