import Avro.Proofs.Schema.CanonicalText

/-!
# JSON texts that are read back

What is read from a text is shown part by part: a part *reads as* a value if
the reader, put before the text of the part, gives the value and stops behind
the text (`Json.ReadsAs`). What comes behind must not go on with a number, so
it is a comma, a bracket or a brace that closes, or nothing.

Quoted texts read as the strings they quote, numbers as integers, and lists and
objects between brackets as what their parts read as. The members of an object
may be in any order.
-/

namespace Avro

namespace Json

/-- **Where a value ends**: at the end of the text, or before a comma or a
bracket or brace that closes. -/
def Stops : List Char → Prop
  | [] => True
  | c :: _ => c = ',' ∨ c = ']' ∨ c = '}'

/-- **A text reads as a value**, in front of what stops it. It begins with
neither a blank nor a closing bracket. -/
structure ReadsAs {α : Type} (scan : Scan α) (text : List Char) (a : α) :
    Prop where
  /-- How it begins. -/
  start : ∃ c rest, text = c :: rest ∧ isBlank c = false ∧ c ≠ ']'
  /-- What is read. -/
  reads : ∀ rest, Stops rest → scan (text ++ rest) = .ok (a, rest)

theorem skipBlanks_cons {c : Char} (h : isBlank c = false) (rest : List Char) :
    skipBlanks (c :: rest) = c :: rest := by
  simp [skipBlanks, h]

/-! ## Strings -/

/-- Hexadecimal digits are read back. -/
theorem hexValue?_hexDigit : ∀ n < 16, hexValue? (hexDigit n) = some n := by
  decide

theorem hexDigit_utf8Size : ∀ n < 16, (hexDigit n).utf8Size = 1 := by
  decide

/-- The escape of a control character is read. -/
theorem unicodeEscape_hexDigit {n : Nat} (h : n < 256) (rest : List Char) :
    unicodeEscape ('0' :: '0' :: hexDigit (n / 16) :: hexDigit (n % 16) :: rest)
      = .ok (Char.ofNat n, rest) := by
  have hsize : ¬ byteSize ('0' :: '0' :: hexDigit (n / 16)
      :: hexDigit (n % 16) :: rest) < 4 := by
    simp only [byteSize, hexDigit_utf8Size (n / 16) (by omega),
      hexDigit_utf8Size (n % 16) (by omega), show '0'.utf8Size = 1 from rfl]
    omega
  have hfour : hex4 ('0' :: '0' :: hexDigit (n / 16)
      :: hexDigit (n % 16) :: rest) = .ok (n, rest) := by
    rw [hex4, if_neg hsize]
    simp only [hexValue?_hexDigit (n / 16) (by omega),
      hexValue?_hexDigit (n % 16) (by omega), show hexValue? '0' = some 0 from rfl]
    congr 2
    omega
  rw [unicodeEscape, hfour]
  simp only [bind, Except.bind]
  rw [if_neg (by omega), if_pos (by omega)]

/-- **An escaped character is read**, in front of what follows. -/
theorem stringBody_escape (c : Char) (fuel : Nat) (rest : List Char) :
    stringBody (fuel + 1) (escape c ++ rest) = (do
      let (s, rest) ← stringBody fuel rest
      return (c :: s, rest)) := by
  have hnamed : ∀ n, c.toNat = n → Char.ofNat n = c := by
    rintro n rfl
    exact Char.ofNat_toNat c
  have hescaped : ∀ text : List Char, escaped (text ++ rest) = .ok (c, rest) →
      stringBody (fuel + 1) ('\\' :: text ++ rest) = (do
        let (s, rest) ← stringBody fuel rest
        return (c :: s, rest)) := by
    intro text h
    rw [List.cons_append, stringBody, h]
    rfl
  unfold escape
  split_ifs with hquote hslash h8 h9 h10 h12 h13 hcontrol
  · exact hescaped ['"'] (by rw [hquote]; rfl)
  · exact hescaped ['\\'] (by rw [hslash]; rfl)
  · exact hescaped ['b'] (by rw [← hnamed 8 h8]; rfl)
  · exact hescaped ['t'] (by rw [← hnamed 9 h9]; rfl)
  · exact hescaped ['n'] (by rw [← hnamed 10 h10]; rfl)
  · exact hescaped ['f'] (by rw [← hnamed 12 h12]; rfl)
  · exact hescaped ['r'] (by rw [← hnamed 13 h13]; rfl)
  · refine hescaped ('u' :: _) ?_
    have hunicode := unicodeEscape_hexDigit (n := c.toNat) (by omega) rest
    rw [Char.ofNat_toNat] at hunicode
    exact hunicode
  · rw [List.singleton_append, stringBody]
    · rw [if_neg hcontrol]
    · exact hquote
    · exact hslash

/-- What is quoted is read. -/
theorem stringBody_flatMap_escape (rest : List Char) :
    ∀ (s : List Char) {fuel : Nat}, s.length < fuel →
      stringBody fuel (s.flatMap escape ++ '"' :: rest) = .ok (s, rest)
  | [], fuel + 1, _ => rfl
  | c :: s, fuel + 1, h => by
    rw [List.flatMap_cons, List.append_assoc, stringBody_escape,
      stringBody_flatMap_escape rest s (Nat.lt_of_succ_lt_succ h)]
    rfl

/-- **A quoted text is read** as what is quoted. -/
theorem stringChars_quote (s rest : List Char) :
    stringChars (s.flatMap escape ++ '"' :: rest) = .ok (s, rest) := by
  refine stringBody_flatMap_escape rest s ?_
  have hlength : ∀ cs : List Char, cs.length ≤ (cs.flatMap escape).length := by
    intro cs
    induction cs with
    | nil => exact Nat.le_refl 0
    | cons c cs ih =>
      have hescape : 1 ≤ (escape c).length := by
        unfold escape
        split_ifs <;> simp
      rw [List.flatMap_cons, List.length_append, List.length_cons]
      omega
  have hs := hlength s
  rw [List.length_append]
  omega

theorem quote_append (s rest : List Char) :
    quote s ++ rest = '"' :: (s.flatMap escape ++ '"' :: rest) := by
  simp [quote]

theorem readsAs_quote (item : Option (Scan Json)) (s : String) :
    ReadsAs (valueWith item) (quote s.toList) (.string s) where
  start := ⟨'"', _, rfl, by decide, by decide⟩
  reads rest _ := by
    have hvalue : ∀ cs, valueWith item ('"' :: cs) = (do
        let (s, rest) ← stringChars cs
        return (string (String.ofList s), rest)) := fun _ => rfl
    rw [quote_append, hvalue, stringChars_quote]
    show Except.ok (string (String.ofList s.toList), rest) = _
    rw [String.ofList_toList]

/-! ## Numbers -/

/-- The digits of a number that fits are gathered. -/
theorem gather_eq : ∀ {significand : Nat} {digits : List Char},
    Nat.ofDigitChars 10 digits significand < 0x10000000000000000 →
    gather significand digits = (Nat.ofDigitChars 10 digits significand, [])
  | significand, [], _ => by rw [gather, Nat.ofDigitChars_nil]
  | significand, c :: rest, h => by
    have hnext : 10 * significand + (c.toNat - '0'.toNat)
        = significand * 10 + digitValue c := by
      rw [Nat.mul_comm, digitValue]
    rw [Nat.ofDigitChars_cons, hnext] at h ⊢
    -- What is gathered so far is no more than the number in the end.
    have hle : significand * 10 + digitValue c
        ≤ Nat.ofDigitChars 10 rest (significand * 10 + digitValue c) := by
      rw [Nat.ofDigitChars_eq_ofDigitChars_zero]
      exact (Nat.le_mul_of_pos_left _ (Nat.pow_pos (by decide))).trans
        (Nat.le_add_right _ _)
    rw [gather, if_pos (hle.trans_lt h), gather_eq h]

/-- Only zero begins with a zero. -/
theorem head_toDigits_ne {n : Nat} (h : 0 < n) :
    (Nat.toDigits 10 n).head? ≠ some '0' := by
  induction n using Nat.strongRecOn with
  | ind n ih =>
    by_cases hn : n < 10
    · rw [Nat.toDigits_of_lt_base hn]
      have hdigit : ∀ m < 10, 0 < m → Nat.digitChar m ≠ '0' := by decide
      exact fun heq => hdigit n hn h (Option.some.inj heq)
    · rw [Nat.toDigits_of_base_le (by decide) (by omega),
        List.head?_append_of_ne_nil _ Nat.toDigits_ne_nil]
      exact ih (n / 10) (by omega) (by omega)

/-- Digits end where a value ends. -/
theorem takeWhile_isDigit {digits rest : List Char}
    (h : ∀ c ∈ digits, c.isDigit = true) (hrest : Stops rest) :
    (digits ++ rest).takeWhile Char.isDigit = digits
      ∧ (digits ++ rest).dropWhile Char.isDigit = rest := by
  have hstop : rest.takeWhile Char.isDigit = []
      ∧ rest.dropWhile Char.isDigit = rest := by
    cases rest with
    | nil => exact ⟨rfl, rfl⟩
    | cons c rest =>
      have hc : c.isDigit = false := by
        rcases hrest with rfl | rfl | rfl <;> decide
      exact ⟨by rw [List.takeWhile_cons, hc]; rfl,
        by rw [List.dropWhile_cons, hc]; rfl⟩
  rw [List.takeWhile_append_of_pos h, List.dropWhile_append_of_pos h, hstop.1,
    hstop.2, List.append_nil]
  exact ⟨rfl, rfl⟩

/-- An integer ends where a value ends. -/
theorem afterInteger_of_stops {rest : List Char} (h : Stops rest) (n : Nat) :
    afterInteger false n 0 rest = .ok (.integer n, rest) := by
  cases rest with
  | nil => rfl
  | cons c rest => rcases h with rfl | rfl | rfl <;> rfl

/-- A digit is no other character. -/
theorem ne_of_isDigit {c x : Char} (hc : c.isDigit = true)
    (hx : x.isDigit = false) : c ≠ x := by
  rintro rfl
  exact Bool.false_ne_true (hx.symm.trans hc)

theorem isBlank_of_isDigit {c : Char} (hc : c.isDigit = true) :
    isBlank c = false := by
  have hne : ∀ x : Char, x.isDigit = false → c ≠ x := fun _ => ne_of_isDigit hc
  simp [isBlank, hne ' ' (by decide), hne '\t' (by decide),
    hne '\n' (by decide), hne '\r' (by decide)]

/-- What begins with a digit is a number. -/
theorem valueWith_digit (item : Option (Scan Json)) {c : Char}
    (hc : c.isDigit = true) (cs : List Char) :
    valueWith item (c :: cs) = number false (c :: cs) := by
  have hne : ∀ x : Char, x.isDigit = false → c ≠ x := fun _ => ne_of_isDigit hc
  rw [valueWith, skipBlanks_cons (isBlank_of_isDigit hc)]
  split
  all_goals first
    | exact absurd (List.cons.inj ‹_›).1 (hne _ (by decide))
    | skip
  · rename_i heq
    exact absurd heq (List.cons_ne_nil _ _)
  · rename_i heq
    obtain ⟨rfl, rfl⟩ := List.cons.inj heq
    rw [if_pos hc]

/-- The digits of a number that fits, in front of where it ends. -/
theorem number_toDigits {n : Nat} (h : n < 0x10000000000000000)
    {rest : List Char} (hrest : Stops rest) :
    number false (Nat.toDigits 10 n ++ rest) = .ok (.integer n, rest) := by
  by_cases hzero : n = 0
  · subst hzero
    cases rest with
    | nil => rfl
    | cons c rest => rcases hrest with rfl | rfl | rfl <;> rfl
  · have hdigit : ∀ c ∈ Nat.toDigits 10 n, c.isDigit = true := fun c hc =>
      Nat.isDigit_of_mem_toDigits (by decide) (by decide) hc
    have hhead := head_toDigits_ne (Nat.pos_of_ne_zero hzero)
    have hvalue := Nat.ofDigitChars_ten_toDigits (n := n)
    obtain ⟨htake, hdrop⟩ := takeWhile_isDigit hdigit hrest
    cases hdigits : Nat.toDigits 10 n with
    | nil => exact absurd hdigits Nat.toDigits_ne_nil
    | cons c digits =>
      rw [hdigits] at hdigit hhead hvalue htake hdrop
      have hc := hdigit c List.mem_cons_self
      rw [List.cons_append] at htake hdrop ⊢
      rw [List.dropWhile_cons_of_pos hc] at hdrop
      rw [number, if_pos hc, htake, gather_eq (hvalue ▸ h), hvalue, hdrop]
      · exact afterInteger_of_stops hrest n
      · rintro rfl
        exact hhead rfl

/-- **The digits of a number are read** as the number. -/
theorem readsAs_toString (item : Option (Scan Json)) {n : Nat}
    (h : n < 0x10000000000000000) :
    ReadsAs (valueWith item) (toString n).toList (.integer n) := by
  have hdigits : (toString n).toList = Nat.toDigits 10 n := by
    rw [Nat.toString_eq_ofList_toDigits, String.toList_ofList]
  rw [hdigits]
  obtain ⟨c, digits, hcons⟩ := List.exists_cons_of_ne_nil
    (Nat.toDigits_ne_nil (n := n) (b := 10))
  have hc : c.isDigit = true := Nat.isDigit_of_mem_toDigits (by decide)
    (by decide) (hcons ▸ List.mem_cons_self)
  refine ⟨⟨c, digits, hcons, isBlank_of_isDigit hc,
    ne_of_isDigit hc (by decide)⟩, fun rest hrest => ?_⟩
  have hnumber := number_toDigits h hrest
  rw [hcons, List.cons_append] at hnumber ⊢
  rw [valueWith_digit item hc, hnumber]

/-! ## Lists and objects -/

open Canonical (commas afterWord commas_cons)

section

variable {item : Scan Json}

/-- Behind a word there are a comma and further words, or nothing. -/
theorem length_le_afterWord : ∀ words : List (List Char),
    words.length ≤ (afterWord words).length
  | [] => Nat.le_refl 0
  | word :: words => by
    have h := length_le_afterWord words
    rw [afterWord, commas_cons, List.length_cons, List.length_cons,
      List.length_append]
    omega

/-- What stands behind a word, in front of the end, stops it. -/
theorem stops_afterWord (words : List (List Char)) {c : Char}
    (hc : c = ']' ∨ c = '}') (rest : List Char) :
    Stops (afterWord words ++ c :: rest) := by
  cases words with
  | nil => exact .inr hc
  | cons word words => exact .inl rfl

theorem moreItems_comma {c : Char} (hblank : isBlank c = false) (hc : c ≠ ']')
    (fuel : Nat) (cs : List Char) :
    moreItems item (fuel + 1) (',' :: c :: cs)
      = item (c :: cs) >>= fun first =>
        moreItems item fuel first.2 >>= fun others =>
          pure (first.1 :: others.1, others.2) := by
  have hcomma : skipBlanks (',' :: c :: cs) = ',' :: c :: cs := rfl
  simp only [moreItems, hcomma, skipBlanks_cons hblank]
  split
  · rename_i heq
    exact absurd heq (List.cons_ne_nil _ _)
  · rename_i heq
    exact absurd (List.cons.inj heq).1 hc
  · rfl

/-- Further items are read, each in front of the others. -/
theorem moreItems_afterWord (rest : List Char) :
    ∀ {words : List (List Char)} {items : List Json} {fuel : Nat},
      List.Forall₂ (ReadsAs item) words items → words.length < fuel →
      moreItems item fuel (afterWord words ++ ']' :: rest) = .ok (items, rest)
  | [], _, fuel + 1, .nil, _ => rfl
  | word :: words, _, fuel + 1, .cons hword hwords, hfuel => by
    have hrest := moreItems_afterWord rest hwords (Nat.lt_of_succ_lt_succ hfuel)
    have hread := hword.reads _ (stops_afterWord words (.inl rfl) rest)
    obtain ⟨c, cs, rfl, hblank, hc⟩ := hword.start
    rw [afterWord, commas_cons, List.cons_append, List.append_assoc,
      List.cons_append, moreItems_comma hblank hc, ← List.cons_append, hread]
    simp only [bind, Except.bind, hrest]
    rfl

/-- **Items between commas are read**, in front of a bracket. -/
theorem arrayItems_commas {words : List (List Char)} {items : List Json}
    (h : List.Forall₂ (ReadsAs item) words items) (rest : List Char) :
    arrayItems item (commas words ++ ']' :: rest) = .ok (items, rest) := by
  cases h with
  | nil => rfl
  | @cons word first words items hword hwords =>
    have hread := hword.reads _ (stops_afterWord words (.inl rfl) rest)
    have hfuel : words.length < (afterWord words ++ ']' :: rest).length := by
      have hle := length_le_afterWord words
      rw [List.length_append, List.length_cons]
      omega
    have hrest := moreItems_afterWord rest hwords hfuel
    obtain ⟨c, cs, rfl, hblank, hc⟩ := hword.start
    rw [commas_cons, List.append_assoc, List.cons_append, arrayItems,
      skipBlanks_cons hblank]
    split
    · rename_i heq
      exact absurd heq (List.cons_ne_nil _ _)
    · rename_i heq
      exact absurd (List.cons.inj heq).1 hc
    · rw [← List.cons_append, hread]
      simp only [bind, Except.bind, hrest]
      rfl

/-- The text of a member. -/
def memberText (member : String × List Char) : List Char :=
  quote member.1.toList ++ ':' :: member.2

/-- A member is read behind the quote with which it begins. -/
theorem member_memberText (key : String) {text : List Char} {j : Json}
    (h : ReadsAs item text j) {rest : List Char} (hrest : Stops rest) :
    member item (key.toList.flatMap escape ++ '"' :: ':' :: (text ++ rest))
      = .ok ((key, j), rest) := by
  have hread := h.reads rest hrest
  rw [member, stringChars_quote]
  show ((item (text ++ rest)) >>= fun r =>
    pure ((String.ofList key.toList, r.1), r.2)) = _
  rw [hread, String.ofList_toList]
  rfl

theorem memberText_append (member : String × List Char) (rest : List Char) :
    memberText member ++ rest = '"' :: (member.1.toList.flatMap escape
      ++ '"' :: ':' :: (member.2 ++ rest)) := by
  rw [memberText, List.append_assoc, quote_append]
  rfl

/-- A text of a member is read as a member. -/
def MemberReadsAs (item : Scan Json) (text : String × List Char)
    (member : String × Json) : Prop :=
  text.1 = member.1 ∧ ReadsAs item text.2 member.2

theorem memberReadsAs (key : String) {text : List Char} {j : Json}
    (h : ReadsAs item text j) : MemberReadsAs item (key, text) (key, j) :=
  ⟨rfl, h⟩

/-- Further members are read, each in front of the others. -/
theorem moreMembers_afterWord (rest : List Char) :
    ∀ {texts : List (String × List Char)} {members : List (String × Json)}
      {fuel : Nat}, List.Forall₂ (MemberReadsAs item) texts members →
      texts.length < fuel →
      moreMembers item fuel (afterWord (texts.map memberText) ++ '}' :: rest)
        = .ok (members, rest)
  | [], _, fuel + 1, .nil, _ => rfl
  | (_, text) :: texts, (key, j) :: members, fuel + 1,
      .cons ⟨rfl, htext⟩ htexts, hfuel => by
    have hrest := moreMembers_afterWord rest htexts
      (Nat.lt_of_succ_lt_succ hfuel)
    have hread := member_memberText key htext
      (stops_afterWord (texts.map memberText) (.inr rfl) rest)
    have hcomma : ∀ cs, moreMembers item (fuel + 1) (',' :: '"' :: cs)
        = member item cs >>= fun first =>
          moreMembers item fuel first.2 >>= fun others =>
            pure (first.1 :: others.1, others.2) := fun _ => rfl
    rw [List.map_cons, afterWord, commas_cons, List.cons_append,
      List.append_assoc, memberText_append, hcomma, hread]
    simp only [bind, Except.bind, hrest]
    rfl

/-- **Members between commas are read**, in front of a brace. -/
theorem objectMembers_commas {texts : List (String × List Char)}
    {members : List (String × Json)}
    (h : List.Forall₂ (MemberReadsAs item) texts members) (rest : List Char) :
    objectMembers item (commas (texts.map memberText) ++ '}' :: rest)
      = .ok (members, rest) := by
  cases h with
  | nil => rfl
  | @cons text member texts members htext htexts =>
    obtain ⟨key, text⟩ := text
    obtain ⟨_, j⟩ := member
    obtain ⟨rfl, htext⟩ := htext
    have hread := member_memberText key htext
      (stops_afterWord (texts.map memberText) (.inr rfl) rest)
    have hfuel : texts.length
        < (afterWord (texts.map memberText) ++ '}' :: rest).length := by
      have hle := length_le_afterWord (texts.map memberText)
      rw [List.length_map] at hle
      rw [List.length_append, List.length_cons]
      omega
    have hrest := moreMembers_afterWord rest htexts hfuel
    have hquote : ∀ cs, objectMembers item ('"' :: cs)
        = member item cs >>= fun first =>
          moreMembers item first.2.length first.2 >>= fun others =>
            pure (first.1 :: others.1, others.2) := fun _ => rfl
    rw [List.map_cons, commas_cons, List.append_assoc, memberText_append,
      hquote, hread]
    simp only [bind, Except.bind, hrest]
    rfl

/-- **A list between brackets is read.** -/
theorem readsAs_array {words : List (List Char)} {items : List Json}
    (h : List.Forall₂ (ReadsAs item) words items) :
    ReadsAs (valueWith (some item)) ('[' :: (commas words ++ [']']))
      (.array items) where
  start := ⟨'[', _, rfl, by decide, by decide⟩
  reads rest _ := by
    have hvalue : ∀ cs, valueWith (some item) ('[' :: cs)
        = arrayItems item cs >>= fun items => pure (array items.1, items.2) :=
      fun _ => rfl
    rw [List.cons_append, List.append_assoc, hvalue]
    have hitems := arrayItems_commas h rest
    rw [List.singleton_append, hitems]
    rfl

/-- **An object between braces is read**, whatever the order of its
members. -/
theorem readsAs_object {texts : List (String × List Char)}
    {members sorted : List (String × Json)}
    (hsorted : Entries.ofList members = sorted)
    (h : List.Forall₂ (MemberReadsAs item) texts members) :
    ReadsAs (valueWith (some item))
      ('{' :: (commas (texts.map memberText) ++ ['}'])) (.object sorted) where
  start := ⟨'{', _, rfl, by decide, by decide⟩
  reads rest _ := by
    have hvalue : ∀ cs, valueWith (some item) ('{' :: cs)
        = objectMembers item cs >>= fun members =>
          pure (object (Entries.ofList members.1), members.2) := fun _ => rfl
    rw [List.cons_append, List.append_assoc, hvalue, List.singleton_append,
      objectMembers_commas h rest, ← hsorted]
    rfl

end

/-- **A text that reads as a value is the text of this value.** -/
theorem parse_of_readsAs {text : String} {j : Json}
    (h : ReadsAs (value maxLevels) text.toList j) : parse text = .ok j := by
  have hread := h.reads [] trivial
  rw [List.append_nil] at hread
  rw [parse, document, hread]
  rfl

end Json

end Avro
