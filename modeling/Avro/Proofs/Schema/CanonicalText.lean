import Avro.Proofs.Schema.Parsing
import Avro.Schema.Canonical
import Mathlib.Data.List.Basic

/-!
# Canonical forms are told apart by their texts

The text of a canonical form says of which form it is the text
(`Canonical.text_inj`), but for one thing: a reference is written as a
primitive type is. A type of the null namespace that has the name of a
primitive type is therefore mistaken for it where it is referred to, and this
is the only confusion there is. Forms without such references are *clear*.

Texts are compared in front of other texts. What is written is *delimited* if
it tells both what was written and where it ended (`Delimited`); this is so for
the escape of a character, for a quoted text, for what stands between commas,
and so, by induction, for a form. Forms of different kinds are told apart by a
few characters in front (`Canonical.tag`), so the induction only has to
compare forms of one kind.
-/

namespace Avro

/-! ## What is delimited -/

/-- **What is written is delimited**: in front of anything, it tells what was
written, among what has a property, and what comes after it. -/
def Delimited {α : Type} (write : α → List Char) (P : α → Prop) (a : α) :
    Prop :=
  ∀ a', P a' → ∀ rest rest', write a ++ rest = write a' ++ rest' →
    a = a' ∧ rest = rest'

namespace Json

/-- The number that a hexadecimal digit stands for. -/
def hexValue (digit : Char) : Nat :=
  (List.range 16).findIdx (hexDigit · = digit)

theorem hexValue_hexDigit : ∀ n < 16, hexValue (hexDigit n) = n := by
  decide

/-- **Takes an escape back**: the character, and what comes after it. -/
def unescape : List Char → Char × List Char
  | '\\' :: 'b' :: rest => (Char.ofNat 8, rest)
  | '\\' :: 't' :: rest => (Char.ofNat 9, rest)
  | '\\' :: 'n' :: rest => (Char.ofNat 10, rest)
  | '\\' :: 'f' :: rest => (Char.ofNat 12, rest)
  | '\\' :: 'r' :: rest => (Char.ofNat 13, rest)
  | '\\' :: 'u' :: _ :: _ :: high :: low :: rest =>
    (Char.ofNat (16 * hexValue high + hexValue low), rest)
  | '\\' :: c :: rest => (c, rest)
  | c :: rest => (c, rest)
  | [] => (default, [])

theorem unescape_of_ne {c : Char} (h : c ≠ '\\') (rest : List Char) :
    unescape (c :: rest) = (c, rest) := by
  unfold unescape
  split
  all_goals first | rfl | simp_all

/-- What is escaped is taken back. -/
theorem unescape_escape (c : Char) (rest : List Char) :
    unescape (escape c ++ rest) = (c, rest) := by
  have hnamed : ∀ n, c.toNat = n → (Char.ofNat n, rest) = (c, rest) := by
    rintro n rfl
    rw [Char.ofNat_toNat]
  unfold escape
  split_ifs with hquote hslash h8 h9 h10 h12 h13 hcontrol
  · rw [hquote]
    rfl
  · rw [hslash]
    rfl
  · exact hnamed 8 h8
  · exact hnamed 9 h9
  · exact hnamed 10 h10
  · exact hnamed 12 h12
  · exact hnamed 13 h13
  · refine hnamed _ ?_
    rw [hexValue_hexDigit _ (by omega), hexValue_hexDigit _ (by omega)]
    omega
  · exact unescape_of_ne hslash rest

/-- **The escape of a character is delimited.** -/
theorem delimited_escape (c : Char) : Delimited escape (fun _ => True) c := by
  intro c' _ rest rest' h
  exact Prod.mk.inj <|
    calc
      (c, rest) = unescape (escape c ++ rest) := (unescape_escape c rest).symm
      _ = unescape (escape c' ++ rest') := congrArg unescape h
      _ = (c', rest') := unescape_escape c' rest'

/-- No escape begins with a quote. -/
theorem escape_ne_quote (c : Char) {rest rest' : List Char} :
    escape c ++ rest ≠ '"' :: rest' := by
  intro h
  -- Only the quote itself could, and it is escaped.
  have hback := unescape_escape c rest
  rw [h, unescape_of_ne (by decide)] at hback
  obtain ⟨rfl, -⟩ := Prod.mk.inj hback
  exact absurd (List.cons.inj h).1 (by decide)

/-- Escaped characters in front of a quote. -/
theorem flatMap_escape_inj {rest rest' : List Char} :
    ∀ {s s' : List Char},
      s.flatMap escape ++ '"' :: rest = s'.flatMap escape ++ '"' :: rest' →
      s = s' ∧ rest = rest'
  | [], [], h => ⟨rfl, (List.cons.inj h).2⟩
  | [], c' :: s', h => by
    rw [List.flatMap_cons, List.append_assoc] at h
    exact absurd h.symm (escape_ne_quote c')
  | c :: s, [], h => by
    rw [List.flatMap_cons, List.append_assoc] at h
    exact absurd h (escape_ne_quote c)
  | c :: s, c' :: s', h => by
    rw [List.flatMap_cons, List.flatMap_cons, List.append_assoc,
      List.append_assoc] at h
    obtain ⟨rfl, htail⟩ := delimited_escape c c' trivial _ _ h
    obtain ⟨rfl, hrest⟩ := flatMap_escape_inj htail
    exact ⟨rfl, hrest⟩

/-- **A quoted text is delimited.** -/
theorem delimited_quote (s : String) :
    Delimited (fun s : String => quote s.toList) (fun _ => True) s := by
  intro s' _ rest rest' h
  simp only [quote, List.cons_append, List.append_assoc, List.nil_append] at h
  obtain ⟨hs, h⟩ := flatMap_escape_inj (List.cons.inj h).2
  exact ⟨String.toList_inj.mp hs, h⟩

end Json

/-- Texts that come before their first stop. -/
theorem append_stop_inj {stop : Char} :
    ∀ {word word' rest rest' : List Char}, stop ∉ word → stop ∉ word' →
      word ++ stop :: rest = word' ++ stop :: rest' →
      word = word' ∧ rest = rest'
  | [], [], _, _, _, _, h => ⟨rfl, (List.cons.inj h).2⟩
  | [], _ :: _, _, _, _, hword', h =>
    absurd (List.cons.inj h).1 (List.ne_of_not_mem_cons hword')
  | _ :: _, [], _, _, hword, _, h =>
    absurd (List.cons.inj h).1.symm (List.ne_of_not_mem_cons hword)
  | _ :: _, _ :: _, _, _, hword, hword', h => by
    obtain ⟨rfl, htail⟩ := List.cons.inj h
    obtain ⟨rfl, hrest⟩ := append_stop_inj
      (List.not_mem_of_not_mem_cons hword)
      (List.not_mem_of_not_mem_cons hword') htail
    exact ⟨rfl, hrest⟩

/-- The digits of a number are digits only. -/
theorem not_mem_toString {c : Char} (hc : c.isDigit = false) (n : Nat) :
    c ∉ (toString n).toList := by
  intro hmem
  have hdigits : c ∈ Nat.toDigits 10 n := by
    simpa [toString, Nat.repr] using hmem
  have hdigit := Nat.isDigit_of_mem_toDigits (by decide) (by decide) hdigits
  rw [hc] at hdigit
  cases hdigit

/-- Numbers are told apart by their digits. -/
theorem toString_nat_inj {n n' : Nat}
    (h : (toString n).toList = (toString n').toList) : n = n' := by
  have hdigits : Nat.toDigits 10 n = Nat.toDigits 10 n' := by
    simpa [Nat.toString_eq_ofList_toDigits] using h
  rw [← Nat.ofDigitChars_ten_toDigits (n := n), hdigits,
    Nat.ofDigitChars_ten_toDigits]

/-- The digits of a number in front of a brace. -/
theorem toString_brace_inj {n n' : Nat} {rest rest' : List Char}
    (h : (toString n).toList ++ '}' :: rest
      = (toString n').toList ++ '}' :: rest') : n = n' ∧ rest = rest' := by
  obtain ⟨hn, hrest⟩ := append_stop_inj (not_mem_toString rfl n)
    (not_mem_toString rfl n') h
  exact ⟨toString_nat_inj hn, hrest⟩

/-! ## Words between commas -/

namespace Canonical

open Json (quote)

/-- What comes after a word. -/
def afterWord : List (List Char) → List Char
  | [] => []
  | word :: rest => ',' :: commas (word :: rest)

/-- The first word and what comes after it. -/
theorem commas_cons (word : List Char) (rest : List (List Char)) :
    commas (word :: rest) = word ++ afterWord rest := by
  cases rest with
  | nil => exact (List.append_nil word).symm
  | cons next rest => rfl

/-- **Delimited words between commas**, in front of a bracket, tell what was
written, if no word begins with a bracket. -/
theorem commas_inj {α : Type} {write : α → List Char} {P : α → Prop}
    (hstart : ∀ (a : α) (rest rest' : List Char),
      write a ++ rest ≠ ']' :: rest') {rest rest' : List Char} :
    ∀ {l l' : List α}, (∀ a ∈ l, Delimited write P a) → (∀ a ∈ l', P a) →
      commas (l.map write) ++ ']' :: rest
        = commas (l'.map write) ++ ']' :: rest' →
      l = l' ∧ rest = rest'
  | [], [], _, _, h => ⟨rfl, (List.cons.inj h).2⟩
  | [], a' :: l', _, _, h => by
    rw [List.map_cons, commas_cons, List.append_assoc] at h
    exact absurd h.symm (hstart a' _ _)
  | a :: l, [], _, _, h => by
    rw [List.map_cons, commas_cons, List.append_assoc] at h
    exact absurd h (hstart a _ _)
  | a :: l, a' :: l', hl, hl', h => by
    rw [List.map_cons, List.map_cons, commas_cons, commas_cons,
      List.append_assoc, List.append_assoc] at h
    obtain ⟨rfl, hafter⟩ :=
      hl a List.mem_cons_self a' (hl' a' List.mem_cons_self) _ _ h
    cases l with
    | nil =>
      cases l' with
      | nil => exact ⟨rfl, (List.cons.inj hafter).2⟩
      | cons b' l' => exact absurd (List.cons.inj hafter).1 (by decide)
    | cons b l =>
      cases l' with
      | nil => exact absurd (List.cons.inj hafter).1 (by decide)
      | cons b' l' =>
        obtain ⟨hrest, hend⟩ := commas_inj hstart
          (fun a ha => hl a (List.mem_cons_of_mem _ ha))
          (fun a ha => hl' a (List.mem_cons_of_mem _ ha))
          (List.cons.inj hafter).2
        exact ⟨congrArg (a :: ·) hrest, hend⟩

/-! ## Kinds of forms -/

theorem chars_array (items : Canonical) :
    (array items).chars = "\x7b\"type\":\"array\",\"items\":".toList
      ++ items.chars ++ ['}'] := rfl

theorem chars_map (values : Canonical) :
    (map values).chars = "\x7b\"type\":\"map\",\"values\":".toList
      ++ values.chars ++ ['}'] := rfl

theorem chars_union (branches : List Canonical) :
    (union branches).chars
      = '[' :: (commas (charsAll branches) ++ [']']) := rfl

/-- What a definition begins with. -/
def opening (name : FullName) : List Char :=
  "\x7b\"name\":".toList ++ quote name.text.toList

theorem chars_record (name : FullName) (fields : List (String × Canonical)) :
    (record name fields).chars = opening name
      ++ ",\"type\":\"record\",\"fields\":[".toList
      ++ commas (charsFields fields) ++ [']', '}'] := rfl

theorem chars_enum (name : FullName) (symbols : List String) :
    (enum name symbols).chars = opening name
      ++ ",\"type\":\"enum\",\"symbols\":[".toList
      ++ commas (symbols.map fun s => quote s.toList) ++ [']', '}'] := rfl

theorem chars_fixed (name : FullName) (size : Nat) :
    (fixed name size).chars = opening name
      ++ ",\"type\":\"fixed\",\"size\":".toList
      ++ (toString size).toList ++ ['}'] := rfl

/-- **The characters in front of a form** that tell its kind. -/
def tag : Canonical → List Char
  | primitive _ | reference _ => ['"']
  | union _ => ['[']
  | array _ => ['{', '"', 't', 'y', 'p', 'e', '"', ':', '"', 'a']
  | map _ => ['{', '"', 't', 'y', 'p', 'e', '"', ':', '"', 'm']
  | record .. | enum .. | fixed .. => ['{', '"', 'n']

/-- All of them. -/
def tags : List (List Char) :=
  [['"'], ['['], ['{', '"', 't', 'y', 'p', 'e', '"', ':', '"', 'a'],
    ['{', '"', 't', 'y', 'p', 'e', '"', ':', '"', 'm'], ['{', '"', 'n']]

theorem tag_mem_tags (c : Canonical) : c.tag ∈ tags := by
  cases c <;> simp [tag, tags]

theorem tag_prefix_opening (name : FullName) : ['{', '"', 'n'] <+: opening name :=
  (show ['{', '"', 'n'] <+: "\x7b\"name\":".toList by decide).trans
    (List.prefix_append _ _)

/-- A text begins with the characters of its kind. -/
theorem tag_prefix_chars (c : Canonical) : c.tag <+: c.chars := by
  cases c with
  | primitive p => exact ⟨_, rfl⟩
  | reference name => exact ⟨_, rfl⟩
  | union branches => exact ⟨_, rfl⟩
  | array items =>
    rw [chars_array, List.append_assoc]
    exact (show ['{', '"', 't', 'y', 'p', 'e', '"', ':', '"', 'a']
        <+: "\x7b\"type\":\"array\",\"items\":".toList by decide).trans
      (List.prefix_append _ _)
  | map values =>
    rw [chars_map, List.append_assoc]
    exact (show ['{', '"', 't', 'y', 'p', 'e', '"', ':', '"', 'm']
        <+: "\x7b\"type\":\"map\",\"values\":".toList by decide).trans
      (List.prefix_append _ _)
  | record name fields =>
    rw [chars_record, List.append_assoc, List.append_assoc]
    exact (tag_prefix_opening name).trans (List.prefix_append _ _)
  | enum name symbols =>
    rw [chars_enum, List.append_assoc, List.append_assoc]
    exact (tag_prefix_opening name).trans (List.prefix_append _ _)
  | fixed name size =>
    rw [chars_fixed, List.append_assoc, List.append_assoc]
    exact (tag_prefix_opening name).trans (List.prefix_append _ _)

/-- None of them begins another one. -/
theorem tags_apart : ∀ t ∈ tags, ∀ t' ∈ tags, t <+: t' → t = t' := by
  decide

/-- **Texts are of one kind** if they agree in front of others. -/
theorem tag_eq {c c' : Canonical} {rest rest' : List Char}
    (h : c.chars ++ rest = c'.chars ++ rest') : c.tag = c'.tag := by
  have hc : c.tag <+: c.chars ++ rest :=
    (tag_prefix_chars c).trans (List.prefix_append _ _)
  have hc' : c'.tag <+: c.chars ++ rest :=
    h ▸ (tag_prefix_chars c').trans (List.prefix_append _ _)
  rcases List.prefix_or_prefix_of_prefix hc hc' with hp | hp
  · exact tags_apart _ (tag_mem_tags c) _ (tag_mem_tags c') hp
  · exact (tags_apart _ (tag_mem_tags c') _ (tag_mem_tags c) hp).symm

/-! ## Clear forms -/

mutual

/-- **A form is clear**: its names have no dot inside their namespaces, and no
reference is written as a primitive type is. -/
def Clear : Canonical → Prop
  | primitive _ => True
  | array items => Clear items
  | map values => Clear values
  | union branches => ClearAll branches
  | reference name =>
    '.' ∉ name.name.toList ∧ ∀ p : Primitive, name.text ≠ p.name
  | record name fields => '.' ∉ name.name.toList ∧ ClearFields fields
  | enum name _ | fixed name _ => '.' ∉ name.name.toList

/-- All branches are clear. -/
def ClearAll : List Canonical → Prop
  | [] => True
  | branch :: rest => Clear branch ∧ ClearAll rest

/-- The types of all fields are clear. -/
def ClearFields : List (String × Canonical) → Prop
  | [] => True
  | field :: rest => Clear field.2 ∧ ClearFields rest

end

theorem clearAll_iff : ∀ {branches : List Canonical},
    ClearAll branches ↔ ∀ branch ∈ branches, branch.Clear
  | [] => by simp [ClearAll]
  | branch :: rest => by
    rw [ClearAll, clearAll_iff, List.forall_mem_cons]

theorem clearFields_iff : ∀ {fields : List (String × Canonical)},
    ClearFields fields ↔ ∀ field ∈ fields, field.2.Clear
  | [] => by simp [ClearFields]
  | field :: rest => by
    rw [ClearFields, clearFields_iff, List.forall_mem_cons]

/-- The text of a field. -/
def charsField (field : String × Canonical) : List Char :=
  "\x7b\"name\":".toList ++ quote field.1.toList ++ ",\"type\":".toList
    ++ field.2.chars ++ ['}']

theorem charsAll_eq : ∀ branches : List Canonical,
    charsAll branches = branches.map chars
  | [] => rfl
  | branch :: rest => by rw [charsAll, charsAll_eq rest, List.map_cons]

theorem charsFields_eq : ∀ fields : List (String × Canonical),
    charsFields fields = fields.map charsField
  | [] => rfl
  | (name, type) :: rest => by
    rw [charsFields, charsFields_eq rest, List.map_cons]
    rfl

/-! ## Forms are delimited -/

/-- No text begins with a bracket that closes. -/
theorem chars_ne_bracket (c : Canonical) (rest rest' : List Char) :
    c.chars ++ rest ≠ ']' :: rest' := by
  obtain ⟨tail, htail⟩ := tag_prefix_chars c
  rw [← htail]
  intro h
  have htag : ∀ t ∈ tags, t.head? ≠ some ']' ∧ t ≠ [] := by decide
  obtain ⟨hhead, hne⟩ := htag _ (tag_mem_tags c)
  cases ht : c.tag with
  | nil => exact hne ht
  | cons x t =>
    rw [ht] at h hhead
    exact hhead (congrArg some (List.cons.inj h).1)

variable {items values : Canonical}

theorem delimited_primitive (p : Primitive) :
    Delimited chars Clear (primitive p) := by
  intro c' hc' rest rest' h
  have htag := tag_eq h
  cases c' with
  | primitive q =>
    obtain ⟨hname, hrest⟩ := Json.delimited_quote _ _ trivial _ _ h
    have hp := Primitive.ofName?_name p
    rw [show p.name = q.name from hname, Primitive.ofName?_name] at hp
    exact ⟨congrArg primitive (Option.some.inj hp).symm, hrest⟩
  | reference name =>
    obtain ⟨hname, hrest⟩ := Json.delimited_quote _ _ trivial _ _ h
    exact absurd hname.symm (hc'.2 p)
  | _ => exact absurd htag (by simp [tag])

theorem delimited_reference {name : FullName} (hc : (reference name).Clear) :
    Delimited chars Clear (reference name) := by
  intro c' hc' rest rest' h
  have htag := tag_eq h
  cases c' with
  | primitive q =>
    obtain ⟨hname, hrest⟩ := Json.delimited_quote _ _ trivial _ _ h
    exact absurd hname (hc.2 q)
  | reference name' =>
    obtain ⟨hname, hrest⟩ := Json.delimited_quote _ _ trivial _ _ h
    exact ⟨congrArg reference (FullName.text_inj hc.1 hc'.1 hname), hrest⟩
  | _ => exact absurd htag (by simp [tag])

theorem delimited_array (hitems : Delimited chars Clear items) :
    Delimited chars Clear (array items) := by
  intro c' hc' rest rest' h
  have htag := tag_eq h
  cases c' with
  | array items' =>
    simp only [chars_array, List.append_assoc] at h
    obtain ⟨rfl, hend⟩ := hitems items' hc' _ _ (List.append_cancel_left h)
    exact ⟨rfl, (List.cons.inj hend).2⟩
  | _ => exact absurd htag (by simp [tag])

theorem delimited_map (hvalues : Delimited chars Clear values) :
    Delimited chars Clear (map values) := by
  intro c' hc' rest rest' h
  have htag := tag_eq h
  cases c' with
  | map values' =>
    simp only [chars_map, List.append_assoc] at h
    obtain ⟨rfl, hend⟩ := hvalues values' hc' _ _ (List.append_cancel_left h)
    exact ⟨rfl, (List.cons.inj hend).2⟩
  | _ => exact absurd htag (by simp [tag])

theorem delimited_union {branches : List Canonical}
    (hbranches : ∀ branch ∈ branches, Delimited chars Clear branch) :
    Delimited chars Clear (union branches) := by
  intro c' hc' rest rest' h
  have htag := tag_eq h
  cases c' with
  | union branches' =>
    simp only [chars_union, charsAll_eq, List.cons_append, List.append_assoc,
      List.nil_append] at h
    obtain ⟨rfl, hend⟩ := commas_inj chars_ne_bracket hbranches
      (clearAll_iff.mp hc') (List.cons.inj h).2
    exact ⟨rfl, hend⟩
  | _ => exact absurd htag (by simp [tag])

theorem charsField_append (field : String × Canonical) (rest : List Char) :
    charsField field ++ rest = "\x7b\"name\":".toList
      ++ (quote field.1.toList ++ (",\"type\":".toList
        ++ (field.2.chars ++ '}' :: rest))) := by
  change _ ++ _ ++ _ ++ _ ++ _ ++ _ = _
  simp only [List.append_assoc, List.cons_append, List.nil_append]

/-- A field is delimited if its type is. -/
theorem delimited_field {field : String × Canonical}
    (htype : Delimited chars Clear field.2) :
    Delimited charsField (fun field => field.2.Clear) field := by
  intro field' hfield rest rest' h
  rw [charsField_append, charsField_append] at h
  have hquote := List.append_cancel_left h
  obtain ⟨hname, hbehind⟩ := Json.delimited_quote _ _ trivial _ _ hquote
  obtain ⟨htype, hend⟩ :=
    htype field'.2 hfield _ _ (List.append_cancel_left hbehind)
  exact ⟨Prod.ext hname htype, (List.cons.inj hend).2⟩

/-- What comes after the beginning of a definition. -/
theorem opening_inj {name name' : FullName} (hname : '.' ∉ name.name.toList)
    (hname' : '.' ∉ name'.name.toList) {rest rest' : List Char}
    (h : opening name ++ rest = opening name' ++ rest') :
    name = name' ∧ rest = rest' := by
  have hquote := List.append_cancel_left
    ((List.append_assoc _ _ _).symm.trans (h.trans (List.append_assoc _ _ _)))
  obtain ⟨htext, hrest⟩ := Json.delimited_quote _ _ trivial _ _ hquote
  exact ⟨FullName.text_inj hname hname' htext, hrest⟩

/-- The kinds of definitions are told apart behind their names. -/
theorem kinds_apart {rest rest' : List Char} :
    ",\"type\":\"record\",\"fields\":[".toList ++ rest
        ≠ ",\"type\":\"enum\",\"symbols\":[".toList ++ rest'
      ∧ ",\"type\":\"record\",\"fields\":[".toList ++ rest
        ≠ ",\"type\":\"fixed\",\"size\":".toList ++ rest'
      ∧ ",\"type\":\"enum\",\"symbols\":[".toList ++ rest
        ≠ ",\"type\":\"fixed\",\"size\":".toList ++ rest' := by
  simp

theorem delimited_record {name : FullName} {fields : List (String × Canonical)}
    (hc : (record name fields).Clear)
    (hfields : ∀ field ∈ fields, Delimited chars Clear field.2) :
    Delimited chars Clear (record name fields) := by
  intro c' hc' rest rest' h
  have htag := tag_eq h
  simp only [chars_record, List.append_assoc] at h
  cases c' with
  | record name' fields' =>
    simp only [chars_record, charsFields_eq, List.append_assoc] at h
    obtain ⟨rfl, hbody⟩ := opening_inj hc.1 hc'.1 h
    obtain ⟨rfl, hend⟩ := commas_inj
      (fun _ _ _ hstart => absurd (List.cons.inj hstart).1 (by decide))
      (fun field hfield => delimited_field (hfields field hfield))
      (clearFields_iff.mp hc'.2) (List.append_cancel_left hbody)
    exact ⟨rfl, (List.cons.inj hend).2⟩
  | enum name' symbols =>
    simp only [chars_enum, List.append_assoc] at h
    exact absurd (opening_inj hc.1 hc' h).2 kinds_apart.1
  | fixed name' size =>
    simp only [chars_fixed, List.append_assoc] at h
    exact absurd (opening_inj hc.1 hc' h).2 kinds_apart.2.1
  | _ => exact absurd htag (by simp [tag])

theorem delimited_enum {name : FullName} {symbols : List String}
    (hc : (enum name symbols).Clear) :
    Delimited chars Clear (enum name symbols) := by
  intro c' hc' rest rest' h
  have htag := tag_eq h
  simp only [chars_enum, List.append_assoc] at h
  cases c' with
  | record name' fields =>
    simp only [chars_record, List.append_assoc] at h
    exact absurd (opening_inj hc hc'.1 h).2.symm kinds_apart.1
  | enum name' symbols' =>
    simp only [chars_enum, List.append_assoc] at h
    obtain ⟨rfl, hbody⟩ := opening_inj hc hc' h
    obtain ⟨rfl, hend⟩ := commas_inj
      (fun _ _ _ hstart => absurd (List.cons.inj hstart).1 (by decide))
      (fun symbol _ => Json.delimited_quote symbol) (fun _ _ => trivial)
      (List.append_cancel_left hbody)
    exact ⟨rfl, (List.cons.inj hend).2⟩
  | fixed name' size =>
    simp only [chars_fixed, List.append_assoc] at h
    exact absurd (opening_inj hc hc' h).2 kinds_apart.2.2
  | _ => exact absurd htag (by simp [tag])

theorem delimited_fixed {name : FullName} {size : Nat}
    (hc : (fixed name size).Clear) :
    Delimited chars Clear (fixed name size) := by
  intro c' hc' rest rest' h
  have htag := tag_eq h
  simp only [chars_fixed, List.append_assoc] at h
  cases c' with
  | record name' fields =>
    simp only [chars_record, List.append_assoc] at h
    exact absurd (opening_inj hc hc'.1 h).2.symm kinds_apart.2.1
  | enum name' symbols =>
    simp only [chars_enum, List.append_assoc] at h
    exact absurd (opening_inj hc hc' h).2.symm kinds_apart.2.2
  | fixed name' size' =>
    simp only [chars_fixed, List.append_assoc] at h
    obtain ⟨rfl, hbody⟩ := opening_inj hc hc' h
    obtain ⟨rfl, hend⟩ := toString_brace_inj (List.append_cancel_left hbody)
    exact ⟨rfl, hend⟩
  | _ => exact absurd htag (by simp [tag])

mutual

/-- **The text of a clear form is delimited.** -/
theorem delimited_chars : ∀ c : Canonical, c.Clear → Delimited chars Clear c
  | primitive p, _ => delimited_primitive p
  | array items, hc => delimited_array (delimited_chars items hc)
  | map values, hc => delimited_map (delimited_chars values hc)
  | union branches, hc => delimited_union (delimited_charsAll branches hc)
  | reference _, hc => delimited_reference hc
  | record _ fields, hc =>
    delimited_record hc (delimited_charsFields fields hc.2)
  | enum _ _, hc => delimited_enum hc
  | fixed _ _, hc => delimited_fixed hc

/-- The texts of clear branches are delimited. -/
theorem delimited_charsAll : ∀ branches : List Canonical, ClearAll branches →
    ∀ branch ∈ branches, Delimited chars Clear branch
  | [], _, _, h => absurd h List.not_mem_nil
  | first :: rest, hc, branch, h =>
    (List.mem_cons.mp h).elim (fun heq => heq ▸ delimited_chars first hc.1)
      (delimited_charsAll rest hc.2 branch)

/-- The texts of the types of fields are delimited. -/
theorem delimited_charsFields : ∀ fields : List (String × Canonical),
    ClearFields fields → ∀ field ∈ fields, Delimited chars Clear field.2
  | [], _, _, h => absurd h List.not_mem_nil
  | first :: rest, hc, field, h =>
    (List.mem_cons.mp h).elim (fun heq => heq ▸ delimited_chars first.2 hc.1)
      (delimited_charsFields rest hc.2 field)

end

/-- **Clear forms are told apart by their texts.** -/
theorem text_inj {c c' : Canonical} (hc : c.Clear) (hc' : c'.Clear)
    (h : c.text = c'.text) : c = c' := by
  have hchars : c.chars ++ [] = c'.chars ++ [] := by
    rw [List.append_nil, List.append_nil]
    exact String.ofList_injective h
  exact (delimited_chars c hc c' hc' [] [] hchars).1

end Canonical

end Avro
