import Mathlib
import Avro.Proofs.Schema.CanonicalForm
import Avro.Proofs.Schema.JsonText

/-!
# Canonical forms as documents

The text of a canonical form is JSON (`Canonical.readsAs_chars`), if it does
not nest deeper than the reader goes.
-/

namespace Avro

namespace Json

mutual

/-- **How deep a value nests**: the most arrays and objects that stand inside
one another. -/
def nesting : Json → Nat
  | array items => nestingItems items + 1
  | object members => nestingMembers members + 1
  | _ => 0

/-- How deep the items of an array nest. -/
def nestingItems : List Json → Nat
  | [] => 0
  | item :: rest => max item.nesting (nestingItems rest)

/-- How deep the members of an object nest. -/
def nestingMembers : List (String × Json) → Nat
  | [] => 0
  | (_, value) :: rest => max value.nesting (nestingMembers rest)

end

end Json

namespace Canonical

open Json (quote memberText ReadsAs MemberReadsAs value valueWith)

mutual

/-- **The JSON value of a canonical form.** -/
def document : Canonical → Json
  | primitive p => .string p.name
  | array items =>
    .object [("items", items.document), ("type", .string "array")]
  | map values =>
    .object [("type", .string "map"), ("values", values.document)]
  | union branches => .array (documents branches)
  | reference name => .string name.text
  | record name fields => .object [("fields", .array (fieldDocuments fields)),
      ("name", .string name.text), ("type", .string "record")]
  | enum name symbols => .object [("name", .string name.text),
      ("symbols", .array (symbols.map Json.string)), ("type", .string "enum")]
  | fixed name size => .object [("name", .string name.text),
      ("size", .integer size), ("type", .string "fixed")]

/-- The JSON values of branches. -/
def documents : List Canonical → List Json
  | [] => []
  | branch :: rest => branch.document :: documents rest

/-- The JSON values of fields. -/
def fieldDocuments : List (String × Canonical) → List Json
  | [] => []
  | (name, type) :: rest =>
    .object [("name", .string name), ("type", type.document)]
      :: fieldDocuments rest

end

/-! ## Texts of members -/

theorem chars_array_eq (items : Canonical) :
    (array items).chars = '{' :: (commas
      ([("type", quote "array".toList), ("items", items.chars)].map memberText)
        ++ ['}']) := by
  have hopening : "\x7b\"type\":\"array\",\"items\":".toList
      = '{' :: (quote "type".toList ++ ':' :: (quote "array".toList
        ++ ',' :: (quote "items".toList ++ [':']))) := by decide
  simp only [chars_array, hopening, List.map, memberText, commas,
    List.append_assoc, List.cons_append, List.nil_append]

theorem chars_map_eq (values : Canonical) :
    (map values).chars = '{' :: (commas
      ([("type", quote "map".toList), ("values", values.chars)].map memberText)
        ++ ['}']) := by
  have hopening : "\x7b\"type\":\"map\",\"values\":".toList
      = '{' :: (quote "type".toList ++ ':' :: (quote "map".toList
        ++ ',' :: (quote "values".toList ++ [':']))) := by decide
  simp only [chars_map, hopening, List.map, memberText, commas,
    List.append_assoc, List.cons_append, List.nil_append]

/-- What a definition begins with, up to the comma. -/
theorem opening_eq (name : FullName) :
    opening name = '{' :: memberText ("name", quote name.text.toList) := by
  have hname : "\x7b\"name\":".toList = '{' :: (quote "name".toList ++ [':']) :=
    by decide
  unfold opening memberText
  dsimp only
  rw [hname]
  simp only [List.append_assoc, List.cons_append, List.nil_append]

theorem chars_record_eq (name : FullName) (fields : List (String × Canonical)) :
    (record name fields).chars = '{' :: (commas
      ([("name", quote name.text.toList), ("type", quote "record".toList),
        ("fields", '[' :: (commas (fields.map charsField) ++ [']']))].map
          memberText) ++ ['}']) := by
  have hword : ",\"type\":\"record\",\"fields\":[".toList
      = ',' :: (quote "type".toList ++ ':' :: (quote "record".toList
        ++ ',' :: (quote "fields".toList ++ [':', '[']))) := by decide
  simp only [chars_record, charsFields_eq, opening_eq, hword, List.map,
    memberText, commas, List.append_assoc, List.cons_append, List.nil_append]

theorem chars_enum_eq (name : FullName) (symbols : List String) :
    (enum name symbols).chars = '{' :: (commas
      ([("name", quote name.text.toList), ("type", quote "enum".toList),
        ("symbols", '[' :: (commas (symbols.map fun s => quote s.toList)
          ++ [']']))].map memberText) ++ ['}']) := by
  have hword : ",\"type\":\"enum\",\"symbols\":[".toList
      = ',' :: (quote "type".toList ++ ':' :: (quote "enum".toList
        ++ ',' :: (quote "symbols".toList ++ [':', '[']))) := by decide
  simp only [chars_enum, opening_eq, hword, List.map, memberText, commas,
    List.append_assoc, List.cons_append, List.nil_append]

theorem chars_fixed_eq (name : FullName) (size : Nat) :
    (fixed name size).chars = '{' :: (commas
      ([("name", quote name.text.toList), ("type", quote "fixed".toList),
        ("size", (toString size).toList)].map memberText) ++ ['}']) := by
  have hword : ",\"type\":\"fixed\",\"size\":".toList
      = ',' :: (quote "type".toList ++ ':' :: (quote "fixed".toList
        ++ ',' :: (quote "size".toList ++ [':']))) := by decide
  simp only [chars_fixed, opening_eq, hword, List.map, memberText, commas,
    List.append_assoc, List.cons_append, List.nil_append]

theorem charsField_eq (field : String × Canonical) :
    charsField field = '{' :: (commas
      ([("name", quote field.1.toList), ("type", field.2.chars)].map memberText)
        ++ ['}']) := by
  have hname : "\x7b\"name\":".toList = '{' :: (quote "name".toList ++ [':']) :=
    by decide
  have hword : ",\"type\":".toList = ',' :: (quote "type".toList ++ [':']) := by
    decide
  unfold charsField
  dsimp only [List.map, memberText, commas]
  rw [hname, hword]
  simp only [List.append_assoc, List.cons_append, List.nil_append]

/-! ## Texts are read -/

/-- The sizes in definitions are integers of JSON. -/
def SizesFit (ds : List Definition) : Prop :=
  ∀ f, .fixed f ∈ ds → f.size < 0x10000000000000000

theorem readsAs_string (levels : Nat) (s : String) :
    ReadsAs (value levels) (quote s.toList) (.string s) := by
  cases levels <;> exact Json.readsAs_quote _ s

theorem readsAs_integer (levels : Nat) {n : Nat}
    (h : n < 0x10000000000000000) :
    ReadsAs (value levels) (toString n).toList (.integer n) := by
  cases levels <;> exact Json.readsAs_toString _ h

theorem readsAs_strings (levels : Nat) : ∀ symbols : List String,
    List.Forall₂ (ReadsAs (value levels))
      (symbols.map fun s => quote s.toList) (symbols.map Json.string)
  | [] => .nil
  | s :: rest => .cons (readsAs_string levels s) (readsAs_strings levels rest)

/-- A value that nests is read with a level less inside. -/
theorem readsAs_of_lt {m n : Nat} {text : List Char} {j : Json}
    (hlevels : n + 1 ≤ m)
    (h : ∀ l, n ≤ l → ReadsAs (valueWith (some (value l))) text j) :
    ReadsAs (value m) text j := by
  obtain ⟨l, rfl⟩ := Nat.exists_eq_succ_of_ne_zero (Nat.ne_of_gt
    (Nat.lt_of_lt_of_le (Nat.succ_pos n) hlevels))
  exact h l (Nat.le_of_succ_le_succ hlevels)

mutual

/-- **The text of a canonical form reads as its JSON value.** -/
theorem readsAs_chars : ∀ (c : Canonical) (levels : Nat),
    c.document.nesting ≤ levels → SizesFit c.definitions →
    ReadsAs (value levels) c.chars c.document
  | primitive p, levels, _, _ => readsAs_string levels p.name
  | reference name, levels, _, _ => readsAs_string levels name.text
  | array items, levels, hlevels, hsizes => by
    refine readsAs_of_lt hlevels fun l hl => ?_
    have hitems := readsAs_chars items l ((Nat.le_max_left _ _).trans hl) hsizes
    rw [chars_array_eq]
    exact Json.readsAs_object (by cbv)
      (.cons (Json.memberReadsAs "type" (readsAs_string l "array"))
        (.cons (Json.memberReadsAs "items" hitems) .nil))
  | map values, levels, hlevels, hsizes => by
    refine readsAs_of_lt hlevels fun l hl => ?_
    have hvalues := readsAs_chars values l (by
      have hmax : max 0 (max values.document.nesting 0) ≤ l := hl
      omega) hsizes
    rw [chars_map_eq]
    exact Json.readsAs_object (by cbv)
      (.cons (Json.memberReadsAs "type" (readsAs_string l "map"))
        (.cons (Json.memberReadsAs "values" hvalues) .nil))
  | union branches, levels, hlevels, hsizes => by
    refine readsAs_of_lt hlevels fun l hl => ?_
    rw [chars_union, charsAll_eq]
    exact Json.readsAs_array (readsAs_charsAll branches l hl hsizes)
  | record name fields, levels, hlevels, hsizes => by
    refine readsAs_of_lt hlevels fun l hl => ?_
    have hfields := readsAs_of_lt (m := l) ((Nat.le_max_left _ _).trans hl)
      fun l' hl' => Json.readsAs_array (readsAs_charsFields fields l' hl'
        fun f hf => hsizes f (List.mem_cons_of_mem _ hf))
    rw [chars_record_eq]
    exact Json.readsAs_object (by cbv)
      (.cons (Json.memberReadsAs "name" (readsAs_string l name.text))
        (.cons (Json.memberReadsAs "type" (readsAs_string l "record"))
          (.cons (Json.memberReadsAs "fields" hfields) .nil)))
  | enum name symbols, levels, hlevels, hsizes => by
    refine readsAs_of_lt hlevels fun l hl => ?_
    have hsymbols := readsAs_of_lt (m := l) (n := 0) (by
        have hmax : max 0 (max (Json.nestingItems (symbols.map Json.string) + 1)
          (max 0 0)) ≤ l := hl
        omega)
      fun l' _ => Json.readsAs_array (readsAs_strings l' symbols)
    rw [chars_enum_eq]
    exact Json.readsAs_object (by cbv)
      (.cons (Json.memberReadsAs "name" (readsAs_string l name.text))
        (.cons (Json.memberReadsAs "type" (readsAs_string l "enum"))
          (.cons (Json.memberReadsAs "symbols" hsymbols) .nil)))
  | fixed name size, levels, hlevels, hsizes => by
    refine readsAs_of_lt hlevels fun l hl => ?_
    have hsize := readsAs_integer l
      (hsizes ⟨name, [], size⟩ (List.mem_singleton_self _))
    rw [chars_fixed_eq]
    exact Json.readsAs_object (by cbv)
      (.cons (Json.memberReadsAs "name" (readsAs_string l name.text))
        (.cons (Json.memberReadsAs "type" (readsAs_string l "fixed"))
          (.cons (Json.memberReadsAs "size" hsize) .nil)))

theorem readsAs_charsAll : ∀ (branches : List Canonical) (levels : Nat),
    Json.nestingItems (documents branches) ≤ levels →
    SizesFit (definitionsAll branches) →
    List.Forall₂ (ReadsAs (value levels)) (branches.map chars)
      (documents branches)
  | [], _, _, _ => .nil
  | branch :: rest, levels, hlevels, hsizes => by
    obtain ⟨hbranch, hrest⟩ := Nat.max_le.mp hlevels
    exact .cons
      (readsAs_chars branch levels hbranch fun f hf =>
        hsizes f (List.mem_append_left _ hf))
      (readsAs_charsAll rest levels hrest fun f hf =>
        hsizes f (List.mem_append_right _ hf))

theorem readsAs_charsFields : ∀ (fields : List (String × Canonical))
    (levels : Nat), Json.nestingItems (fieldDocuments fields) ≤ levels →
    SizesFit (definitionsFields fields) →
    List.Forall₂ (ReadsAs (value levels)) (fields.map charsField)
      (fieldDocuments fields)
  | [], _, _, _ => .nil
  | (name, type) :: rest, levels, hlevels, hsizes => by
    obtain ⟨hfield, hrest⟩ := Nat.max_le.mp hlevels
    refine .cons (readsAs_of_lt hfield fun l hl => ?_)
      (readsAs_charsFields rest levels hrest fun f hf =>
        hsizes f (List.mem_append_right _ hf))
    have htype := readsAs_chars type l (by
      have hmax : max 0 (max type.document.nesting 0) ≤ l := hl
      omega) fun f hf => hsizes f (List.mem_append_left _ hf)
    rw [charsField_eq]
    exact Json.readsAs_object (by cbv)
      (.cons (Json.memberReadsAs "name" (readsAs_string l name))
        (.cons (Json.memberReadsAs "type" htype) .nil))

end

/-- **A canonical form is a JSON text**, if it does not nest deeper than is
read. -/
theorem parse_text {c : Canonical} (hnesting : c.document.nesting < 128)
    (hsizes : SizesFit c.definitions) : Json.parse c.text = .ok c.document := by
  refine Json.parse_of_readsAs ?_
  rw [text, String.toList_ofList]
  exact readsAs_chars c Json.maxLevels (Nat.le_of_lt_succ hnesting) hsizes

end Canonical

end Avro
