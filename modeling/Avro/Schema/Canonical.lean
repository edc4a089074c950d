import Avro.Json.Printer
import Avro.Schema.Basic

/-!
# Canonical forms

The canonical form keeps what determines how data is written: full names everywhere, attributes in
a fixed order, and no documentation, aliases, defaults or blanks. A named type is written out where
it is first met, depth first, and by its name afterwards.

The form is built as a tree (`Canonical`) and then written (`Canonical.chars`). Building it carries
the names met so far from left to right, and recurses on the number of definitions that may still
be written out: each of them is at most once.
-/

namespace Avro

/-- **A canonical form.** -/
inductive Canonical
  /-- A primitive type. -/
  | primitive (p : Primitive)
  /-- A sequence of items. -/
  | array (items : Canonical)
  /-- String keys with values. -/
  | map (values : Canonical)
  /-- A choice among branches. -/
  | union (branches : List Canonical)
  /-- A named type that was written out before. -/
  | reference (name : FullName)
  /-- A record, written out. -/
  | record (name : FullName) (fields : List (String × Canonical))
  /-- An enum, written out. -/
  | enum (name : FullName) (symbols : List String)
  /-- A fixed, written out. -/
  | fixed (name : FullName) (size : Nat)
  deriving Repr, Inhabited

namespace Canonical

open Json (quote)

/-- Words between commas. -/
def commas : List (List Char) → List Char
  | [] => []
  | [word] => word
  | word :: rest => word ++ ',' :: commas rest

mutual

/-- **The text of a canonical form.** -/
def chars : Canonical → List Char
  | primitive p => quote p.name.toList
  | array items => "\x7b\"type\":\"array\",\"items\":".toList ++ items.chars ++ ['}']
  | map values => "\x7b\"type\":\"map\",\"values\":".toList ++ values.chars ++ ['}']
  | union branches => '[' :: (commas (charsAll branches) ++ [']'])
  | reference name => quote name.text.toList
  | record name fields =>
    "\x7b\"name\":".toList ++ quote name.text.toList ++ ",\"type\":\"record\",\"fields\":[".toList
      ++ commas (charsFields fields) ++ [']', '}']
  | enum name symbols =>
    "\x7b\"name\":".toList ++ quote name.text.toList ++ ",\"type\":\"enum\",\"symbols\":[".toList
      ++ commas (symbols.map fun s => quote s.toList) ++ [']', '}']
  | fixed name size =>
    "\x7b\"name\":".toList ++ quote name.text.toList ++ ",\"type\":\"fixed\",\"size\":".toList
      ++ (toString size).toList ++ ['}']

/-- The text of each branch. -/
def charsAll : List Canonical → List (List Char)
  | [] => []
  | branch :: rest => branch.chars :: charsAll rest

/-- The text of each field. -/
def charsFields : List (String × Canonical) → List (List Char)
  | [] => []
  | (name, type) :: rest =>
    ("\x7b\"name\":".toList ++ quote name.toList ++ ",\"type\":".toList ++ type.chars ++ ['}'])
      :: charsFields rest

end

/-- The text of a canonical form as a string. -/
def text (c : Canonical) : String := String.ofList c.chars

end Canonical

namespace TypeExpr

mutual

/-- The canonical form of a type; `onName` writes a name or its definition. The names met so far
are carried along. -/
def canonicalWith (onName : FullName → List FullName → Canonical × List FullName) :
    TypeExpr → List FullName → Canonical × List FullName
  | primitive p, seen => (.primitive p, seen)
  | array items, seen =>
    let (items, seen) := canonicalWith onName items seen
    (.array items, seen)
  | map values, seen =>
    let (values, seen) := canonicalWith onName values seen
    (.map values, seen)
  | union branches, seen =>
    let (branches, seen) := canonicalAll onName branches seen
    (.union branches, seen)
  | named name, seen => onName name seen

/-- The canonical forms of branches, from left to right. -/
def canonicalAll (onName : FullName → List FullName → Canonical × List FullName) :
    List TypeExpr → List FullName → List Canonical × List FullName
  | [], seen => ([], seen)
  | branch :: rest, seen =>
    let (branch, seen) := canonicalWith onName branch seen
    let (rest, seen) := canonicalAll onName rest seen
    (branch :: rest, seen)

end

end TypeExpr

namespace Schema

/-- The canonical forms of fields, from left to right. -/
def canonicalFields (onName : FullName → List FullName → Canonical × List FullName) :
    List Field → List FullName → List (String × Canonical) × List FullName
  | [], seen => ([], seen)
  | field :: rest, seen =>
    let (type, seen) := field.type.canonicalWith onName seen
    let (rest, seen) := canonicalFields onName rest seen
    ((field.name, type) :: rest, seen)

/-- **The canonical form of a name**: its definition where it is met first, the bare name where it
was met before or has no definition. At most `budget` definitions are written inside one another. -/
def canonicalName (s : Schema) : (budget : Nat) → FullName → List FullName →
    Canonical × List FullName
  | 0, name, seen => (.reference name, seen)
  | budget + 1, name, seen =>
    if seen.contains name then (.reference name, seen)
    else
      let seen := name :: seen
      match s.definition? name with
      | some (.record r) =>
        let (fields, seen) := canonicalFields (s.canonicalName budget) r.fields seen
        (.record name fields, seen)
      | some (.enum e) => (.enum name e.symbols, seen)
      | some (.fixed f) => (.fixed name f.size, seen)
      | none => (.reference name, seen)

/-- **The canonical form of a schema.** -/
def canonical (s : Schema) : Canonical :=
  (s.root.canonicalWith (s.canonicalName (s.definitions.length + 1)) []).1

/-- The text of the canonical form. -/
def canonicalForm (s : Schema) : String := s.canonical.text

end Schema

end Avro
