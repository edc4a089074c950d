import Avro.Json.Parser
import Avro.Json.Printer
import Avro.Schema.Basic
import Avro.Schema.Error

/-!
# Reading schema documents

A document is read in two steps. The first walks the JSON value and collects the named types on the
way: a name is *declared* when its definition is met, before the parts of the definition are read,
so that a name cannot be declared twice even inside itself, and it is *defined* afterwards. The
second step links every reference to a declared name, under its own namespace or, failing that, in
the null namespace; only then may a type refer to a later one.

The walk recurses on the levels of the JSON value, each call going at least one level down.
-/

namespace Avro

/-- **The named types met so far.** -/
structure Declarations where
  /-- The declared names in the order of their declarations. -/
  names : List FullName
  /-- The finished definitions. -/
  finished : List Definition
  deriving Repr, Inhabited

namespace Declarations

/-- No named types. -/
def empty : Declarations := ⟨[], []⟩

/-- The finished definitions in the order of their declarations. -/
def inOrder (d : Declarations) : List Definition :=
  d.names.filterMap fun name => d.finished.find? (·.name = name)

end Declarations

/-- A computation that may declare named types and may find the document wrong. -/
abbrev Declaring := StateT Declarations (Except SchemaError)

namespace Json

/-- The value of a member of an object. -/
abbrev Members := List (String × Json)

/-- The value of a required attribute. -/
def required (members : Members) (key context : String) : Except SchemaError Json :=
  match Entries.find? key members with
  | some j => .ok j
  | none => .error (.missingAttribute key context)

/-- The value of a required attribute that must be a string. -/
def requiredString (members : Members) (key context : String) : Except SchemaError String :=
  match required members key context with
  | .error e => .error e
  | .ok (string s) => .ok s
  | .ok _ => .error (.ofDefect (.notString key context))

/-- The value of an attribute that counts only if it is a string. -/
def optionalString (members : Members) (key : String) : Option String :=
  (Entries.find? key members).bind string?

/-- The strings of a list of values. -/
def strings (key : String) : List Json → Except SchemaError (List String)
  | [] => .ok []
  | string s :: rest =>
    match strings key rest with
    | .ok others => .ok (s :: others)
    | .error e => .error e
  | _ :: _ => .error (.ofDefect (.notOnlyStrings key))

/-- The value of an attribute that is an array of strings; a missing one is empty. -/
def stringList (members : Members) (key : String) : Except SchemaError (List String) :=
  match Entries.find? key members with
  | none => .ok []
  | some (array items) => strings key items
  | some _ => .error (.ofDefect (.notStringArray key))

end Json

namespace Schema

open Json (Members required requiredString optionalString stringList)

/-- A written type name: a primitive, or a reference that takes the enclosing namespace. -/
def typeOfName (name enclosing : String) : TypeExpr :=
  match Primitive.ofName? name with
  | some p => .primitive p
  | none => .named (.ofString name enclosing)

/-- **Declares a named type**: reads its name and aliases and reserves the name. -/
def declare (members : Members) (enclosing kind : String) :
    Declaring (FullName × List FullName) := do
  let written ← requiredString members "name" kind
  let space := (optionalString members "namespace").getD enclosing
  let name := FullName.ofString written space
  let aliases ← stringList members "aliases"
  let aliases := aliases.map fun other => FullName.ofString other name.space
  let declared ← get
  if declared.names.contains name then throw (.duplicateDefinition name)
  set { declared with names := declared.names ++ [name] }
  return (name, aliases)

/-- Finishes a declared type; the result refers to it. -/
def define (d : Definition) : Declaring TypeExpr := do
  modify fun declared => { declared with finished := declared.finished ++ [d] }
  return .named d.name

/-- Reads an enum definition. -/
def enumOf (members : Members) (enclosing : String) : Declaring TypeExpr := do
  let (name, aliases) ← declare members enclosing "enum"
  match Entries.find? "symbols" members with
  | some (.array _) => pure ()
  | _ => throw (.missingAttribute "symbols" s!"enum `{name.text}`")
  let symbols ← stringList members "symbols"
  let default := optionalString members "default"
  match default with
  | some symbol =>
    if !symbols.contains symbol then throw (.ofDefect (.unknownDefault name symbol))
  | none => pure ()
  define (.enum ⟨name, aliases, symbols, default, optionalString members "doc"⟩)

/-- Reads a fixed definition. -/
def fixedOf (members : Members) (enclosing : String) : Declaring TypeExpr := do
  let (name, aliases) ← declare members enclosing "fixed"
  let size ← required members "size" "fixed"
  match size.nat? with
  | some size => define (.fixed ⟨name, aliases, size⟩)
  | none => throw (.ofDefect (.badSize name))

/-- Reads the fields of a record; `seen` are the names of the fields before them. -/
def fieldsOf (typeOf : Json → String → Declaring TypeExpr) (record : FullName) :
    (seen : List String) → List Json → Declaring (List Field)
  | _, [] => pure []
  | seen, .object members :: rest => do
    let name ← requiredString members "name" "field"
    if seen.contains name then throw (.ofDefect (.duplicateField record name))
    let written ← required members "type" "field"
    let type ← typeOf written record.space
    let aliases ← stringList members "aliases"
    let field : Field :=
      { name, type, aliases
        default := Entries.find? "default" members
        doc := optionalString members "doc" }
    let others ← fieldsOf typeOf record (name :: seen) rest
    return field :: others
  | _, _ :: _ => throw (.ofDefect (.fieldNotObject record))

/-- Reads a record definition. -/
def recordOf (typeOf : Json → String → Declaring TypeExpr) (members : Members)
    (enclosing : String) : Declaring TypeExpr := do
  let (name, aliases) ← declare members enclosing "record"
  match ← required members "fields" "record" with
  | .array items =>
    let fields ← fieldsOf typeOf name [] items
    define (.record ⟨name, aliases, fields, optionalString members "doc"⟩)
  | _ => throw (.ofDefect (.fieldsNotArray name))

/-- Reads the branches of a union. -/
def branchesOf (typeOf : Json → String → Declaring TypeExpr) (enclosing : String) :
    List Json → Declaring (List TypeExpr)
  | [] => pure []
  | item :: rest => do
    let branch ← typeOf item enclosing
    let others ← branchesOf typeOf enclosing rest
    return branch :: others

/-- Reads a type written as an object. An attribute `type` that is not a string wraps another type;
attributes of a primitive type are ignored. -/
def typeOfObject (typeOf : Json → String → Declaring TypeExpr) (members : Members)
    (enclosing : String) : Declaring TypeExpr := do
  match ← required members "type" "type object" with
  | .string "record" | .string "error" => recordOf typeOf members enclosing
  | .string "enum" => enumOf members enclosing
  | .string "fixed" => fixedOf members enclosing
  | .string "array" =>
    let items ← required members "items" "array"
    return .array (← typeOf items enclosing)
  | .string "map" =>
    let values ← required members "values" "map"
    return .map (← typeOf values enclosing)
  | .string name => return typeOfName name enclosing
  | wrapped => typeOf wrapped enclosing

/-- **Reads a type expression** inside an enclosing namespace, going down at most the given number
of levels of the JSON value. -/
def typeOf : (levels : Nat) → Json → (enclosing : String) → Declaring TypeExpr
  | 0, j, _ => throw (.ofDefect (.notAType j.text))
  | levels + 1, j, enclosing => do
    match j with
    | .string name => return typeOfName name enclosing
    | .array items =>
      let branches ← branchesOf (typeOf levels) enclosing items
      if branches.any TypeExpr.isUnion then throw (.ofDefect .nestedUnion)
      return .union branches
    | .object members => typeOfObject (typeOf levels) members enclosing
    | other => throw (.ofDefect (.notAType other.text))

end Schema

namespace TypeExpr

mutual

/-- **Links references to known names**: a name that is not known under its own namespace is looked
for in the null namespace. -/
def link (known : List FullName) : TypeExpr → Except SchemaError TypeExpr
  | primitive p => .ok (primitive p)
  | array items => (link known items).map array
  | map values => (link known values).map map
  | union branches => (linkAll known branches).map union
  | named name =>
    if known.contains name then .ok (named name)
    else if known.contains name.bare then .ok (named name.bare)
    else .error (.unresolvedReference name)

/-- Links the references of each branch. -/
def linkAll (known : List FullName) : List TypeExpr → Except SchemaError (List TypeExpr)
  | [] => .ok []
  | branch :: rest =>
    match link known branch with
    | .error e => .error e
    | .ok branch => (linkAll known rest).map (branch :: ·)

end

end TypeExpr

namespace Schema

/-- Links the references of fields. -/
def linkFields (known : List FullName) : List Field → Except SchemaError (List Field)
  | [] => .ok []
  | field :: rest =>
    match field.type.link known with
    | .error e => .error e
    | .ok type => (linkFields known rest).map ({ field with type } :: ·)

/-- Links the references of a definition. -/
def linkDefinition (known : List FullName) : Definition → Except SchemaError Definition
  | .record r => (linkFields known r.fields).map fun fields => .record { r with fields }
  | d => .ok d

/-- Links the references of definitions. -/
def linkDefinitions (known : List FullName) : List Definition → Except SchemaError (List Definition)
  | [] => .ok []
  | d :: rest =>
    match linkDefinition known d with
    | .error e => .error e
    | .ok d => (linkDefinitions known rest).map (d :: ·)

/-- **The schema of a JSON value** whose text is `source`. -/
def ofJson (j : Json) (source : String) : Except SchemaError Schema := do
  let (root, declared) ← (typeOf j.depth j "").run .empty
  let definitions := declared.inOrder
  let known := definitions.map Definition.name
  let root ← root.link known
  let definitions ← linkDefinitions known definitions
  return ⟨root, definitions, source⟩

/-- **Reads a schema document.** -/
def parse (source : String) : Except SchemaError Schema :=
  match Json.parse source with
  | .error e => .error (.ofSyntax e)
  | .ok j => ofJson j source

end Schema

end Avro
