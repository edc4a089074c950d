import Avro.Schema.Definition

/-!
# Schemas

A schema is a root type and the table of every named type its document declares, in declaration
order. A type expression is *resolved* by looking its name up in the table; `Shape` is what it then
is, with a definition in the place of a name.

`Schema.parse`, which builds schemas, makes every reference that can be reached name an entry of the
table. The structure does not require it: `shape?` and all that builds on it say what happens to a
name without a definition.
-/

namespace Avro

/-- **A schema document**: its root type and the named types it declares. -/
structure Schema where
  /-- The root type. -/
  root : TypeExpr
  /-- The named types in declaration order. -/
  definitions : List Definition
  /-- The text of the document. -/
  source : String
  deriving Repr, Inhabited

/-- **A type expression with its name looked up.** -/
inductive Shape
  /-- A primitive type. -/
  | primitive (p : Primitive)
  /-- A sequence of items. -/
  | array (items : TypeExpr)
  /-- String keys with values. -/
  | map (values : TypeExpr)
  /-- A choice among branches. -/
  | union (branches : List TypeExpr)
  /-- A record. -/
  | record (r : RecordType)
  /-- An enum. -/
  | enum (e : EnumType)
  /-- A fixed. -/
  | fixed (f : FixedType)
  deriving Repr, Inhabited

/-- The word for the kind of a shape. -/
def Shape.kind : Shape → String
  | primitive p => p.name
  | array _ => "array"
  | map _ => "map"
  | union _ => "union"
  | record _ => "record"
  | enum _ => "enum"
  | fixed _ => "fixed"

namespace Schema

/-- The definition of a full name. -/
def definition? (s : Schema) (name : FullName) : Option Definition :=
  s.definitions.find? (·.name = name)

/-- The shape of a type; `none` for a name without a definition. -/
def shape? (s : Schema) : TypeExpr → Option Shape
  | .primitive p => some (.primitive p)
  | .array items => some (.array items)
  | .map values => some (.map values)
  | .union branches => some (.union branches)
  | .named name =>
    match s.definition? name with
    | some (.record r) => some (.record r)
    | some (.enum e) => some (.enum e)
    | some (.fixed f) => some (.fixed f)
    | none => none

end Schema

end Avro
