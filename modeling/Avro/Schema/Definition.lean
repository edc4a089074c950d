import Avro.Json.Basic
import Avro.Type

/-!
# Definitions of named types

A schema document declares records, enums and fixed types. Each has a full name and aliases, the
other names under which data may have been written. A reader's definition *accepts* a writer's name
when the two names agree without their namespaces, or when the writer's full name is one of its
aliases (`Definition.acceptsName`).
-/

namespace Avro

/-- **A field of a record.** -/
structure Field where
  /-- The name, unique in its record. -/
  name : String
  /-- The type of the values. -/
  type : TypeExpr
  /-- Other names the field may have been written under. -/
  aliases : List String
  /-- The declared default; an explicit `null` is a default too. -/
  default : Option Json
  /-- The documentation. -/
  doc : Option String
  deriving Repr, Inhabited

/-- **A record definition.** -/
structure RecordType where
  /-- The full name. -/
  name : FullName
  /-- Other full names. -/
  aliases : List FullName
  /-- The fields in declaration order. -/
  fields : List Field
  /-- The documentation. -/
  doc : Option String
  deriving Repr, Inhabited

/-- **An enum definition.** -/
structure EnumType where
  /-- The full name. -/
  name : FullName
  /-- Other full names. -/
  aliases : List FullName
  /-- The symbols, numbered from 0. -/
  symbols : List String
  /-- The symbol that stands for written symbols this enum does not declare. -/
  default : Option String
  /-- The documentation. -/
  doc : Option String
  deriving Repr, Inhabited

/-- **A fixed definition**: byte strings of one size. -/
structure FixedType where
  /-- The full name. -/
  name : FullName
  /-- Other full names. -/
  aliases : List FullName
  /-- The number of bytes. -/
  size : Nat
  deriving Repr, Inhabited

/-- Whether a field answers to a name, by its own or by an alias. -/
def Field.answersTo (f : Field) (name : String) : Bool :=
  f.name = name || f.aliases.contains name

namespace RecordType

/-- The position of the field of a given name. -/
def fieldIndex? (r : RecordType) (name : String) : Option Nat :=
  r.fields.findIdx? (·.name = name)

/-- **The field that receives what a writer stored under a name**: the field of that name, else the
first one that lists the name as an alias. -/
def receivingIndex? (r : RecordType) (written : String) : Option Nat :=
  (r.fieldIndex? written).or (r.fields.findIdx? (·.aliases.contains written))

end RecordType

/-- The position of a symbol, the first if it is declared twice. -/
def EnumType.symbolIndex? (e : EnumType) (symbol : String) : Option Nat :=
  e.symbols.findIdx? (· = symbol)

/-- Whether a reader's name, or one of its aliases, stands for a writer's full name. -/
def FullName.standsFor (reader : FullName) (aliases : List FullName) (writer : FullName) : Bool :=
  reader.name = writer.name || aliases.contains writer

/-- **The definition of a named type.** -/
inductive Definition
  /-- A record. -/
  | record (r : RecordType)
  /-- An enum. -/
  | enum (e : EnumType)
  /-- A fixed. -/
  | fixed (f : FixedType)
  deriving Repr, Inhabited

namespace Definition

/-- The full name. -/
def name : Definition → FullName
  | record r => r.name
  | enum e => e.name
  | fixed f => f.name

/-- Other full names. -/
def aliases : Definition → List FullName
  | record r => r.aliases
  | enum e => e.aliases
  | fixed f => f.aliases

/-- The word for the kind of definition. -/
def kind : Definition → String
  | record _ => "record"
  | enum _ => "enum"
  | fixed _ => "fixed"

/-- Whether data written under a full name may be read as this type. -/
def acceptsName (d : Definition) (writer : FullName) : Bool :=
  d.name.standsFor d.aliases writer

end Definition

end Avro
