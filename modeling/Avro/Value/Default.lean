import Avro.Json.Printer
import Avro.Schema.Basic
import Avro.Value.Basic

/-!
# Defaults

A default is declared as JSON and stands for a value of its type. Numbers must fit, bytes and fixed
values are strings whose characters are the bytes, an enum is named by its symbol, and a union
default is a value of the *first* branch.

A record default may leave fields out; each of them takes its own declared default. That starts the
conversion again from JSON that is not a part of the JSON at hand, and for a record whose field's
default leaves out that very field it comes back to where it began. While the default of a field is
being converted, needing the default of the same field again means that the conversion never ends;
`restarted` allows as many defaults inside one another as there are fields, and reports
`DefaultError.endless` beyond that.
-/

namespace Avro

/-- **Why a default is no value of its type.** -/
inductive DefaultError
  /-- The JSON is not of the expected type. -/
  | mismatch (expected json : String)
  /-- A record default leaves out a field that has no default of its own. -/
  | missingField (record field : String)
  /-- The type has no definition. -/
  | unresolved (type : String)
  /-- The conversion needs its own result. -/
  | endless
  deriving DecidableEq, Repr, Inhabited

/-- The message. -/
def DefaultError.message : DefaultError → String
  | mismatch expected json => s!"default {json} is not a valid {expected}"
  | missingField record field => s!"default for record `{record}` has no value for field `{field}`"
  | unresolved type => s!"type `{type}` is not defined"
  | endless => "default never ends"

/-- What a conversion ends with. -/
abbrev Converted (α : Type) := Except DefaultError α

namespace TypeExpr

/-- Converts at the first branch of a union, and of that if it is a union itself. -/
def atFirstBranch (empty : Converted Value) (leaf : TypeExpr → Converted Value) :
    TypeExpr → Converted Value
  | union [] => empty
  | union (first :: _) => (atFirstBranch empty leaf first).map (.union 0)
  | t => leaf t

end TypeExpr

namespace Value

/-- The bytes that the characters of a string stand for, when each of them is one. -/
def bytesOfChars : List Char → Option (List UInt8)
  | [] => some []
  | c :: rest =>
    if c.toNat < 256 then (bytesOfChars rest).map (UInt8.ofNat c.toNat :: ·) else none

/-- The bytes of a JSON string. -/
def bytesOfJson? (j : Json) : Option (List UInt8) :=
  j.string?.bind fun s => bytesOfChars s.toList

/-- The value of a primitive type. -/
def primitiveOfJson? : Primitive → Json → Option Value
  | .null, .null => some null
  | .boolean, .bool b => some (boolean b)
  | .int, .integer n =>
    if -0x80000000 ≤ n ∧ n < 0x80000000 then some (int (Int32.ofInt n)) else none
  | .long, j => j.int64?.map long
  | .float, j => j.double?.map fun x => float x.narrow
  | .double, j => j.double?.map double
  | .bytes, j => (bytesOfJson? j).map bytes
  | .string, .string s => some (string s)
  | _, _ => none

/-- The error of JSON that is not of the expected type. -/
def mismatch {α : Type} (expected : String) (j : Json) : Converted α :=
  .error (.mismatch expected j.text)

/-- The default of a type whose values are not built from other values; for the others the error. -/
def ofScalarDefault (s : Schema) (j : Json) (t : TypeExpr) : Converted Value :=
  match s.shape? t with
  | none => .error (.unresolved t.text)
  | some (.primitive p) =>
    match primitiveOfJson? p j with
    | some v => .ok v
    | none => mismatch p.name j
  | some (.enum e) =>
    match j with
    | .string symbol =>
      match e.symbolIndex? symbol with
      | some index => .ok (enum index symbol)
      | none => mismatch e.name.text j
    | _ => mismatch e.name.text j
  | some (.fixed f) =>
    match bytesOfJson? j with
    | some b => if b.length = f.size then .ok (fixed b) else mismatch f.name.text j
    | none => mismatch f.name.text j
  | some (.record r) => mismatch r.name.text j
  | some (.array _) | some (.map _) | some (.union _) => mismatch t.text j

/-- Converts entries, each with its own conversion. -/
def ofEntries (values : TypeExpr) :
    List (String × (TypeExpr → Converted Value)) → Converted (List (String × Value))
  | [] => .ok []
  | (key, convert) :: rest =>
    match convert values with
    | .error e => .error e
    | .ok v => (ofEntries values rest).map ((key, v) :: ·)

/-- Converts the fields of a record, each from the member of its name, or else by `otherwise`. -/
def ofMembers (otherwise : Field → Converted Value)
    (members : List (String × (TypeExpr → Converted Value))) :
    List Field → Converted (List (String × Value))
  | [] => .ok []
  | field :: rest =>
    let converted :=
      match Entries.find? field.name members with
      | some convert => convert field.type
      | none => otherwise field
    match converted with
    | .error e => .error e
    | .ok v => (ofMembers otherwise members rest).map ((field.name, v) :: ·)

mutual

/-- Converts JSON to a value of a type; `otherwise` gives the fields that a record leaves out. -/
def ofDefaultWith (s : Schema) (otherwise : RecordType → Field → Converted Value) :
    Json → TypeExpr → Converted Value
  | .array items, t =>
    t.atFirstBranch (mismatch "empty union" (.array items)) fun t =>
      match s.shape? t with
      | some (.array type) => (ofItems s otherwise items type).map array
      | _ => ofScalarDefault s (.array items) t
  | .object members, t =>
    t.atFirstBranch (mismatch "empty union" (.object members)) fun t =>
      match s.shape? t with
      | some (.map type) => (ofEntries type (conversions s otherwise members)).map map
      | some (.record r) =>
        (ofMembers (otherwise r) (conversions s otherwise members) r.fields).map record
      | _ => ofScalarDefault s (.object members) t
  | j, t => t.atFirstBranch (mismatch "empty union" j) (ofScalarDefault s j)

/-- Converts the items of an array. -/
def ofItems (s : Schema) (otherwise : RecordType → Field → Converted Value) :
    List Json → TypeExpr → Converted (List Value)
  | [], _ => .ok []
  | item :: rest, t =>
    match ofDefaultWith s otherwise item t with
    | .error e => .error e
    | .ok v => (ofItems s otherwise rest t).map (v :: ·)

/-- The conversion of each member of an object. -/
def conversions (s : Schema) (otherwise : RecordType → Field → Converted Value) :
    List (String × Json) → List (String × (TypeExpr → Converted Value))
  | [] => []
  | (key, j) :: rest => (key, ofDefaultWith s otherwise j) :: conversions s otherwise rest

end

/-- **The value of a field that a record default leaves out**: its own declared default. At most
`nested` declared defaults are converted inside one another. -/
def restarted (s : Schema) : (nested : Nat) → RecordType → Field → Converted Value
  | nested, r, field =>
    match field.default with
    | none => .error (.missingField r.name.text field.name)
    | some j =>
      match nested with
      | 0 => .error .endless
      | nested + 1 => ofDefaultWith s (restarted s nested) j field.type

/-- The number of fields that a schema declares. -/
def fieldCount (s : Schema) : Nat :=
  (s.definitions.flatMap fun
    | .record r => r.fields
    | _ => []).length

/-- **The value of a default** declared for a type. -/
def ofDefault (s : Schema) (t : TypeExpr) (j : Json) : Converted Value :=
  ofDefaultWith s (restarted s (fieldCount s)) j t

end Value

end Avro
