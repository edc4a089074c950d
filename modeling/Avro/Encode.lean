import Avro.Schema.Basic
import Avro.Value.Basic
import Avro.Wire.Output
import Avro.Wire.Write

/-!
# Encoding values

The bytes of a value as a type of a schema. Arrays and maps are written as one block and the empty
block that ends them, an enum goes by its symbol and a union by its branch.

A value that is not of the type is found out only where it does not fit, when some bytes are already
out. What encoding produces is therefore a `Draft`: the bytes up to a fault, and the fault.
-/

namespace Avro

/-- **Why a value cannot be encoded.** -/
inductive EncodeError
  /-- The value is of another kind. -/
  | mismatch (expected actual : String)
  /-- A record value lacks a field. -/
  | missingField (record field : String)
  /-- A symbol that the enum does not declare. -/
  | unknownSymbol (enum symbol : String)
  /-- A branch that the union does not have. -/
  | invalidBranch (union : String) (index : Nat)
  /-- A fixed value of the wrong size. -/
  | fixedSize (fixed : String) (expected actual : Nat)
  /-- A type without definition. -/
  | unresolved (type : String)
  /-- The output failed. -/
  | device (reason : String)
  deriving DecidableEq, Repr, Inhabited

/-- The message. -/
def EncodeError.message : EncodeError → String
  | mismatch expected actual => s!"expected {expected}, got {actual}"
  | missingField record field => s!"record `{record}` has no value for field `{field}`"
  | unknownSymbol enum symbol => s!"`{symbol}` is not a symbol of enum `{enum}`"
  | invalidBranch union index => s!"union `{union}` has no branch {index}"
  | fixedSize fixed expected actual => s!"fixed `{fixed}` must be {expected} bytes, got {actual}"
  | unresolved type => s!"unresolved type reference `{type}`"
  | device reason => reason

/-- **Bytes up to a fault.** -/
structure Draft where
  /-- The bytes before the fault, or all of them. -/
  bytes : List UInt8
  /-- The fault, if there is one. -/
  fault : Option EncodeError
  deriving DecidableEq, Repr, Inhabited

namespace Draft

/-- Bytes without a fault. -/
def ok (bytes : List UInt8) : Draft := ⟨bytes, none⟩

/-- A fault before any byte. -/
def fail (e : EncodeError) : Draft := ⟨[], some e⟩

/-- One draft after the other; nothing follows a fault. -/
def append (a b : Draft) : Draft :=
  match a.fault with
  | some _ => a
  | none => ⟨a.bytes ++ b.bytes, b.fault⟩

instance : Append Draft := ⟨append⟩

/-- **Writes a draft to an output.** The output's failure comes before the draft's fault. -/
def writeTo (d : Draft) (o : Output) : Except EncodeError Unit × Output :=
  let (complete, o) := o.write d.bytes
  if !complete then (.error (.device Output.full), o)
  else
    match d.fault with
    | some e => (.error e, o)
    | none => (.ok (), o)

end Draft

namespace Value

/-- The draft of a scalar of a primitive type; `none` if the value is of another kind. -/
def primitiveDraft? : Primitive → Value → Option Draft
  | .null, null => some (.ok [])
  | .boolean, boolean b => some (.ok (Wire.boolean b))
  | .int, int n => some (.ok (Wire.integer n.toInt))
  | .long, long n => some (.ok (Wire.integer n.toInt))
  | .float, float x => some (.ok x.toBytes)
  | .double, double x => some (.ok x.toBytes)
  | .bytes, bytes b => some (.ok (Wire.bytes b))
  | .string, string s => some (.ok (Wire.string s))
  | _, _ => none

/-- The items or entries of a block after their count, with the empty block at the end. -/
def blockDraft (count : Nat) (items : Draft) : Draft :=
  (if count = 0 then .ok [] else .ok (Wire.integer count) ++ items) ++ .ok (Wire.integer 0)

/-- The drafts of the fields of a record, each from the value of its name. -/
def fieldsDraft (r : RecordType) (drafts : List (String × (TypeExpr → Draft))) :
    List Field → Draft
  | [] => .ok []
  | field :: rest =>
    match Entries.find? field.name drafts with
    | none => .fail (.missingField r.name.text field.name)
    | some draft => draft field.type ++ fieldsDraft r drafts rest

/-- The draft of entries of one type. -/
def entriesDraft (type : TypeExpr) : List (String × (TypeExpr → Draft)) → Draft
  | [] => .ok []
  | (key, draft) :: rest => .ok (Wire.string key) ++ draft type ++ entriesDraft type rest

/-- The draft of a value without parts; for the others the fault. -/
def scalarDraft (s : Schema) (v : Value) (t : TypeExpr) : Draft :=
  match s.shape? t, v with
  | none, _ => .fail (.unresolved t.text)
  | some (.primitive p), v =>
    match primitiveDraft? p v with
    | some d => d
    | none => .fail (.mismatch t.text v.kind)
  | some (.enum e), .enum _ symbol =>
    match e.symbolIndex? symbol with
    | some index => .ok (Wire.integer index)
    | none => .fail (.unknownSymbol e.name.text symbol)
  | some (.fixed f), .fixed b =>
    if b.length = f.size then .ok b else .fail (.fixedSize f.name.text f.size b.length)
  | some _, v => .fail (.mismatch t.text v.kind)

mutual

/-- **The draft of a value** as a type. -/
def draft (s : Schema) : Value → TypeExpr → Draft
  | record fields, t =>
    match s.shape? t with
    | some (.record r) => fieldsDraft r (drafts s fields) r.fields
    | _ => scalarDraft s (record fields) t
  | array items, t =>
    match s.shape? t with
    | some (.array type) => blockDraft items.length (itemsDraft s items type)
    | _ => scalarDraft s (array items) t
  | map entries, t =>
    match s.shape? t with
    | some (.map type) => blockDraft entries.length (entriesDraft type (drafts s entries))
    | _ => scalarDraft s (map entries) t
  | union index v, t =>
    match s.shape? t with
    | some (.union branches) =>
      match branches[index]? with
      | some branch => .ok (Wire.integer index) ++ draft s v branch
      | none => .fail (.invalidBranch t.text index)
    | _ => scalarDraft s (union index v) t
  | v, t => scalarDraft s v t

/-- The draft of items of one type. -/
def itemsDraft (s : Schema) : List Value → TypeExpr → Draft
  | [], _ => .ok []
  | item :: rest, t => draft s item t ++ itemsDraft s rest t

/-- The draft of each field or entry, still to be given its type. -/
def drafts (s : Schema) : List (String × Value) → List (String × (TypeExpr → Draft))
  | [] => []
  | (name, v) :: rest => (name, draft s v) :: drafts s rest

end

end Value

/-- **Encodes a value** as the root type of a schema. -/
def Schema.encode (s : Schema) (v : Value) : Draft := v.draft s s.root

end Avro
