import Avro.Sink.Basic

/-!
# Building values

A `Builder` is the sink of a type of a schema. It takes exactly the calls that the type supports and
collects what it is given: a record has a slot per field, an array and a map grow by what is opened,
a union remembers the branch selected last. When everything has been delivered, `Builder.value?`
collapses it into a value.

A part counts as delivered once it has been opened. Two exceptions need no call at all: a field or
branch of type `null`, and what is empty anyway – a selected branch that was never opened is read as
a fresh builder of its type, which is a value if that type is an array, a map, or a record all of
whose fields are null.
-/

namespace Avro

/-- **The sink of a type**, with what it has received. -/
inductive Builder
  /-- A default, complete; it takes no calls. -/
  | filled (value : Value)
  /-- A primitive, enum or fixed type, or a name without definition. -/
  | leaf (shape : Option Shape) (received : Option Value)
  /-- A record with a slot per field. -/
  | record (r : RecordType) (slots : List (Option Builder))
  /-- An array with its items so far, the latest first. -/
  | array (type : TypeExpr) (latest : List Builder)
  /-- A map with the entries opened so far, the latest first. -/
  | map (type : TypeExpr) (latest : List (String × Builder))
  /-- A union with the branch selected last and what that branch has received. -/
  | union (branches : List TypeExpr) (selected : Option (Nat × Option Builder))
  deriving Inhabited

namespace Builder

/-- **The builder of a type** that has received nothing. -/
def fresh (s : Schema) (t : TypeExpr) : Builder :=
  match s.shape? t with
  | some (.primitive .null) => leaf (some (.primitive .null)) (some .null)
  | some (.record r) => record r (r.fields.map fun _ => none)
  | some (.array type) => array type []
  | some (.map type) => map type []
  | some (.union branches) => union branches none
  | other => leaf other none

/-- The word for the kind of type. -/
def kind : Builder → String
  | filled v => v.kind
  | leaf (some shape) _ => shape.kind
  | leaf none _ => "unresolved"
  | record .. => "record"
  | array .. => "array"
  | map .. => "map"
  | union .. => "union"

/-! ## The value received -/

/-- The error of a record field that was neither opened nor given its default. -/
def missingField (r : RecordType) (field : Field) : SinkError :=
  .incomplete s!"field `{field.name}` of `{r.name.text}`"

/-- The values of fields none of which was opened. -/
def untouchedFields (r : RecordType) : List Field → Except SinkError (List (String × Value))
  | [] => .ok []
  | field :: rest =>
    if field.type.isNull then (untouchedFields r rest).map ((field.name, .null) :: ·)
    else .error (missingField r field)

/-- **The value of a type that received nothing.** -/
def untouched (s : Schema) (t : TypeExpr) : Except SinkError Value :=
  match s.shape? t with
  | some (.primitive .null) => .ok .null
  | some (.record r) => (untouchedFields r r.fields).map .record
  | some (.array _) => .ok (.array [])
  | some (.map _) => .ok (.map [])
  | some shape => .error (.incomplete shape.kind)
  | none => .error (.incomplete "unresolved")

mutual

/-- **The value that a builder has received**, or what is missing. -/
def value? (s : Schema) : Builder → Except SinkError Value
  | filled v => .ok v
  | leaf _ (some v) => .ok v
  | leaf shape none => .error (.incomplete (leaf shape none).kind)
  | record r slots => (fieldValues s r r.fields slots).map .record
  | array _ latest => (itemValues s latest).map fun values => .array values.reverse
  | map _ latest => (entryValues s latest).map fun pairs => .map (Entries.ofList pairs.reverse)
  | union _ none => .error (.incomplete "union")
  | union _ (some (index, some part)) => (value? s part).map (.union index)
  | union branches (some (index, none)) =>
    match branches[index]? with
    | some t => (untouched s t).map (.union index)
    | none => .error (.invalidIndex (Int64.ofNat index) "union")

/-- The values of the fields of a record, in order. -/
def fieldValues (s : Schema) (r : RecordType) :
    List Field → List (Option Builder) → Except SinkError (List (String × Value))
  | field :: fields, some part :: slots =>
    match value? s part with
    | .error e => .error e
    | .ok v => (fieldValues s r fields slots).map ((field.name, v) :: ·)
  | field :: fields, none :: slots =>
    if field.type.isNull then (fieldValues s r fields slots).map ((field.name, .null) :: ·)
    else .error (missingField r field)
  | [], _ | _, [] => .ok []

/-- The values of items, both the latest first. What the earliest item lacks is reported. -/
def itemValues (s : Schema) : List Builder → Except SinkError (List Value)
  | [] => .ok []
  | item :: earlier =>
    match itemValues s earlier with
    | .error e => .error e
    | .ok values => (value? s item).map (· :: values)

/-- The values of entries, both the latest first. What the earliest entry lacks is reported. -/
def entryValues (s : Schema) : List (String × Builder) → Except SinkError (List (String × Value))
  | [] => .ok []
  | (key, entry) :: earlier =>
    match entryValues s earlier with
    | .error e => .error e
    | .ok pairs => (value? s entry).map fun v => (key, v) :: pairs

end

/-! ## Calls -/

open Sink (accept refuse)

/-- The natural number of a long, if it is below a bound. -/
def position? (n : Int64) (bound : Nat) : Option Nat :=
  if 0 ≤ n.toInt ∧ n.toInt.toNat < bound then some n.toInt.toNat else none

/-- The value that a leaf takes for a scalar. -/
def leafValue (shape : Option Shape) (x : Scalar) : Except SinkError Value :=
  match shape, x with
  | some (.enum e), .long n =>
    match position? n e.symbols.length with
    | some index => .ok (.enum index (e.symbols.getD index ""))
    | none => .error (.invalidIndex n "enum")
  | some (.fixed f), .bytes b =>
    if b.length = f.size then .ok (.fixed b) else .error (.fixedSize f.size b.length)
  | some (.primitive p), x =>
    if x.primitive = p then .ok x.value else .error (.unsupported x.operation p.name)
  | some shape, x => .error (.unsupported x.operation shape.kind)
  | none, x => .error (.unsupported x.operation "unresolved")

/-- Delivers a scalar. For a union, a long selects a branch and forgets what was received. -/
def set (x : Scalar) (b : Builder) : EStateM.Result SinkError Builder Unit :=
  match b, x with
  | union branches _, .long n =>
    match position? n branches.length with
    | some index => accept () (union branches (some (index, none)))
    | none => refuse (.invalidIndex n "union") b
  | leaf shape _, x =>
    match leafValue shape x with
    | .ok v => accept () (leaf shape (some v))
    | .error e => refuse e b
  | b, x => refuse (.unsupported x.operation b.kind) b

/-- Fills a record field with its declared default. -/
def setDefault (s : Schema) (index : Nat) (b : Builder) : EStateM.Result SinkError Builder Unit :=
  match b with
  | record r slots =>
    match r.fields[index]? with
    | none => refuse (.invalidIndex (Int64.ofNat index) "record") b
    | some field =>
      match field.default with
      | none => refuse (.incomplete s!"default of field `{field.name}`") b
      | some j =>
        match Value.ofDefault s field.type j with
        | .error e => refuse (.default e) b
        | .ok v => accept () (record r (slots.set index (some (filled v))))
  | b => refuse (.unsupported "set_default" b.kind) b

/-- Opens a part. A field or branch that is opened again starts afresh. -/
def enter (s : Schema) (part : Opening) (b : Builder) :
    EStateM.Result SinkError Builder (Builder → Builder) :=
  match b, part with
  | record r slots, .field index =>
    match r.fields[index]? with
    | none => refuse (.invalidIndex (Int64.ofNat index) "record") b
    | some field => accept (fun child => record r (slots.set index (some child))) (fresh s field.type)
  | union branches _, .field index =>
    match branches[index]? with
    | none => refuse (.invalidIndex (Int64.ofNat index) "union") b
    | some t => accept (fun child => union branches (some (index, some child))) (fresh s t)
  | array type latest, .item => accept (fun child => array type (child :: latest)) (fresh s type)
  | map type latest, .entry key =>
    accept (fun child => map type ((key, child) :: latest)) (fresh s type)
  | b, part => refuse (.unsupported part.operation b.kind) b

/-- **The sink that builds values of a schema.** -/
def sink (s : Schema) : Sink Builder where
  typeName := kind
  set := set
  setDefault := setDefault s
  enter := enter s
  finalize := accept ()

end Builder

end Avro
