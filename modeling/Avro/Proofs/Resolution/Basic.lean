import Avro.Proofs.Decoding.Basic
import Avro.Text.Span

/-!
# Resolving values

What a value of a writer's type is as a reader's type, said of the value
itself: no bytes are written or read, and no program runs. `resolve` recurses
on the value.

Primitives are promoted, an enum goes by the name of its symbol, and the parts
of arrays, maps and records are resolved one by one. A record is put together
from the fields that receive something and the defaults of the others. A union
that is written is resolved by its branch; a union that is read wraps what its
branch receives.

The selection of a branch and the assembly of a record do not depend on where
values come from; they are those of decoding (`TypeExpr.select`,
`RecordType.assembled?`).
-/

namespace Avro

/-- **Why a value has no place in a reader's type.** -/
inductive ResolutionError
  /-- The types do not match. No program is compiled for such types. -/
  | mismatch
  /-- Bytes that are read as a text are none. -/
  | notText
  /-- The reader's enum has neither the symbol nor a default. -/
  | undeclaredSymbol (w r : EnumType)
  /-- The written branch of a union cannot be read. -/
  | unreadableBranch (w r : TypeExpr)

/-- The cause with which a program fails. -/
def ResolutionError.cause : ResolutionError → ExecutionCause
  | mismatch => .halt "rejected"
  | notText => .decode .invalidUtf8
  | undeclaredSymbol w r =>
    .halt s!"symbol of `{w.name.text}` is not declared by `{r.name.text}`"
  | unreadableBranch w r =>
    .halt s!"written branch of `{w.text}` cannot be read as `{r.text}`"

/-- What resolving ends with. -/
abbrev Resolved (α : Type) := Except ResolutionError α

/-- **Promotes a value** to a primitive type. -/
def Value.promote : Value → Primitive → Resolved Value
  | .null, .null => .ok .null
  | .boolean b, .boolean => .ok (.boolean b)
  | .int n, .int => .ok (.int n)
  | .int n, .long => .ok (.long (Int64.ofInt n.toInt))
  | .int n, .float => .ok (.float (Binary32.ofInt n.toInt))
  | .int n, .double => .ok (.double (Binary64.ofInt n.toInt))
  | .long n, .long => .ok (.long n)
  | .long n, .float => .ok (.float (Binary32.ofInt n.toInt))
  | .long n, .double => .ok (.double (Binary64.ofInt n.toInt))
  | .float x, .float => .ok (.float x)
  | .float x, .double => .ok (.double x.widen)
  | .double x, .double => .ok (.double x)
  | .bytes b, .bytes => .ok (.bytes b)
  | .bytes b, .string =>
    match Wire.textOfBytes? b with
    | some s => .ok (.string s)
    | none => .error .notText
  | .string s, .string => .ok (.string s)
  | .string s, .bytes => .ok (.bytes (utf8 s))
  | _, _ => .error .mismatch

/-- The reader's symbol for a written one: the one of its name, or else the
default. -/
def EnumType.resolveSymbol (w r : EnumType) (symbol : String) :
    Resolved Value :=
  match (r.symbolIndex? symbol).or (r.default.bind r.symbolIndex?) with
  | some index => .ok (.enum index (r.symbols.getD index ""))
  | none => .error (.undeclaredSymbol w r)

/-- The branch of a reader's union, or the type itself, that receives the
branch of a written union, and how its values are wrapped. -/
def receiver? (writer reader : Schema) (branch : TypeExpr) :
    TypeExpr → Option (TypeExpr × (Value → Value))
  | .union readers => do
    let index ← writer.branchFor? branch reader readers
    let r ← readers[index]?
    return (r, .union index)
  | r => if writer.readable branch reader r then some (r, id) else none

section

variable (writer reader : Schema)

/-- Resolves a value without parts as a type that is no union. -/
def resolveScalar (v : Value) (w r : TypeExpr) : Resolved Value :=
  match w, r with
  | .primitive _, .primitive q => v.promote q
  | _, _ =>
    match writer.shape? w, reader.shape? r, v with
    | some (.enum wd), some (.enum rd), .enum _ symbol =>
      wd.resolveSymbol rd symbol
    | some (.fixed wd), some (.fixed rd), .fixed b =>
      if wd.size = rd.size then .ok (.fixed b) else .error .mismatch
    | _, _, _ => .error .mismatch

/-- Resolves a value as a type, after the branches of the reader's unions are
selected. -/
def selecting (w r : TypeExpr) (leaf : TypeExpr → Resolved Value) :
    Resolved Value :=
  r.select (.error .mismatch) (fun _ v => v) (writer.branchFor? w reader) leaf

mutual

/-- **Resolves a value** of a writer's type as a reader's type. -/
def resolve : Value → (w r : TypeExpr) → Resolved Value
  | .union index v, .union branches, r =>
    match branches[index]? with
    | none => .error .mismatch
    | some branch =>
      match receiver? writer reader branch r with
      | none => .error (.unreadableBranch (.union branches) r)
      | some (r', wrap) => (resolve v branch r').map wrap
  | .array items, .array w, r =>
    selecting writer reader (.array w) r fun
      | .array r => (resolveItems items w r).map .array
      | _ => .error .mismatch
  | .map entries, .map w, r =>
    selecting writer reader (.map w) r fun
      | .map r => (resolveEntries entries w r).map .map
      | _ => .error .mismatch
  | .record fields, .named name, r =>
    selecting writer reader (.named name) r fun r =>
      match writer.shape? (.named name), reader.shape? r with
      | some (.record wd), some (.record rd) => do
        let received ← resolveFields fields wd.fields rd
        match rd.assembled? reader received with
        | some values => .ok (.record values)
        | none => .error .mismatch
      | _, _ => .error .mismatch
  | v, w, r => selecting writer reader w r (resolveScalar writer reader v w)

/-- Resolves items one by one. -/
def resolveItems : List Value → (w r : TypeExpr) → Resolved (List Value)
  | [], _, _ => .ok []
  | item :: rest, w, r => do
    let v ← resolve item w r
    let others ← resolveItems rest w r
    return v :: others

/-- Resolves entries one by one, under their keys. -/
def resolveEntries : List (String × Value) → (w r : TypeExpr) →
    Resolved (List (String × Value))
  | [], _, _ => .ok []
  | (key, item) :: rest, w, r => do
    let v ← resolve item w r
    let others ← resolveEntries rest w r
    return (key, v) :: others

/-- Resolves the fields of a writer's record that the reader's record
receives, each with the position that receives it. -/
def resolveFields : List (String × Value) → List Field → RecordType →
    Resolved (List (Nat × Value))
  | (_, item) :: rest, wf :: fields, rd =>
    match rd.receivingIndex? wf.name with
    | none => resolveFields rest fields rd
    | some index =>
      match rd.fields[index]? with
      | none => resolveFields rest fields rd
      | some rf => do
        let v ← resolve item wf.type rf.type
        let others ← resolveFields rest fields rd
        return (index, v) :: others
  | _, _, _ => .ok []

end

/-! ### Kinds of values -/

variable {writer reader}

theorem resolve_array (items : List Value) (w r : TypeExpr) :
    resolve writer reader (.array items) (.array w) r
      = selecting writer reader (.array w) r fun
        | .array r => (resolveItems writer reader items w r).map .array
        | _ => .error .mismatch :=
  rfl

theorem resolve_map (entries : List (String × Value)) (w r : TypeExpr) :
    resolve writer reader (.map entries) (.map w) r
      = selecting writer reader (.map w) r fun
        | .map r => (resolveEntries writer reader entries w r).map .map
        | _ => .error .mismatch :=
  rfl

theorem resolve_record (fields : List (String × Value)) (name : FullName)
    (r : TypeExpr) :
    resolve writer reader (.record fields) (.named name) r
      = selecting writer reader (.named name) r fun r =>
        match writer.shape? (.named name), reader.shape? r with
        | some (.record wd), some (.record rd) => do
          let received ← resolveFields writer reader fields wd.fields rd
          match rd.assembled? reader received with
          | some values => .ok (.record values)
          | none => .error .mismatch
        | _, _ => .error .mismatch :=
  rfl

theorem resolve_enum (index : Nat) (symbol : String) (name : FullName)
    (r : TypeExpr) :
    resolve writer reader (.enum index symbol) (.named name) r
      = selecting writer reader (.named name) r
        (resolveScalar writer reader (.enum index symbol) (.named name)) :=
  rfl

theorem resolve_fixed (b : List UInt8) (name : FullName) (r : TypeExpr) :
    resolve writer reader (.fixed b) (.named name) r
      = selecting writer reader (.named name) r
        (resolveScalar writer reader (.fixed b) (.named name)) :=
  rfl

/-- A value of a branch that there is. -/
theorem resolve_union {branches : List TypeExpr} {branch : TypeExpr}
    {index : Nat} (hbranch : branches[index]? = some branch) (v : Value)
    (r : TypeExpr) :
    resolve writer reader (.union index v) (.union branches) r
      = match receiver? writer reader branch r with
        | none => .error (.unreadableBranch (.union branches) r)
        | some (r', wrap) => (resolve writer reader v branch r').map wrap := by
  rw [resolve]
  simp only [hbranch]

end

end Avro
