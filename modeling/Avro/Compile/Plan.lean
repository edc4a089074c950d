import Avro.Compile.Code
import Avro.Compile.Error
import Avro.Schema.Compatibility

/-!
# Plans

A plan is the code that reads data of a writer's type into a sink of a reader's type, before methods
and messages are collected. It depends on the two types alone: a record is not expanded but called,
by a `Demand` that names the pair of records, and a place where the types do not match holds the
reason.

`Plan.deliver` reads and delivers, `Plan.discard` reads and delivers nothing. Both recurse on the
writer's type; a union of the reader is decided first, by `Plan.choosing`, since its branch is known
before anything is read. `Demand.body` is the plan of a method.
-/

namespace Avro

/-- **What a method is needed for.** -/
inductive Demand
  /-- Reading a writer's record into a reader's record. -/
  | deliver (writer reader : FullName)
  /-- Reading a writer's record and delivering nothing. -/
  | discard (writer : FullName)
  deriving DecidableEq, Repr, Inhabited

/-- The name of the method. -/
def Demand.methodName : Demand → String
  | deliver writer reader => s!"record:{writer.text}->{reader.text}"
  | discard writer => s!"record:{writer.text}->_"

/-- **A plan.** -/
abbrev Plan := Code Demand String CompileError

/-- The cases of a plan. -/
abbrev PlanCases := Cases Demand String CompileError

namespace Plan

open Code (sequence)

/-- Reads a kind. -/
def read (k : Kind) (label : String) : Plan := .op (.read k label)

/-- Delivers a kind. -/
def set (k : Kind) (label : String) : Plan := .op (.set k label)

/-- The label of the parts of an array or map. -/
def partLabel (label : String) : String := label ++ "[]"

/-- The label of the keys of a map. -/
def keyLabel (label : String) : String := label ++ " key"

/-- The label of a field of a record. -/
def fieldLabel (record : FullName) (field : String) : String := record.name ++ "." ++ field

/-- The rejection of a pair of types. -/
def incompatible (w r : TypeExpr) (label : String) : Plan :=
  .reject (.incompatible w.text r.text label)

/-- The rejection of a type without definition. -/
def unresolved (t : TypeExpr) : Plan := .reject (.unresolvedReference t.text)

/-! ## Discarding -/

mutual

/-- **Reads data of a type and delivers nothing.** Texts are not checked, and enums are read as bare
integers. -/
def discard (writer : Schema) : TypeExpr → (label : String) → Plan
  | .primitive .null, _ => .nothing
  | .primitive .long, label => read .unusedLong label
  | .primitive .string, label => read .bytes label
  | .primitive p, label => read (.ofPrimitive p) label
  | .array items, label => .blocks label (discard writer items (partLabel label))
  | .map values, label =>
    .blocks label (.seq (read .bytes (keyLabel label)) (discard writer values (partLabel label)))
  | .union branches, label =>
    .seq (read .long label)
      (.switch label s!"union tag out of range for `{(TypeExpr.union branches).text}`"
        (discardCases writer label 0 branches))
  | .named name, label =>
    match writer.shape? (.named name) with
    | some (.record r) => .call (.discard r.name)
    | some (.enum _) => read .int label
    | some (.fixed f) => read (.fixed f.size) label
    | _ => unresolved (.named name)

/-- A case for every branch, numbered from a tag on. -/
def discardCases (writer : Schema) (label : String) : (tag : Nat) → List TypeExpr → PlanCases
  | _, [] => .none
  | tag, branch :: rest =>
    .case tag none (discard writer branch label) (discardCases writer label (tag + 1) rest)

end

/-! ## Delivering -/

/-- The kind that reads data of one primitive into the register of another. -/
def promotion? : Primitive → Primitive → Option Kind
  | .int, .long => some .intAsLong
  | .int, .float => some .intAsFloat
  | .int, .double => some .intAsDouble
  | .long, .float => some .longAsFloat
  | .long, .double => some .longAsDouble
  | .float, .double => some .floatAsDouble
  | .string, .bytes => some .stringAsBytes
  | .bytes, .string => some .bytesAsString
  | w, r => if w = r then some (.ofPrimitive w) else none

/-- Reads a primitive and delivers it as another. Nulls need neither. -/
def deliverPrimitive (w r : Primitive) (label : String) : Plan :=
  if w = .null ∧ r = .null then .nothing
  else
    match promotion? w r with
    | some kind => .seq (read kind label) (set (.ofPrimitive r) label)
    | none => incompatible (.primitive w) (.primitive r) label

/-- The cases that renumber the symbols of a writer's enum, numbered from a tag on. Symbols that the
reader does not declare become its default symbol, if it has one. -/
def symbolCases (reader : EnumType) (fallback : Option Nat) : (tag : Nat) → List String → PlanCases
  | _, [] => .none
  | tag, symbol :: rest =>
    let others := symbolCases reader fallback (tag + 1) rest
    match (reader.symbolIndex? symbol).or fallback with
    | some index => .case tag (some index) .nothing others
    | none => others

/-- Reads an enum and delivers the position of the reader's symbol. -/
def deliverEnum (w r : EnumType) (label : String) : Plan :=
  let fallback := r.default.bind r.symbolIndex?
  .seq (read .intAsLong label)
    (.switch label s!"symbol of `{w.name.text}` is not declared by `{r.name.text}`"
      (symbolCases r fallback 0 w.symbols))

/-- Reads and delivers a fixed. -/
def deliverFixed (w r : FixedType) (label : String) : Plan :=
  if w.size = r.size then .seq (read (.fixed w.size) label) (set .bytes label)
  else .reject (.fixedSizeMismatch r.name.text w.size r.size)

/-- Reads and delivers a named type as a type that is no union. -/
def deliverNamed (writer : Schema) (w : FullName) (reader : Schema) (r : TypeExpr)
    (label : String) : Plan :=
  match writer.shape? (.named w), reader.shape? r with
  | none, _ => unresolved (.named w)
  | _, none => unresolved r
  | some (.record wd), some (.record rd) =>
    if rd.name.standsFor rd.aliases wd.name then .call (.deliver wd.name rd.name)
    else incompatible (.named w) r label
  | some (.enum wd), some (.enum rd) =>
    if rd.name.standsFor rd.aliases wd.name then deliverEnum wd rd label
    else incompatible (.named w) r label
  | some (.fixed wd), some (.fixed rd) =>
    if rd.name.standsFor rd.aliases wd.name then deliverFixed wd rd label
    else incompatible (.named w) r label
  | _, _ => incompatible (.named w) r label

/-- The plan of a type that does not match, or has no definition. -/
def mismatched (w : TypeExpr) (reader : Schema) (r : TypeExpr) (label : String) : Plan :=
  match reader.shape? r with
  | none => unresolved r
  | some _ => incompatible w r label

/-- Runs a plan on a field or branch of the sink. What is null receives nothing and is not
opened. -/
def entering (r : TypeExpr) (index : Nat) (label : String) (plan : Plan) : Plan :=
  if r.isNull then plan else .within ⟨.enter, Int64.ofNat index, label⟩ label plan

mutual

/-- **Decides a reader's union**: selects the branch that `pick` gives and goes on with it; a type
that is no union is left to `leaf`. -/
def choosing (w : TypeExpr) (label : String) (pick : List TypeExpr → Option Nat)
    (leaf : TypeExpr → Plan) : TypeExpr → Plan
  | .union branches =>
    match pick branches with
    | none => incompatible w (.union branches) label
    | some index =>
      sequence
        [.op ⟨.multLong, 0, label⟩, .op ⟨.addLong, Int64.ofNat index, label⟩, set .long label,
         choosingBranch w label pick leaf index index branches]
  | r => leaf r

/-- Goes on with the branch at a position, which is branch `index` of the union. -/
def choosingBranch (w : TypeExpr) (label : String) (pick : List TypeExpr → Option Nat)
    (leaf : TypeExpr → Plan) (index : Nat) : (position : Nat) → List TypeExpr → Plan
  | _, [] => .nothing
  | 0, branch :: _ => entering branch index label (choosing w label pick leaf branch)
  | position + 1, _ :: rest => choosingBranch w label pick leaf index position rest

end

/-- Whether there is no case. -/
def noCases : PlanCases → Bool
  | .none => true
  | .case .. => false

mutual

/-- **Reads data of a writer's type into a sink of a reader's type.** -/
def deliver (writer : Schema) : TypeExpr → (reader : Schema) → TypeExpr → (label : String) → Plan
  | .union branches, reader, r, label =>
    match reader.shape? r with
    | none => unresolved r
    | some _ =>
      let cases := branchCases writer label 0 branches reader r
      if noCases cases then
        .reject (.noReadableBranch (TypeExpr.union branches).text r.text)
      else
        .seq (read .long label)
          (.switch label
            s!"written branch of `{(TypeExpr.union branches).text}` cannot be read as `{r.text}`"
            cases)
  | .primitive p, reader, r, label =>
    choosing (.primitive p) label (writer.branchFor? (.primitive p) reader)
      (fun
        | .primitive q => deliverPrimitive p q label
        | r => mismatched (.primitive p) reader r label) r
  | .array items, reader, r, label =>
    choosing (.array items) label (writer.branchFor? (.array items) reader)
      (fun
        | .array items' =>
          .blocks label
            (.within ⟨.appendArray, 0, label⟩ label
              (deliver writer items reader items' (partLabel label)))
        | r => mismatched (.array items) reader r label) r
  | .map values, reader, r, label =>
    choosing (.map values) label (writer.branchFor? (.map values) reader)
      (fun
        | .map values' =>
          .blocks label
            (.seq (read .string (keyLabel label))
              (.within ⟨.appendMap, 0, label⟩ label
                (deliver writer values reader values' (partLabel label))))
        | r => mismatched (.map values) reader r label) r
  | .named name, reader, r, label =>
    match writer.shape? (.named name) with
    | none => unresolved (.named name)
    | some _ =>
      choosing (.named name) label (writer.branchFor? (.named name) reader)
        (fun r => deliverNamed writer name reader r label) r

/-- The cases of the branches that can be read, numbered from a tag on. Read as a union, a tag is
rewritten to the reader's branch, which is opened; read as any other type, it is dropped. -/
def branchCases (writer : Schema) (label : String) :
    (tag : Nat) → List TypeExpr → (reader : Schema) → TypeExpr → PlanCases
  | _, [], _, _ => .none
  | tag, branch :: rest, reader, r =>
    let others := branchCases writer label (tag + 1) rest reader r
    match r with
    | .union readers =>
      match writer.branchFor? branch reader readers with
      | none => others
      | some index =>
        match readers[index]? with
        | none => others
        | some r' =>
          .case tag (some index) (entering r' index label (deliver writer branch reader r' label))
            others
    | r =>
      if writer.readable branch reader r then
        .case tag none (deliver writer branch reader r label) others
      else others

end

/-! ## Methods -/

/-- The plans of the fields of a writer's record. -/
def writtenFields (writer : Schema) (wd : RecordType) (reader : Schema) (rd : RecordType) :
    List Field → List Plan
  | [] => []
  | wf :: rest =>
    let plan : Plan :=
      match rd.receivingIndex? wf.name with
      | none => discard writer wf.type (fieldLabel wd.name wf.name)
      | some index =>
        match rd.fields[index]? with
        | none => .nothing
        | some rf =>
          let label := fieldLabel rd.name rf.name
          entering rf.type index label (deliver writer wf.type reader rf.type label)
    plan :: writtenFields writer wd reader rd rest

/-- The plan of a reader's field that is not written: its default, which must be a value of its
type. -/
def defaulted (reader : Schema) (rd : RecordType) (index : Nat) (rf : Field) : Plan :=
  match rf.default with
  | none => .reject (.missingDefault rd.name.text rf.name)
  | some j =>
    match Value.ofDefault reader rf.type j with
    | .error e => .reject (.invalidDefault rd.name.text rf.name e)
    | .ok _ => .op ⟨.setDefault, Int64.ofNat index, fieldLabel rd.name rf.name⟩

/-- The plans of the reader's fields from a position on that are not among the written ones. -/
def defaultedFields (reader : Schema) (rd : RecordType) (written : List Nat) :
    (index : Nat) → List Field → List Plan
  | _, [] => []
  | index, rf :: rest =>
    let others := defaultedFields reader rd written (index + 1) rest
    if written.contains index then others else defaulted reader rd index rf :: others

/-- **Reads a writer's record into a reader's record**: the written fields in their order, then the
defaults of the others. -/
def recordBody (writer : Schema) (wd : RecordType) (reader : Schema) (rd : RecordType) : Plan :=
  let written := wd.fields.filterMap fun wf => rd.receivingIndex? wf.name
  sequence (writtenFields writer wd reader rd wd.fields ++
    defaultedFields reader rd written 0 rd.fields)

/-- Reads a writer's record and delivers nothing. -/
def discardBody (writer : Schema) (wd : RecordType) : Plan :=
  sequence (wd.fields.map fun wf => discard writer wf.type (fieldLabel wd.name wf.name))

end Plan

/-- **The plan of a method.** -/
def Demand.body (writer reader : Schema) : Demand → Plan
  | deliver w r =>
    match writer.definition? w, reader.definition? r with
    | some (.record wd), some (.record rd) => Plan.recordBody writer wd reader rd
    | some (.record _), _ => Plan.unresolved (.named r)
    | _, _ => Plan.unresolved (.named w)
  | discard w =>
    match writer.definition? w with
    | some (.record wd) => Plan.discardBody writer wd
    | _ => Plan.unresolved (.named w)

end Avro
