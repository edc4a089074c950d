import Avro.Proofs.Plan.Evaluation

/-!
# Decoding by types

What a program reads can be said without programs: data of a writer's type
read as a reader's type gives a value of the reader's type and leaves the rest
of the input. `decode` says it by recursion on the writer's type. It
builds values where a plan drives a sink, and it follows the types where a
plan follows its own tree; that a plan delivers just these values is the
subject of `Avro.Proofs.Decoding.Plans`.

Records are called, so they are the one place where the recursion does not
follow a type. Every call takes one of the levels that the limit allows, and
`Decoding` is a computation that is told how many are left; a depth of
recursion that is as great as this number is never used up.

## What is chosen and what is put together

Two steps do not read, and are shared with the resolution of values that are
there already (`Avro.Proofs.Resolution.Basic`): the branch of a reader's
union is selected by the types alone (`TypeExpr.select`), and the fields of a
reader's record are taken from what was received for them, or from their
defaults (`RecordType.assembled?`).
-/

namespace Avro

/-! ## Selecting and assembling -/

namespace TypeExpr

section

variable {m : Type → Type} [Monad m] (nothing : m Value)
  (enter : TypeExpr → m Value → m Value) (pick : List TypeExpr → Option Nat)
  (leaf : TypeExpr → m Value)

mutual

/-- **Selects the branch of a reader's union** that a choice gives, and of
that branch if it is a union itself. A type that is no union is left to
`leaf`; where there is no branch, there is `nothing`. -/
def select : TypeExpr → m Value
  | .union branches =>
    match pick branches with
    | none => nothing
    | some index => selectFrom index index branches
  | r => leaf r

/-- Goes on with the branch at a position, which is branch `index`. -/
def selectFrom (index : Nat) : (position : Nat) → List TypeExpr → m Value
  | _, [] => nothing
  | 0, branch :: _ => do
    let v ← enter branch (select branch)
    return .union index v
  | position + 1, _ :: rest => selectFrom index position rest

end

/-- A type that is no union is left to `leaf`. -/
theorem select_leaf {r : TypeExpr} (h : r.isUnion = false) :
    r.select nothing enter pick leaf = leaf r := by
  cases r with
  | union branches => exact absurd h (by simp [isUnion])
  | primitive p => rw [select]; simp
  | array items => rw [select]; simp
  | map values => rw [select]; simp
  | named name => rw [select]; simp

end

end TypeExpr

/-- The value that a field takes when it is not written: its default, if it
has one and it is a value of the field's type. -/
def Field.defaultValue? (reader : Schema) (field : Field) : Option Value :=
  field.default.bind fun j => (Value.ofDefault reader field.type j).toOption

/-- The value received last for a position. -/
def lastReceived (index : Nat) : List (Nat × Value) → Option Value
  | [] => none
  | (i, v) :: rest =>
    (lastReceived index rest).or (if i = index then some v else none)

namespace RecordType

/-- The fields from a position on, each with the value received last for it
or its default. -/
def assembledFrom? (reader : Schema) (received : List (Nat × Value)) :
    (index : Nat) → List Field → Option (List (String × Value))
  | _, [] => some []
  | index, field :: rest => do
    let v ← (lastReceived index received).or (field.defaultValue? reader)
    let others ← assembledFrom? reader received (index + 1) rest
    return (field.name, v) :: others

/-- **The fields of a record** put together from values received by position;
`none` if a value is missing. -/
def assembled? (reader : Schema) (r : RecordType)
    (received : List (Nat × Value)) : Option (List (String × Value)) :=
  assembledFrom? reader received 0 r.fields

/-- A field that receives what is written is one of the record. -/
theorem receivingIndex?_lt {rd : RecordType} {name : String}
    {index : Nat} (h : rd.receivingIndex? name = some index) : index < rd.fields.length := by
  have hlt : ∀ {p : Field → Bool}, rd.fields.findIdx? p = some index →
      index < rd.fields.length := by
    intro p hp
    obtain ⟨hlt, _⟩ := List.findIdx?_eq_some_iff_getElem.mp hp
    exact hlt
  rcases Option.or_eq_some_iff.mp h with h | ⟨-, h⟩
  · exact hlt h
  · exact hlt h

end RecordType

/-! ## Computations that decode -/

/-- **A computation that decodes**, told how many levels the limit still
allows below. -/
abbrev Decoding (α : Type) := ReaderT Nat (EStateM ExecutionCause Input) α

namespace Decoding

variable {α β : Type} (limit : Nat)

/-- A read. -/
def reading (m : Read α) : Decoding α := fun _ input =>
  match m input with
  | .ok a left => .ok a left
  | .error e left => .error (.decode e) left

/-- A stop with a message. -/
def stop (message : String) : Decoding α := throw (.halt message)

/-- A place for which there is no code. No accepted plan has such a place. -/
def rejected : Decoding α := stop "rejected"

/-- A computation on a level below. -/
def deeper (m : Decoding α) : Decoding α := fun levels input =>
  match levels with
  | 0 => .error (.tooDeep (limit + 1) limit) input
  | levels + 1 => m levels input

/-- A computation for a part of the sink: what is null is not opened. -/
def entered (r : TypeExpr) (m : Decoding α) : Decoding α :=
  if r.isNull then m else deeper limit m

/-- A round of a loop that keeps what it has read, the latest first. -/
def collecting (m : EStateM ExecutionCause Input α) :
    Running (List α) Unit := fun s =>
  match m s.1 with
  | .ok a left => .ok () (left, a :: s.2)
  | .error cause left => .error cause (left, s.2)

/-- **The items of a sequence of blocks**, each on a level below. -/
def blocks (item : Decoding α) : Decoding (List α) := fun levels input =>
  match Running.blocks (collecting (deeper limit item levels)) (input, []) with
  | .ok () s => .ok s.2.reverse s.1
  | .error cause s => .error cause s.1

/-- What a result is said to be: one thing if there is a value, another if
there is none. -/
def Gives (r : EStateM.Result ExecutionCause Input α)
    (value : α → Input → Prop) (failure : ExecutionCause → Input → Prop) :
    Prop :=
  match r with
  | .ok a left => value a left
  | .error cause left => failure cause left

/-- A computation that succeeds goes on with what follows it. -/
theorem bind_ok {m : Decoding α} {f : α → Decoding β} {levels : Nat}
    {input left : Input} {a : α} (h : m levels input = .ok a left) :
    (m >>= f) levels input = f a levels left := by
  simp only [bind, ReaderT.bind, EStateM.bind, h]

/-- Nothing follows a computation that fails. -/
theorem bind_error {m : Decoding α} {f : α → Decoding β} {levels : Nat}
    {input left : Input} {cause : ExecutionCause}
    (h : m levels input = .error cause left) :
    (m >>= f) levels input = .error cause left := by
  simp only [bind, ReaderT.bind, EStateM.bind, h]

/-- One computation after another that succeeds. -/
theorem bind_eq_ok {m : Decoding α} {f : α → Decoding β} {levels : Nat}
    {input left : Input} {b : β} (h : (m >>= f) levels input = .ok b left) :
    ∃ a between, m levels input = .ok a between
      ∧ f a levels between = .ok b left := by
  cases hr : m levels input with
  | ok a between =>
    rw [bind_ok hr] at h
    exact ⟨a, between, rfl, h⟩
  | error cause between =>
    rw [bind_error hr] at h
    exact nomatch h

section

variable {r : EStateM.Result ExecutionCause Input α} {value : α → Input → Prop}
  {failure failure' : ExecutionCause → Input → Prop}

/-- What is said of a result may be weakened. -/
theorem Gives.imp {value' : α → Input → Prop} (h : Gives r value failure)
    (hvalue : ∀ a left, value a left → value' a left)
    (hfailure : ∀ cause left, failure cause left → failure' cause left) :
    Gives r value' failure' := by
  cases r with
  | ok a left => exact hvalue a left h
  | error cause left => exact hfailure cause left h

/-- What is said of a value may be said together with what it comes from. -/
theorem Gives.self (h : Gives r value failure) :
    Gives r (fun a left => r = .ok a left ∧ value a left) failure := by
  cases r with
  | ok a left => exact ⟨rfl, h⟩
  | error cause left => exact h

/-- **What a computation gives goes on** with what follows it, unless the
computation fails. -/
theorem Gives.bind {m : Decoding α} {f : α → Decoding β} {levels : Nat}
    {input : Input} {value' : β → Input → Prop}
    (h : Gives (m levels input) value failure)
    (hvalue : ∀ a left, value a left →
      Gives (f a levels left) value' failure')
    (hfailure : ∀ cause left, failure cause left → failure' cause left) :
    Gives ((m >>= f) levels input) value' failure' := by
  cases hr : m levels input with
  | ok a left =>
    rw [hr] at h
    rw [bind_ok hr]
    exact hvalue a left h
  | error cause left =>
    rw [hr] at h
    rw [bind_error hr]
    exact hfailure cause left h

end

/-- A read that succeeds. -/
theorem reading_ok {m : Read α} {input left : Input} {a : α}
    (h : m input = .ok a left) (levels : Nat) :
    reading m levels input = .ok a left := by
  simp only [reading, h]

/-- A read that fails. -/
theorem reading_error {m : Read α} {input left : Input} {e : DecodeError}
    (h : m input = .error e left) (levels : Nat) :
    reading m levels input = .error (.decode e) left := by
  simp only [reading, h]

end Decoding

/-! ## Primitive types -/

/-- Reads the value of a kind. -/
def Kind.readValue : Kind → Read Value
  | .null => return .null
  | .boolean => do return .boolean (← Wire.readBoolean)
  | .int => do return .int (← Wire.readInt)
  | .long | .unusedLong => do return .long (← Wire.readLong)
  | .float => do return .float (← Wire.readFloat)
  | .double => do return .double (← Wire.readDouble)
  | .bytes | .stringAsBytes => do return .bytes (← Wire.readBytes)
  | .string | .bytesAsString => do return .string (← Wire.readString)
  | .intAsLong => do return .long (Int64.ofInt (← Wire.readInt).toInt)
  | .intAsFloat => do return .float (Binary32.ofInt (← Wire.readInt).toInt)
  | .intAsDouble => do return .double (Binary64.ofInt (← Wire.readInt).toInt)
  | .longAsFloat => do return .float (Binary32.ofInt (← Wire.readLong).toInt)
  | .longAsDouble => do
    return .double (Binary64.ofInt (← Wire.readLong).toInt)
  | .floatAsDouble => do return .double (← Wire.readFloat).widen
  | .fixed size => do return .fixed (← Wire.take size)

/-- Reads a primitive as another. -/
def Primitive.decode (w r : Primitive) : Decoding Value :=
  if w = .null ∧ r = .null then return .null
  else
    match Plan.promotion? w r with
    | some kind => Decoding.reading kind.readValue
    | none => .rejected

/-- The kind as which a primitive is read when it is dropped: texts are not
checked. -/
def Primitive.dropped : Primitive → Kind
  | .long => .unusedLong
  | .string => .bytes
  | p => .ofPrimitive p

/-- Reads a kind and drops it. -/
def Kind.skip (kind : Kind) : Decoding Unit := do
  let _ ← Decoding.reading kind.readValue

/-- Reads a primitive and drops it. -/
def Primitive.skip (p : Primitive) : Decoding Unit :=
  if p = .null then return () else p.dropped.skip

/-! ## Enums -/

/-- Goes by the symbols of a writer's enum, numbered from a tag on, to the
one of a number: the reader's symbol of the name, or else its default
symbol. -/
def EnumType.decodeSymbol (r : EnumType) (message : String) (n : Int64) :
    (tag : Nat) → List String → Decoding Value
  | _, [] => .stop message
  | tag, symbol :: rest =>
    match (r.symbolIndex? symbol).or (r.default.bind r.symbolIndex?) with
    | some index =>
      if n = Int64.ofNat tag then
        return .enum index (r.symbols.getD index "")
      else decodeSymbol r message n (tag + 1) rest
    | none => decodeSymbol r message n (tag + 1) rest

/-- A symbol of another number is passed over. -/
theorem EnumType.decodeSymbol_of_ne {r : EnumType} {message : String}
    {n : Int64} {tag : Nat} (hn : n ≠ Int64.ofNat tag) (symbol : String)
    (rest : List String) :
    r.decodeSymbol message n tag (symbol :: rest)
      = r.decodeSymbol message n (tag + 1) rest := by
  rw [decodeSymbol]
  split
  · exact if_neg hn
  · rfl

/-- Reads an enum. -/
def EnumType.decode (w r : EnumType) : Decoding Value := do
  let n ← Decoding.reading Wire.readInt
  r.decodeSymbol
    s!"symbol of `{w.name.text}` is not declared by `{r.name.text}`"
    (Int64.ofInt n.toInt) 0 w.symbols

/-- Reads a fixed. -/
def FixedType.decode (w r : FixedType) : Decoding Value :=
  if w.size = r.size then Decoding.reading (Kind.fixed w.size).readValue
  else .rejected

/-! ## Types -/

section

variable (limit : Nat) (writer reader : Schema)

open Decoding (reading stop rejected deeper entered blocks)

mutual

/-- Reads data of a type and drops it, `record` doing so for records. -/
def skipWith (record : RecordType → Decoding Unit) :
    TypeExpr → Decoding Unit
  | .primitive p => p.skip
  | .array items => do let _ ← blocks limit (skipWith record items)
  | .map values => do
    let _ ← blocks limit (do
      Kind.bytes.skip
      skipWith record values)
  | .union branches => do
    let n ← reading Wire.readLong
    skipBranch record
      s!"union tag out of range for `{(TypeExpr.union branches).text}`" n 0
      branches
  | .named name =>
    match writer.shape? (.named name) with
    | some (.record r) => deeper limit (record r)
    | some (.enum _) => Kind.int.skip
    | some (.fixed f) => (Kind.fixed f.size).skip
    | _ => rejected

/-- Reads data of the branch of a number, branches being numbered from a tag
on, and drops it. -/
def skipBranch (record : RecordType → Decoding Unit) (message : String)
    (n : Int64) : (tag : Nat) → List TypeExpr → Decoding Unit
  | _, [] => stop message
  | tag, branch :: rest =>
    if n = Int64.ofNat tag then skipWith record branch
    else skipBranch record message n (tag + 1) rest

end

/-- Reads fields and drops them. -/
def skipFields (skip : TypeExpr → Decoding Unit) : List Field → Decoding Unit
  | [] => return ()
  | field :: rest => do
    skip field.type
    skipFields skip rest

/-- **Reads data of a type and drops it**, with a depth of records. -/
def skip : (depth : Nat) → TypeExpr → Decoding Unit
  | 0 => skipWith limit writer fun _ => rejected
  | depth + 1 => skipWith limit writer fun r => skipFields (skip depth) r.fields

/-- Reads a named type as a type that is no union. -/
def decodeNamed (record : RecordType → RecordType → Decoding Value)
    (name : FullName) (r : TypeExpr) : Decoding Value :=
  match writer.shape? (.named name), reader.shape? r with
  | some (.record wd), some (.record rd) => deeper limit (record wd rd)
  | some (.enum wd), some (.enum rd) => wd.decode rd
  | some (.fixed wd), some (.fixed rd) => wd.decode rd
  | _, _ => rejected

mutual

/-- Reads data of a writer's type as a reader's type, `record` doing so for
records. -/
def decodeWith (record : RecordType → RecordType → Decoding Value) :
    TypeExpr → TypeExpr → Decoding Value
  | .union branches, r => do
    let n ← reading Wire.readLong
    decodeBranch record
      s!"written branch of `{(TypeExpr.union branches).text}` cannot be read as `{r.text}`"
      n 0 branches r
  | .primitive p, r =>
    r.select rejected (entered limit)
      (writer.branchFor? (.primitive p) reader) fun
      | .primitive q => p.decode q
      | _ => rejected
  | .array items, r =>
    r.select rejected (entered limit) (writer.branchFor? (.array items) reader)
      fun
      | .array items' => do
        let values ← blocks limit (deeper limit
          (decodeWith record items items'))
        return .array values
      | _ => rejected
  | .map values, r =>
    r.select rejected (entered limit) (writer.branchFor? (.map values) reader)
      fun
      | .map values' => do
        let pairs ← blocks limit (do
          let key ← reading Wire.readString
          let v ← deeper limit (decodeWith record values values')
          return (key, v))
        return .map (Entries.ofList pairs)
      | _ => rejected
  | .named name, r =>
    r.select rejected (entered limit) (writer.branchFor? (.named name) reader)
      (decodeNamed limit writer reader record name)

/-- Reads data of the branch of a number as a reader's type, branches being
numbered from a tag on. -/
def decodeBranch (record : RecordType → RecordType → Decoding Value)
    (message : String) (n : Int64) :
    (tag : Nat) → List TypeExpr → TypeExpr → Decoding Value
  | _, [], _ => stop message
  | tag, branch :: rest, .union readers =>
    match writer.branchFor? branch reader readers with
    | none => decodeBranch record message n (tag + 1) rest (.union readers)
    | some index =>
      match readers[index]? with
      | none => decodeBranch record message n (tag + 1) rest (.union readers)
      | some r =>
        if n = Int64.ofNat tag then do
          let v ← entered limit r (decodeWith record branch r)
          return .union index v
        else decodeBranch record message n (tag + 1) rest (.union readers)
  | tag, branch :: rest, r =>
    if writer.readable branch reader r then
      if n = Int64.ofNat tag then decodeWith record branch r
      else decodeBranch record message n (tag + 1) rest r
    else decodeBranch record message n (tag + 1) rest r

end

/-- Decoding a branch as a type that is no union. -/
theorem decodeBranch_cons {limit : Nat} {writer reader : Schema}
    {record : RecordType → RecordType → Decoding Value} {r : TypeExpr}
    (hr : r.isUnion = false)
    (message : String) (n : Int64) (tag : Nat) (branch : TypeExpr)
    (rest : List TypeExpr) :
    decodeBranch limit writer reader record message n tag (branch :: rest) r
      = if writer.readable branch reader r then
          if n = Int64.ofNat tag then
            decodeWith limit writer reader record branch r
          else decodeBranch limit writer reader record message n (tag + 1) rest r
        else
          decodeBranch limit writer reader record message n (tag + 1) rest r := by
  cases r with
  | union readers => exact absurd hr (by simp [TypeExpr.isUnion])
  | primitive p => rw [decodeBranch]; simp
  | array items => rw [decodeBranch]; simp
  | map values => rw [decodeBranch]; simp
  | named name => rw [decodeBranch]; simp

/-- A branch of another number is passed over. -/
theorem decodeBranch_of_ne {limit : Nat} {writer reader : Schema}
    {record : RecordType → RecordType → Decoding Value} {message : String}
    {n : Int64} {tag : Nat} (hn : n ≠ Int64.ofNat tag) (branch : TypeExpr)
    (rest : List TypeExpr) (r : TypeExpr) :
    decodeBranch limit writer reader record message n tag (branch :: rest) r
      = decodeBranch limit writer reader record message n (tag + 1) rest r := by
  cases r with
  | union readers =>
    rw [decodeBranch]
    split
    · rfl
    · split
      · rfl
      · exact if_neg hn
  | _ =>
    rw [decodeBranch_cons rfl, if_neg hn]
    exact ite_self _

/-- Reads the fields of a writer's record: what is received, in the writer's
order, by the reader's positions. -/
def decodeFields (decode : TypeExpr → TypeExpr → Decoding Value)
    (skip : TypeExpr → Decoding Unit) (rd : RecordType) :
    List Field → Decoding (List (Nat × Value))
  | [] => return []
  | wf :: rest =>
    match rd.receivingIndex? wf.name with
    | none => do
      skip wf.type
      decodeFields decode skip rd rest
    | some index =>
      match rd.fields[index]? with
      | none => decodeFields decode skip rd rest
      | some rf => do
        let v ← entered limit rf.type (decode wf.type rf.type)
        let others ← decodeFields decode skip rd rest
        return (index, v) :: others

/-- Reads a writer's record as a reader's record. -/
def decodeRecord (decode : TypeExpr → TypeExpr → Decoding Value)
    (skip : TypeExpr → Decoding Unit) (wd rd : RecordType) :
    Decoding Value := do
  let received ← decodeFields limit decode skip rd wd.fields
  match rd.assembled? reader received with
  | some fields => return .record fields
  | none => rejected

/-- **Reads data of a writer's type as a reader's type**, with a depth of
records. -/
def decode : (depth : Nat) → TypeExpr → TypeExpr → Decoding Value
  | 0 => decodeWith limit writer reader fun _ _ => rejected
  | depth + 1 => decodeWith limit writer reader
      (decodeRecord limit reader (decode depth) (skip limit writer depth))

end

end Avro
