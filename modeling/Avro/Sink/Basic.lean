import Avro.Value.Default

/-!
# Sinks

A sink receives decoded data. A reader drives it by calls: scalars are delivered with `set`, the
default of a record field is asked for with `setDefault`, and the parts of a record, union, array
or map are *opened*. Opening turns the sink into the sink of the part; once the part has received
everything it is `finalize`d, and the closing function that the opening returned puts the finished
part back into its parent. A sink is thus a value that calls transform, and the nesting of parts is
the nesting of calls.

A call that fails also leaves a state behind. The sinks of this library leave the state they were
given; a sink in general may not.
-/

namespace Avro

/-- **Why a sink refuses a call.** -/
inductive SinkError
  /-- The target does not take this kind of call. -/
  | unsupported (operation target : String)
  /-- A field, branch or symbol that does not exist. -/
  | invalidIndex (index : Int64) (target : String)
  /-- A fixed value of the wrong size. -/
  | fixedSize (expected actual : Nat)
  /-- A value was asked for before all of it was delivered. -/
  | incomplete (what : String)
  /-- The declared default is no value of its type. -/
  | default (e : DefaultError)
  /-- A refusal with a reason of its own. -/
  | custom (reason : String)
  deriving DecidableEq, Repr, Inhabited

/-- The message. -/
def SinkError.message : SinkError → String
  | unsupported operation target => s!"`{target}` does not support `{operation}`"
  | invalidIndex index target => s!"index {index.toInt} is out of range for `{target}`"
  | fixedSize expected actual => s!"fixed value must be {expected} bytes, got {actual}"
  | incomplete what => s!"{what} was never populated"
  | default e => e.message
  | custom reason => reason

/-- **A datum without parts.** Bytes also deliver fixed values; longs also deliver the positions of
enum symbols and select union branches. -/
inductive Scalar
  /-- A truth value. -/
  | boolean (b : Bool)
  /-- A 32-bit integer. -/
  | int (n : Int32)
  /-- A 64-bit integer, a symbol's position or a branch's number. -/
  | long (n : Int64)
  /-- A single precision number. -/
  | float (x : Binary32)
  /-- A double precision number. -/
  | double (x : Binary64)
  /-- A byte string. -/
  | bytes (b : List UInt8)
  /-- A text. -/
  | string (s : String)
  deriving DecidableEq, Repr, Inhabited

namespace Scalar

/-- The name of the call that delivers a scalar. -/
def operation : Scalar → String
  | boolean _ => "set_boolean"
  | int _ => "set_int"
  | long _ => "set_long"
  | float _ => "set_float"
  | double _ => "set_double"
  | bytes _ => "set_bytes"
  | string _ => "set_string"

/-- The primitive type of a scalar. -/
def primitive : Scalar → Primitive
  | boolean _ => .boolean
  | int _ => .int
  | long _ => .long
  | float _ => .float
  | double _ => .double
  | bytes _ => .bytes
  | string _ => .string

/-- The value of that type. -/
def value : Scalar → Value
  | boolean b => .boolean b
  | int n => .int n
  | long n => .long n
  | float x => .float x
  | double x => .double x
  | bytes b => .bytes b
  | string s => .string s

end Scalar

/-- **The part of a sink that is opened.** -/
inductive Opening
  /-- A field of a record or a branch of a union. -/
  | field (index : Nat)
  /-- A further item of an array. -/
  | item
  /-- The entry of a key in a map. -/
  | entry (key : String)
  deriving DecidableEq, Repr, Inhabited

/-- The name of the call that opens a part. -/
def Opening.operation : Opening → String
  | field _ => "field"
  | item => "append_array"
  | entry _ => "append_map"

/-- **A call on a sink**, as a log records it. -/
inductive SinkCall
  /-- A scalar is delivered. -/
  | set (x : Scalar)
  /-- A field takes its default. -/
  | setDefault (index : Nat)
  /-- A part is opened. -/
  | enter (part : Opening)
  /-- The part has received everything. -/
  | finalize
  deriving DecidableEq, Repr, Inhabited

/-- The effect of a call on a sink of states `σ`. -/
abbrev SinkEffect (σ α : Type) := EStateM SinkError σ α

/-- **A kind of sink** with states `σ`. -/
structure Sink (σ : Type) where
  /-- The name used in messages. -/
  typeName : σ → String
  /-- Delivers a scalar. -/
  set : Scalar → SinkEffect σ Unit
  /-- Gives a record field its default. -/
  setDefault : Nat → SinkEffect σ Unit
  /-- Opens a part: the state becomes the part's, and the result puts the finished part back. -/
  enter : Opening → SinkEffect σ (σ → σ)
  /-- Ends a part that has received everything. -/
  finalize : SinkEffect σ Unit

namespace Sink

variable {σ : Type}

/-- A call that succeeds with a new state. -/
def accept {α : Type} (a : α) (state : σ) : EStateM.Result SinkError σ α := .ok a state

/-- A call that fails and leaves the state as it was. -/
def refuse {α : Type} (e : SinkError) (state : σ) : EStateM.Result SinkError σ α := .error e state

/-- The sink that refuses every call but the ending of a part. Others are made by replacing what
they support. -/
def refusing (typeName : σ → String) : Sink σ where
  typeName := typeName
  set x state := refuse (.unsupported x.operation (typeName state)) state
  setDefault _ state := refuse (.unsupported "set_default" (typeName state)) state
  enter part state := refuse (.unsupported part.operation (typeName state)) state
  finalize state := accept () state

end Sink

end Avro
