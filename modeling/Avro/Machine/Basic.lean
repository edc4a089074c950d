import Avro.Machine.Error
import Avro.Program.Basic
import Avro.Wire.Read

/-!
# Running programs

A run is nested in *levels*. A level has registers of its own and works on one sink; opening a part
of the sink, calling a method and starting a round of a loop start a level below it, which ends at
the instruction that closes it, and the level above goes on from there. Levels are counted from 0
and may not exceed a limit.

`step` says what one instruction does to the registers, the input and the sink of its level, and how
the level goes on. `Program.runFrom` repeats steps and nests levels. Programs may run forever, so it
is given a number of steps that no chain of nested and successive steps may exceed, and returns
`none` when they are used up; a result that is reached does not depend on that number.
-/

namespace Avro

/-- **The registers of a level.** -/
structure Frame where
  /-- The truth value read last. -/
  boolean : Bool
  /-- The 32-bit integer read last. -/
  int : Int32
  /-- The 64-bit integer read or computed last; also the loop counter. -/
  long : Int64
  /-- The single precision number read last. -/
  float : Binary32
  /-- The double precision number read last. -/
  double : Binary64
  /-- The byte string read last, until it is delivered. -/
  bytes : List UInt8
  /-- The text read last, until it is delivered or used as a key. -/
  string : String
  /-- The outcome of the last comparison. -/
  condition : Bool
  deriving DecidableEq, Repr, Inhabited

namespace Frame

/-- The registers with which a level starts. -/
def blank : Frame := ⟨false, 0, 0, ⟨0⟩, ⟨0⟩, [], "", false⟩

/-- Reads a kind into its register. -/
def read (frame : Frame) : Kind → Read Frame
  | .null => return frame
  | .boolean => do return { frame with boolean := ← Wire.readBoolean }
  | .int => do return { frame with int := ← Wire.readInt }
  | .long => do return { frame with long := ← Wire.readLong }
  | .float => do return { frame with float := ← Wire.readFloat }
  | .double => do return { frame with double := ← Wire.readDouble }
  | .bytes | .stringAsBytes => do return { frame with bytes := ← Wire.readBytes }
  | .string | .bytesAsString => do return { frame with string := ← Wire.readString }
  | .unusedLong => do
    let _ ← Wire.readLong
    return frame
  | .intAsLong => do return { frame with long := Int64.ofInt (← Wire.readInt).toInt }
  | .intAsFloat => do return { frame with float := Binary32.ofInt (← Wire.readInt).toInt }
  | .intAsDouble => do return { frame with double := Binary64.ofInt (← Wire.readInt).toInt }
  | .longAsFloat => do return { frame with float := Binary32.ofInt (← Wire.readLong).toInt }
  | .longAsDouble => do return { frame with double := Binary64.ofInt (← Wire.readLong).toInt }
  | .floatAsDouble => do return { frame with double := (← Wire.readFloat).widen }
  | .fixed size => do return { frame with bytes := ← Wire.take size }

/-- What delivering a kind delivers. -/
inductive Delivery
  /-- Nothing. -/
  | nothing
  /-- A scalar. -/
  | scalar (x : Scalar)
  /-- The kind cannot be delivered. -/
  | impossible
  deriving DecidableEq, Repr

/-- The content of the register of a kind. -/
def delivery (frame : Frame) : Kind → Delivery
  | .null => .nothing
  | .boolean => .scalar (.boolean frame.boolean)
  | .int => .scalar (.int frame.int)
  | .long => .scalar (.long frame.long)
  | .float => .scalar (.float frame.float)
  | .double => .scalar (.double frame.double)
  | .bytes => .scalar (.bytes frame.bytes)
  | .string => .scalar (.string frame.string)
  | _ => .impossible

/-- The registers after a kind was delivered: byte strings and texts are handed over. -/
def delivered (frame : Frame) : Kind → Frame
  | .bytes => { frame with bytes := [] }
  | .string => { frame with string := "" }
  | _ => frame

end Frame

/-- **How a level goes on after an instruction.** -/
inductive Next (σ : Type)
  /-- With another instruction of the level. -/
  | goOn (pc : Nat) (frame : Frame) (input : Input) (state : σ)
  /-- With a level below that starts at `pc` on `child`. When it has closed at an address, `close`
  puts its sink back and the level goes on at the address that `resume` gives. -/
  | descend (pc : Nat) (child : σ) (close : σ → σ) (resume : Nat → Nat) (frame : Frame)
    (input : Input)
  /-- Not at all: it closes. -/
  | close (input : Input) (state : σ)
  /-- Not at all: the run fails. -/
  | fail (cause : ExecutionCause) (input : Input) (state : σ)

/-- An operand used as an index or address. -/
def address? (operand : Int64) : Option Nat :=
  if 0 ≤ operand.toInt then some operand.toInt.toNat else none

section

variable {σ : Type}

/-- The level after a call on the sink that has no result. -/
def afterCall (pc : Nat) (frame : Frame) (input : Input) :
    EStateM.Result SinkError σ Unit → Next σ
  | .ok () state => .goOn (pc + 1) frame input state
  | .error e state => .fail (.sink e) input state

/-- The level below that an opened part starts. -/
def afterOpening (pc : Nat) (frame : Frame) (input : Input) :
    EStateM.Result SinkError σ (σ → σ) → Next σ
  | .ok close child => .descend (pc + 1) child close (· + 1) frame input
  | .error e state => .fail (.sink e) input state

/-- **What an instruction does.** -/
def step (errors : List String) (k : Sink σ) (i : Instruction) (pc : Nat) (frame : Frame)
    (input : Input) (state : σ) : Next σ :=
  let invalid : Next σ := .fail (.defect (.invalidOperand i.op.name i.operand)) input state
  match i.op with
  | .read =>
    match Kind.ofOperand? i.operand with
    | none => invalid
    | some kind =>
      match frame.read kind input with
      | .ok frame input => .goOn (pc + 1) frame input state
      | .error e input => .fail (.decode e) input state
  | .set =>
    match Kind.ofOperand? i.operand with
    | none => invalid
    | some kind =>
      match frame.delivery kind with
      | .nothing => .goOn (pc + 1) frame input state
      | .scalar x => afterCall pc (frame.delivered kind) input (k.set x state)
      | .impossible => invalid
  | .setDefault =>
    match address? i.operand with
    | none => invalid
    | some index => afterCall pc frame input (k.setDefault index state)
  | .enter =>
    match address? i.operand with
    | none => invalid
    | some index => afterOpening pc frame input (k.enter (.field index) state)
  | .exit =>
    match k.finalize state with
    | .ok () state => .close input state
    | .error e state => .fail (.sink e) input state
  | .appendArray => afterOpening pc frame input (k.enter .item state)
  | .appendMap =>
    afterOpening pc { frame with string := "" } input (k.enter (.entry frame.string) state)
  | .call =>
    match address? i.operand with
    | none => invalid
    | some target => .descend target state id (fun _ => pc + 1) frame input
  | .return | .popLoop => .close input state
  | .jump =>
    match address? i.operand with
    | none => invalid
    | some target => .goOn target frame input state
  | .condJump =>
    if frame.condition then
      match address? i.operand with
      | none => invalid
      | some target => .goOn target frame input state
    else .goOn (pc + 1) frame input state
  | .evalEqual =>
    .goOn (pc + 1) { frame with condition := frame.long = i.operand } input state
  | .evalGreater =>
    .goOn (pc + 1) { frame with condition := i.operand < frame.long } input state
  | .addLong => .goOn (pc + 1) { frame with long := frame.long + i.operand } input state
  | .multLong => .goOn (pc + 1) { frame with long := frame.long * i.operand } input state
  | .pushLoop => .descend (pc + 1) state id (· + 1) frame input
  | .halt =>
    if i.operand = 0 then .close input state
    else
      match (address? i.operand).bind fun n => errors[n - 1]? with
      | some message => .fail (.halt message) input state
      | none => .fail (.defect (.unknownMessage i.operand)) input state

/-- **The outcome of a level or a run**: the address where it closed, or the error, with the input
and the sink as they were left. -/
structure Outcome (σ α : Type) where
  /-- How it ended. -/
  result : Except ExecutionError α
  /-- The input left. -/
  input : Input
  /-- The sink. -/
  state : σ

namespace Program

/-- The error of the instruction at an address. -/
def errorAt (p : Program) (pc : Nat) (cause : ExecutionCause) : ExecutionError :=
  ⟨cause, pc, (p.instructions[pc]?.map (·.label)).getD ""⟩

/-- **Runs a level** from an address on; `none` when the steps are used up. -/
def runFrom (p : Program) (k : Sink σ) (maxDepth : Nat) :
    (steps depth pc : Nat) → Frame → Input → σ → Option (Outcome σ Nat)
  | 0, _, _, _, _, _ => none
  | steps + 1, depth, pc, frame, input, state =>
    match p.instructions[pc]? with
    | none => some ⟨.error (p.errorAt pc (.defect (.counterOutOfRange pc))), input, state⟩
    | some i =>
      match step p.errors k i pc frame input state with
      | .goOn pc frame input state => runFrom p k maxDepth steps depth pc frame input state
      | .close input state => some ⟨.ok pc, input, state⟩
      | .fail cause input state => some ⟨.error (p.errorAt pc cause), input, state⟩
      | .descend start child close resume frame input =>
        if maxDepth < depth + 1 then
          some ⟨.error (p.errorAt start (.tooDeep (depth + 1) maxDepth)), input, close child⟩
        else
          match runFrom p k maxDepth steps (depth + 1) start .blank input child with
          | none => none
          | some ⟨.error e, input, child⟩ => some ⟨.error e, input, close child⟩
          | some ⟨.ok closed, input, child⟩ =>
            runFrom p k maxDepth steps depth (resume closed) frame input (close child)

/-- **Runs a program** over an input into a sink. -/
def run (p : Program) (k : Sink σ) (maxDepth steps : Nat) (input : Input) (state : σ) :
    Option (Outcome σ Unit) :=
  (p.runFrom k maxDepth steps 0 0 .blank input state).map fun o =>
    ⟨o.result.map fun _ => (), o.input, o.state⟩

end Program

end

end Avro
