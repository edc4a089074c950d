/-!
# Operations

The operations of decoding programs. Each has a byte, its position in `Opcode.all`, by which it is
stored, and a name, by which it is listed.
-/

namespace Avro

/-- **An operation.** -/
inductive Opcode
  /-- Decodes a primitive into its register; the operand is the kind. -/
  | read
  /-- Delivers a register to the sink; the operand is the kind. -/
  | set
  /-- Gives a field of the sink its default. -/
  | setDefault
  /-- Runs what follows on a field or branch of the sink, up to the `exit`. -/
  | enter
  /-- Ends the sink of this level. -/
  | exit
  /-- Runs what follows on a further item of the sink, up to the `exit`. -/
  | appendArray
  /-- Runs what follows on the entry whose key is the string register, up to the `exit`. -/
  | appendMap
  /-- Runs a method up to its `return`. -/
  | call
  /-- Ends a method. -/
  | return
  /-- Goes to an address. -/
  | jump
  /-- Goes to an address if the condition holds. -/
  | condJump
  /-- Whether the long register equals the operand. -/
  | evalEqual
  /-- Whether the long register is greater than the operand. -/
  | evalGreater
  /-- Adds the operand to the long register. -/
  | addLong
  /-- Multiplies the long register by the operand. -/
  | multLong
  /-- Runs one round of a loop up to the `popLoop`, keeping the counter. -/
  | pushLoop
  /-- Ends a round of a loop. -/
  | popLoop
  /-- Stops; an operand other than 0 is the number of a message, counted from 1. -/
  | halt
  deriving DecidableEq, Repr, Inhabited

namespace Opcode

/-- Every operation, in the order of their bytes. -/
def all : List Opcode :=
  [read, set, setDefault, enter, exit, appendArray, appendMap, call, .return, jump, condJump,
   evalEqual, evalGreater, addLong, multLong, pushLoop, popLoop, halt]

/-- The byte by which an operation is stored. -/
def byte (op : Opcode) : UInt8 := UInt8.ofNat (op.ctorIdx)

/-- The operation of a byte. -/
def ofByte? (b : UInt8) : Option Opcode := all[b.toNat]?

/-- The name in listings. -/
def name : Opcode → String
  | read => "read"
  | set => "set"
  | setDefault => "set_default"
  | enter => "enter"
  | exit => "exit"
  | appendArray => "append_array"
  | appendMap => "append_map"
  | call => "call"
  | .return => "return"
  | jump => "jump"
  | condJump => "cond_jump"
  | evalEqual => "eval_equal"
  | evalGreater => "eval_greater"
  | addLong => "add_long"
  | multLong => "mult_long"
  | pushLoop => "push_loop"
  | popLoop => "pop_loop"
  | halt => "halt"

/-- Whether the operand means anything. -/
def hasOperand : Opcode → Bool
  | exit | appendArray | appendMap | .return | pushLoop | popLoop => false
  | _ => true

/-- An operation is found under its byte. -/
@[simp] theorem ofByte?_byte (op : Opcode) : ofByte? op.byte = some op := by
  cases op <;> rfl

end Opcode

end Avro
