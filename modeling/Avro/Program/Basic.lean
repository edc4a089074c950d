import Avro.Entries
import Avro.Program.Kind
import Avro.Program.Opcode

/-!
# Programs

A program is a sequence of instructions with the addresses of its methods and the messages it can
stop with. Every instruction has a label that says what it is there for; labels and method names
have no effect on a run and show in listings and errors.

Method addresses are kept sorted by name, so that programs with the same methods are equal; they are
*listed* in the order of their addresses.
-/

namespace Avro

/-- **An instruction.** -/
structure Instruction where
  /-- What is done. -/
  op : Opcode
  /-- What it is done with; unused by some operations. -/
  operand : Int64
  /-- What the instruction is there for. -/
  label : String
  deriving DecidableEq, Repr, Inhabited

namespace Instruction

/-- Reads a kind. -/
def read (k : Kind) (label : String) : Instruction := ⟨.read, k.operand, label⟩

/-- Delivers a kind. -/
def set (k : Kind) (label : String) : Instruction := ⟨.set, k.operand, label⟩

/-- The text of the operand. -/
def operandText (i : Instruction) : String :=
  match i.op with
  | .read | .set =>
    match Kind.ofOperand? i.operand with
    | some k => k.text
    | none => "?" ++ toString i.operand.toInt
  | op => if op.hasOperand then toString i.operand.toInt else ""

/-- A text filled up with blanks to a width. -/
def pad (width : Nat) (s : String) : List Char :=
  s.toList ++ List.replicate (width - s.length) ' '

/-- **The text of an instruction** in a listing: its name and operand in columns, and its label. -/
def text (i : Instruction) : String :=
  let columns := pad 13 i.op.name ++ pad 16 i.operandText
  if i.label.isEmpty then String.ofList (columns.reverse.dropWhile (· = ' ')).reverse
  else String.ofList columns ++ "; " ++ i.label

end Instruction

/-- **A program.** -/
structure Program where
  /-- The instructions; a run starts with the first. -/
  instructions : Array Instruction
  /-- The addresses of the methods, sorted by name. -/
  methods : List (String × Nat)
  /-- The messages, numbered from 1. -/
  errors : List String
  deriving DecidableEq, Repr, Inhabited

namespace Program

/-- The address of a method. -/
def method? (p : Program) (name : String) : Option Nat := Entries.find? name p.methods

/-- Whether a method is listed before another: by address, then by name. -/
def listedBefore (a b : String × Nat) : Bool := a.2 < b.2 || (a.2 = b.2 && a.1 ≤ b.1)

/-- The methods in the order of their addresses. -/
def methodList (p : Program) : List (String × Nat) := p.methods.mergeSort listedBefore

/-- The lines of a listing for an instruction: the methods that start there, and the instruction
after its address. -/
def instructionLines (methods : List (String × Nat)) (pc : Nat) (i : Instruction) : List String :=
  let names := (methods.filter (·.2 = pc)).map fun m => m.1 ++ ":"
  let address := toString pc
  let shown := String.ofList (List.replicate (4 - address.length) ' ') ++ address
  names ++ [shown ++ "  " ++ i.text]

/-- The lines of a listing from an address on. -/
def linesFrom (methods : List (String × Nat)) : (pc : Nat) → List Instruction → List String
  | _, [] => []
  | pc, i :: rest => instructionLines methods pc i ++ linesFrom methods (pc + 1) rest

/-- The lines of a listing for messages, numbered from a number on. -/
def messageLines : (number : Nat) → List String → List String
  | _, [] => []
  | number, message :: rest =>
    ("error " ++ toString number ++ ": " ++ message) :: messageLines (number + 1) rest

/-- **The listing of a program.** -/
def listing (p : Program) : List String :=
  "main:" :: linesFrom p.methodList 0 p.instructions.toList ++ messageLines 1 p.errors

end Program

end Avro
