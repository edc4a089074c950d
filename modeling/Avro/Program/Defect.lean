/-!
# Defects of programs

What can be wrong with a program itself, whatever it decodes: found when it is loaded, or when a run
meets an instruction that makes no sense.
-/

namespace Avro

/-- **A defect of a program.** -/
inductive Defect
  /-- A byte that is no operation. -/
  | unknownOpcode (byte : UInt8)
  /-- An operand that the operation cannot use. -/
  | invalidOperand (op : String) (operand : Int64)
  /-- A run that leaves the program. -/
  | counterOutOfRange (pc : Nat)
  /-- A stop with a message that does not exist. -/
  | unknownMessage (operand : Int64)
  /-- Stored bytes that are no program. -/
  | malformed (reason : String)
  deriving DecidableEq, Repr, Inhabited

/-- The message. -/
def Defect.message : Defect → String
  | unknownOpcode byte =>
    "unknown opcode 0x" ++
      String.ofList [Nat.digitChar (byte.toNat / 16), Nat.digitChar (byte.toNat % 16)]
  | invalidOperand op operand => s!"invalid operand {operand.toInt} for `{op}`"
  | counterOutOfRange pc => s!"program counter {pc} is outside the program"
  | unknownMessage operand => s!"halt refers to missing error message {operand.toInt}"
  | malformed reason => s!"malformed program: {reason}"

end Avro
