import Avro.Program.Defect
import Avro.Sink.Basic
import Avro.Wire.Input

/-!
# Execution errors

A failed run: the cause, the address of the instruction that failed and its label.
-/

namespace Avro

/-- **Why a run fails.** -/
inductive ExecutionCause
  /-- The input is malformed or ends too early. -/
  | decode (e : DecodeError)
  /-- The sink refused a call. -/
  | sink (e : SinkError)
  /-- The program stopped with a message. -/
  | halt (message : String)
  /-- Too many levels. -/
  | tooDeep (depth limit : Nat)
  /-- The program is defective. -/
  | defect (d : Defect)
  deriving DecidableEq, Repr, Inhabited

/-- The wording of a cause. -/
def ExecutionCause.message : ExecutionCause → String
  | decode e => e.message
  | sink e => e.message
  | halt message => message
  | tooDeep depth limit => s!"nesting depth {depth} exceeds the limit of {limit}"
  | defect d => d.message

/-- **A failed run.** -/
structure ExecutionError where
  /-- What went wrong. -/
  cause : ExecutionCause
  /-- The address of the failing instruction. -/
  pc : Nat
  /-- Its label; empty past the end of the program. -/
  label : String
  deriving DecidableEq, Repr, Inhabited

/-- The message. -/
def ExecutionError.message (e : ExecutionError) : String :=
  s!"{e.cause.message} (at pc {e.pc}: {e.label})"

end Avro
