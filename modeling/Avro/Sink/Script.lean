import Avro.Sink.Basic

/-!
# Scripts of calls

A script is a sequence of calls on a sink, with the calls on an opened part nested inside the
opening. Nothing stops at a call that is refused: its outcome is noted, and the script goes on. This
is the most a caller can do to a sink, since a part can be driven only until its parent is used
again.
-/

namespace Avro

/-- **A step of a script.** -/
inductive SinkStep
  /-- Delivers a scalar. -/
  | set (x : Scalar)
  /-- Gives a field its default. -/
  | setDefault (index : Nat)
  /-- Ends the part. -/
  | finalize
  /-- Asks for the name used in messages. -/
  | typeName
  /-- Opens a part and runs steps on it. -/
  | within (part : Opening) (steps : List SinkStep)
  deriving Repr, Inhabited

/-- **The outcome of a step.** -/
inductive StepOutcome
  /-- The call succeeded. -/
  | done
  /-- The call was refused. -/
  | refused (e : SinkError)
  /-- The name used in messages. -/
  | name (text : String)
  /-- The outcomes of the steps on an opened part. -/
  | within (outcomes : List StepOutcome)
  deriving Repr, Inhabited

namespace Sink

variable {σ : Type}

/-- The outcome of a call without result. -/
def outcome : EStateM.Result SinkError σ Unit → StepOutcome × σ
  | .ok () state => (.done, state)
  | .error e state => (.refused e, state)

mutual

/-- **Performs a step** on a sink. -/
def perform (k : Sink σ) : SinkStep → σ → StepOutcome × σ
  | .set x, state => outcome (k.set x state)
  | .setDefault index, state => outcome (k.setDefault index state)
  | .finalize, state => outcome (k.finalize state)
  | .typeName, state => (.name (k.typeName state), state)
  | .within part steps, state =>
    match k.enter part state with
    | .error e state => (.refused e, state)
    | .ok close child =>
      let (outcomes, child) := performAll k steps child
      (.within outcomes, close child)

/-- Performs steps one after the other. -/
def performAll (k : Sink σ) : List SinkStep → σ → List StepOutcome × σ
  | [], state => ([], state)
  | step :: rest, state =>
    let (outcome, state) := perform k step state
    let (outcomes, state) := performAll k rest state
    (outcome :: outcomes, state)

end

end Sink

end Avro
