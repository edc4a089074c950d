import Avro.Sink.Basic

/-!
# Traces

A sink that takes every call and writes it down, with the depth of the part it was made on. The root
has depth 0. It can be told to refuse the call that would become a given entry of the log.
-/

namespace Avro

/-- **A log of calls.** -/
structure Trace where
  /-- The depth of the part that is open. -/
  depth : Nat
  /-- The calls with their depths, the latest first. -/
  latest : List (Nat × SinkCall)
  /-- The number of calls that are still logged before one is refused. -/
  left : Option Nat
  deriving Repr, Inhabited

namespace Trace

/-- The empty log. -/
def start (left : Option Nat) : Trace := ⟨0, [], left⟩

/-- The calls with their depths, in the order they were made. -/
def calls (t : Trace) : List (Nat × SinkCall) := t.latest.reverse

open Sink (accept refuse)

/-- Writes a call down, or refuses it. -/
def log {α : Type} (call : SinkCall) (a : α) (t : Trace) : EStateM.Result SinkError Trace α :=
  if t.left = some 0 then refuse (.custom "refused") t
  else accept a { t with latest := (t.depth, call) :: t.latest, left := t.left.map (· - 1) }

/-- Writes the opening of a part down and goes one level deeper. -/
def enter (part : Opening) (t : Trace) : EStateM.Result SinkError Trace (Trace → Trace) :=
  match log (.enter part) () t with
  | .ok () logged =>
    accept (fun child => { child with depth := t.depth }) { logged with depth := t.depth + 1 }
  | .error e t => .error e t

/-- **The sink that logs.** -/
def sink : Sink Trace where
  typeName _ := "trace"
  set x := log (.set x) ()
  setDefault index := log (.setDefault index) ()
  enter := enter
  finalize := log .finalize ()

end Trace

end Avro
