import Avro.Compile.Layout
import Avro.Engine.Error
import Avro.Machine.Basic
import Avro.Schema.Canonical
import Avro.Schema.Parser
import Avro.Sink.Builder

/-!
# The engine

The engine parses schemas, compiles pairs of them and decodes data, with one limit on the levels of
a run. It may keep the programs it compiles. A kept program is found again by the canonical form of
the writer's schema, since nothing else of it matters, and the whole text of the reader's, whose
aliases and defaults matter too.

Programs are numbered in the order in which they are compiled, so that a kept program can be told
from one compiled anew.
-/

namespace Avro

/-- **A compiled program**, with its number. -/
structure CompiledProgram where
  /-- The number. -/
  serial : Nat
  /-- The program. -/
  program : Program
  deriving DecidableEq, Repr, Inhabited

/-- **By what a kept program is found**: the writer's canonical form and the reader's text. -/
structure ProgramKey where
  /-- The canonical form of the writer's schema. -/
  writer : String
  /-- The text of the reader's schema. -/
  reader : String
  deriving DecidableEq, Repr, Inhabited

/-- **An engine.** -/
structure Engine where
  /-- The limit on the levels of a run. -/
  maxDepth : Nat
  /-- Whether programs are kept. -/
  keepsPrograms : Bool
  /-- The programs kept, the latest first. -/
  kept : List (ProgramKey × CompiledProgram)
  /-- The number of the next program. -/
  nextSerial : Nat
  deriving Repr, Inhabited

namespace Engine

/-- The limit on levels by default. -/
def defaultMaxDepth : Nat := 1000

/-- An engine that keeps nothing yet. -/
def start (maxDepth : Nat) (keepsPrograms : Bool) : Engine := ⟨maxDepth, keepsPrograms, [], 0⟩

/-- The key of a pair of schemas. -/
def key (writer reader : Schema) : ProgramKey := ⟨writer.canonicalForm, reader.source⟩

/-- The number of programs kept. -/
def keptCount (e : Engine) : Nat := e.kept.length

/-- The program kept under a key. -/
def kept? (e : Engine) (key : ProgramKey) : Option CompiledProgram :=
  (e.kept.find? (·.1 = key)).map (·.2)

/-- **Parses a schema.** -/
def parse (source : String) : Except EngineError Schema :=
  (Schema.parse source).mapError fun e => .ofSchema e source

/-- Compiles a pair of schemas anew and keeps the program if the engine keeps programs. -/
def compileAnew (e : Engine) (writer reader : Schema) : Except EngineError CompiledProgram × Engine :=
  match Avro.compile writer reader with
  | .error fault => (.error (.ofCompile fault reader.source), e)
  | .ok program =>
    let compiled : CompiledProgram := ⟨e.nextSerial, program⟩
    let kept := if e.keepsPrograms then (key writer reader, compiled) :: e.kept else e.kept
    (.ok compiled, { e with kept, nextSerial := e.nextSerial + 1 })

/-- **The program of a pair of schemas**, kept or compiled anew. -/
def compile (e : Engine) (writer reader : Schema) : Except EngineError CompiledProgram × Engine :=
  match if e.keepsPrograms then e.kept? (key writer reader) else none with
  | some compiled => (.ok compiled, e)
  | none => e.compileAnew writer reader

/-- **Runs a program** over an input into a sink. -/
def decode {σ : Type} (e : Engine) (p : Program) (k : Sink σ) (steps : Nat) (input : Input)
    (state : σ) : Option (Except EngineError Unit × Input × σ) :=
  (p.run k e.maxDepth steps input state).map fun o =>
    (o.result.mapError .ofExecution, o.input, o.state)

/-- **Decodes a value** written with one schema as a value of another. -/
def decodeValue (e : Engine) (writer reader : Schema) (steps : Nat) (input : Input) :
    Option (Except EngineError Value × Input × Engine) :=
  match e.compile writer reader with
  | (.error fault, e) => some (.error fault, input, e)
  | (.ok compiled, e) =>
    let start := Builder.fresh reader reader.root
    (e.decode compiled.program (Builder.sink reader) steps input start).map fun
      | (.error fault, input, _) => (.error fault, input, e)
      | (.ok (), input, built) => ((built.value? reader).mapError .ofSink, input, e)

end Engine

end Avro
