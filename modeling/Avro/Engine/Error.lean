import Avro.Container.Error
import Avro.Diagnostic.Basic

/-!
# Engine errors

The errors that callers of the engine see. Errors of schemas and of compilation keep the text that
their diagnostics point into, so that a report can show it; a failed decoding has a diagnostic
without a place.
-/

namespace Avro

/-- **An error of the engine.** -/
inductive EngineError
  /-- A wrong use, or a defective program. -/
  | misuse (reason : String)
  /-- A schema that cannot be parsed or a pair that cannot be compiled. -/
  | compilation (diagnostics : List Diagnostic) (source : String) (filename : Option String)
  /-- Data that cannot be decoded. -/
  | runtime (diagnostic : Diagnostic) (source : String) (filename : Option String)
  /-- Too many levels. -/
  | resourceExceeded (reason : String)
  deriving DecidableEq, Repr, Inhabited

namespace EngineError

/-- The message. -/
def message : EngineError → String
  | misuse reason => s!"API error: {reason}"
  | compilation diagnostics _ _ =>
    let errors := (diagnostics.filter (·.severity = .error)).length
    let first :=
      match diagnostics with
      | [] => ""
      | d :: _ => ": " ++ d.message
    s!"Compilation failed with {errors} error(s)" ++ first
  | runtime diagnostic _ _ => s!"Runtime error: {diagnostic.message}"
  | resourceExceeded reason => s!"Resource limit exceeded: {reason}"

/-- The name of the file that the error is about. -/
def filename : EngineError → Option String
  | compilation _ _ filename | runtime _ _ filename => filename
  | misuse _ | resourceExceeded _ => none

/-- The same error about a named file. -/
def withFilename (name : String) : EngineError → EngineError
  | compilation diagnostics source _ => compilation diagnostics source (some name)
  | runtime diagnostic source _ => runtime diagnostic source (some name)
  | e => e

/-- A schema error, in its text. -/
def ofSchema (e : SchemaError) (source : String) : EngineError :=
  compilation [e.diagnostic source] source none

/-- A compile error, in the reader's text. -/
def ofCompile (e : CompileError) (source : String) : EngineError :=
  compilation [e.diagnostic source] source none

/-- A failed run. -/
def ofExecution (e : ExecutionError) : EngineError :=
  match e.cause with
  | .decode _ | .sink _ | .halt _ => runtime e.diagnostic "" none
  | .tooDeep .. => resourceExceeded e.message
  | .defect d => misuse s!"Internal error: {d.message}"

/-- A value that was not delivered completely. -/
def ofSink (e : SinkError) : EngineError := runtime (.ofError e.message none "sink") "" none

/-- A container error. Schemas and pairs of schemas are without text here. -/
def ofContainer : ContainerError → EngineError
  | .schema e => ofSchema e ""
  | .compile e => ofCompile e ""
  | .execution e => ofExecution e
  | other => runtime (.ofError other.message none "container") "" none

end EngineError

end Avro
