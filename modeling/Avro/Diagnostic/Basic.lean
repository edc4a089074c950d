import Avro.Compile.Error
import Avro.Machine.Error
import Avro.Schema.Error

/-!
# Diagnostics

A message about a place in a schema's text: how serious it is, what it says, where it points, what
may help and a code for its kind. Errors of schemas, of compilation and of runs become diagnostics;
the first two point into the text they are about, a failed run points nowhere.
-/

namespace Avro

/-- **How serious a diagnostic is.** -/
inductive Severity
  /-- Something failed. -/
  | error
  /-- Something is doubtful. -/
  | warning
  /-- Something is worth knowing. -/
  | info
  deriving DecidableEq, Repr, Inhabited

/-- The word for a severity. -/
def Severity.text : Severity → String
  | error => "error"
  | warning => "warning"
  | info => "info"

/-- **A message about a place in a text.** -/
structure Diagnostic where
  /-- How serious it is. -/
  severity : Severity
  /-- What it says. -/
  message : String
  /-- Where it points. -/
  span : Option Span
  /-- What may help. -/
  help : List String
  /-- A code for its kind. -/
  code : Option String
  deriving DecidableEq, Repr, Inhabited

/-- An error with a code and no help. -/
def Diagnostic.ofError (message : String) (span : Option Span) (code : String) : Diagnostic :=
  ⟨.error, message, span, [], some code⟩

/-- The diagnostic of a schema error. -/
def SchemaError.diagnostic (e : SchemaError) (source : String) : Diagnostic :=
  .ofError e.message (e.span? source) "schema"

namespace CompileError

/-- The code of a compile error. -/
def code : CompileError → String
  | incompatible .. => "incompatible-types"
  | fixedSizeMismatch .. => "fixed-size"
  | noReadableBranch .. => "no-readable-branch"
  | missingDefault .. => "missing-default"
  | invalidDefault .. => "invalid-default"
  | unresolvedReference .. => "unresolved-reference"
  | unknownMethod .. | internal .. => "internal"

/-- What may help against a compile error. -/
def help : CompileError → List String
  | incompatible .. =>
    ["int reads as long, float or double; long as float or double; float as double; string and " ++
      "bytes as each other"]
  | missingDefault .. => ["declare a \"default\" for the field in the reader schema"]
  | _ => []

/-- The diagnostic of a compile error, which points at its subject in the reader's text. -/
def diagnostic (e : CompileError) (source : String) : Diagnostic :=
  { Diagnostic.ofError e.message (e.subject?.bind (Span.quoted? source)) e.code with
    help := e.help }

end CompileError

/-- The code of a failed run. -/
def ExecutionCause.code : ExecutionCause → String
  | decode _ => "decode"
  | sink _ => "sink"
  | halt _ => "unreadable-data"
  | tooDeep .. => "resource-exceeded"
  | defect _ => "internal"

/-- The diagnostic of a failed run. -/
def ExecutionError.diagnostic (e : ExecutionError) : Diagnostic :=
  .ofError e.message none e.cause.code

end Avro
