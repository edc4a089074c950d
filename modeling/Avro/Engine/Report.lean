import Avro.Diagnostic.Report
import Avro.Engine.Error

/-!
# Reports of engine errors

The diagnostics of an error are reported over the text the error keeps, under the name of the file:
that of the style, or else that of the error. Errors without diagnostics are a single line.
-/

namespace Avro

namespace EngineError

/-- The name of a file that has none. -/
def unknownFile : String := "<unknown>"

/-- The lines of the report of an error. -/
def reportLines (e : EngineError) (style : ReportStyle) : List String :=
  let filename := (style.filename.or e.filename).getD unknownFile
  match e with
  | .compilation diagnostics source _ => diagnostics.flatMap (·.report style filename source)
  | .runtime diagnostic source _ => diagnostic.report style filename source
  | .misuse _ | .resourceExceeded _ => [e.message]

/-- **The report of an error.** -/
def report (e : EngineError) (style : ReportStyle) : String :=
  String.join ((e.reportLines style).map (· ++ "\n"))

end EngineError

end Avro
