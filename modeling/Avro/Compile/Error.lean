import Avro.Value.Default

/-!
# Compile errors

Why data of one schema cannot be read as another. The *subject* of an error is the name by which it
can be found in the text of the reader's schema.
-/

namespace Avro

/-- **Why a pair of schemas cannot be compiled.** -/
inductive CompileError
  /-- The types do not match; the context is the label of the place. -/
  | incompatible (writer reader context : String)
  /-- Fixed types of different sizes. -/
  | fixedSizeMismatch (name : String) (writer reader : Nat)
  /-- No branch of a written union can be read. -/
  | noReadableBranch (writer reader : String)
  /-- A field that is not written and has no default. -/
  | missingDefault (record field : String)
  /-- A field whose default is no value of its type. -/
  | invalidDefault (record field : String) (reason : DefaultError)
  /-- A type without definition. -/
  | unresolvedReference (type : String)
  /-- A call of a method that was never compiled. -/
  | unknownMethod (name : String)
  /-- A defect of the compiler. -/
  | internal (reason : String)
  deriving DecidableEq, Repr, Inhabited

namespace CompileError

/-- The message. -/
def message : CompileError → String
  | incompatible writer reader context => s!"{context}: `{writer}` cannot be read as `{reader}`"
  | fixedSizeMismatch name writer reader =>
    s!"fixed `{name}` is {writer} bytes when written but {reader} bytes when read"
  | noReadableBranch writer reader => s!"no writer branch of `{writer}` can be read as `{reader}`"
  | missingDefault record field => s!"field `{field}` of `{record}` is not written and has no default"
  | invalidDefault record field reason =>
    s!"invalid default for field `{field}` of `{record}`: {reason.message}"
  | unresolvedReference type => s!"unresolved type reference `{type}`"
  | unknownMethod name => s!"call to unregistered method `{name}`"
  | internal reason => s!"internal compiler error: {reason}"

/-- The name to look for in the reader's text. Of a fixed's full name it is the last part. -/
def subject? : CompileError → Option String
  | fixedSizeMismatch name _ _ => some (FullName.ofString name "").name
  | missingDefault _ field | invalidDefault _ field _ => some field
  | unresolvedReference type => some type
  | _ => none

end CompileError

end Avro
