import Avro.Json.Error
import Avro.Name
import Avro.Text.Span

/-!
# Schema errors

Why a document is not a schema. Syntax errors carry their line and column; errors about names are
located afterwards, by the first place where the name is quoted in the text (`SchemaError.span?`).
-/

namespace Avro

/-- **A defect of a document that is well-formed JSON.** -/
inductive SchemaDefect
  /-- A value that is no type; its JSON text. -/
  | notAType (json : String)
  /-- A union directly inside a union. -/
  | nestedUnion
  /-- The fields of a record are not an array. -/
  | fieldsNotArray (record : FullName)
  /-- A field of a record is not an object. -/
  | fieldNotObject (record : FullName)
  /-- A field name that occurs twice. -/
  | duplicateField (record : FullName) (field : String)
  /-- An enum default that is not a symbol. -/
  | unknownDefault (enum : FullName) (default : String)
  /-- A size that is not a natural number. -/
  | badSize (fixed : FullName)
  /-- An attribute that must be a string. -/
  | notString (key context : String)
  /-- An attribute that must be an array. -/
  | notStringArray (key : String)
  /-- An array that must hold strings only. -/
  | notOnlyStrings (key : String)
  deriving DecidableEq, Repr

/-- The wording of a defect. -/
def SchemaDefect.text : SchemaDefect → String
  | notAType json => s!"expected a type name, object or union, found `{json}`"
  | nestedUnion => "unions may not immediately contain other unions"
  | fieldsNotArray record => s!"fields of record `{record.text}` must be an array"
  | fieldNotObject record => s!"field of record `{record.text}` must be an object"
  | duplicateField record field => s!"record `{record.text}` declares field `{field}` twice"
  | unknownDefault enum default =>
    s!"default `{default}` of enum `{enum.text}` is not one of its symbols"
  | badSize fixed => s!"size of fixed `{fixed.text}` must be a non-negative integer"
  | notString key context => s!"`{key}` of {context} must be a string"
  | notStringArray key => s!"`{key}` must be an array of strings"
  | notOnlyStrings key => s!"`{key}` must only contain strings"

/-- **Why a text is not a schema.** -/
inductive SchemaError
  /-- It is not JSON. -/
  | json (message : String) (line column : Nat)
  /-- It is JSON but not a schema. -/
  | invalid (reason : String)
  /-- An attribute is missing. -/
  | missingAttribute (key context : String)
  /-- A type that is not known. -/
  | unknownType (name : String)
  /-- A full name that is declared twice. -/
  | duplicateDefinition (name : FullName)
  /-- A reference to a type that is not declared. -/
  | unresolvedReference (name : FullName)
  deriving DecidableEq, Repr

namespace SchemaError

/-- The error of a JSON syntax error. -/
def ofSyntax (e : Json.SyntaxError) : SchemaError := json e.message e.line e.column

/-- The error of a defect. -/
def ofDefect (d : SchemaDefect) : SchemaError := invalid d.text

/-- The message. -/
def message : SchemaError → String
  | json message line column =>
    s!"invalid schema JSON at line {line}, column {column}: {message}"
  | invalid reason => s!"invalid schema: {reason}"
  | missingAttribute key context => s!"missing attribute `{key}` in {context}"
  | unknownType name => s!"unknown type `{name}`"
  | duplicateDefinition name => s!"type `{name.text}` is defined more than once"
  | unresolvedReference name => s!"unable to resolve definition of type `{name.text}`"

/-- **The place of an error in the text.** A syntax error points at the byte of its line and column;
an error about a name points at the first place where the name is quoted. -/
def span? (e : SchemaError) (source : String) : Option Span :=
  match e with
  | json _ line column => some (Span.atPlace source line column)
  | unknownType name => Span.quoted? source name
  | unresolvedReference name => (Span.quoted? source name.text).or (Span.quoted? source name.name)
  | duplicateDefinition name => Span.quoted? source name.name
  | invalid _ | missingAttribute _ _ => none

end SchemaError

end Avro
