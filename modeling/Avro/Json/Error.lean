/-!
# JSON syntax errors

What can be wrong with a JSON text, and where. A scanner reports a fault with the number of bytes
it had left; `SyntaxError.at` turns that into the line and column of the last byte consumed. Lines
are counted from 1, columns count bytes, and a line break belongs to the line it ends, so a fault at
a line break is reported in column 0 of the next line.
-/

namespace Avro

namespace Json

/-- **What is wrong with a JSON text.** -/
inductive Fault
  /-- The text ends where a value is needed. -/
  | endInValue
  /-- The text ends inside an array. -/
  | endInArray
  /-- The text ends inside an object. -/
  | endInObject
  /-- The text ends inside a string. -/
  | endInString
  /-- No value starts here. -/
  | noValue
  /-- One of the three literals is misspelt. -/
  | misspelt
  /-- Digits are missing, or follow a leading zero. -/
  | badNumber
  /-- A number beyond the greatest double. -/
  | numberOutOfRange
  /-- A backslash with an unknown letter, or four characters that are not hexadecimal. -/
  | badEscape
  /-- A leading surrogate without a second escape. -/
  | unpairedEscape
  /-- A surrogate without its partner. -/
  | loneSurrogate
  /-- A control character inside a string. -/
  | controlCharacter
  /-- A member that does not start with a string. -/
  | keyNotString
  /-- A key that no colon follows. -/
  | noColon
  /-- An array element that neither comma nor bracket follows. -/
  | noCommaInArray
  /-- A member that neither comma nor brace follows. -/
  | noCommaInObject
  /-- A comma before the closing bracket. -/
  | trailingComma
  /-- A second token after the value. -/
  | trailingCharacters
  /-- Too many levels of brackets. -/
  | tooDeep
  deriving DecidableEq, Repr

/-- The wording of a fault. -/
def Fault.text : Fault → String
  | endInValue => "EOF while parsing a value"
  | endInArray => "EOF while parsing a list"
  | endInObject => "EOF while parsing an object"
  | endInString => "EOF while parsing a string"
  | noValue => "expected value"
  | misspelt => "expected ident"
  | badNumber => "invalid number"
  | numberOutOfRange => "number out of range"
  | badEscape => "invalid escape"
  | unpairedEscape => "unexpected end of hex escape"
  | loneSurrogate => "lone leading surrogate in hex escape"
  | controlCharacter => "control character (\\u0000-\\u001F) found while parsing a string"
  | keyNotString => "key must be a string"
  | noColon => "expected `:`"
  | noCommaInArray => "expected `,` or `]`"
  | noCommaInObject => "expected `,` or `\x7d`"
  | trailingComma => "trailing comma"
  | trailingCharacters => "trailing characters"
  | tooDeep => "recursion limit exceeded"

/-- **A fault in a text**, with its place. -/
structure SyntaxError where
  /-- What is wrong. -/
  fault : Fault
  /-- The line, counted from 1. -/
  line : Nat
  /-- The bytes consumed on that line. -/
  column : Nat
  deriving DecidableEq, Repr

/-- The message of a syntax error. -/
def SyntaxError.message (e : SyntaxError) : String :=
  e.fault.text ++ " at line " ++ toString e.line ++ " column " ++ toString e.column

/-- The line and column reached after consuming some bytes, counted on from a line and column. -/
def place (line column : Nat) : (consumed : Nat) → List UInt8 → Nat × Nat
  | 0, _ => (line, column)
  | _ + 1, [] => (line, column)
  | n + 1, b :: rest => if b = 10 then place (line + 1) 0 n rest else place line (column + 1) n rest

/-- The syntax error of a text in which a fault left `left` bytes unread. -/
def SyntaxError.at (text : String) (fault : Fault) (left : Nat) : SyntaxError :=
  let bytes := text.toUTF8.toList
  let (line, column) := place 1 0 (bytes.length - left) bytes
  ⟨fault, line, column⟩

end Json

end Avro
