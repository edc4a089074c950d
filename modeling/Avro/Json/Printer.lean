import Avro.Decimal.Style
import Avro.Json.Basic

/-!
# Writing JSON

JSON text without blanks: members in key order, strings with the fewest escapes, doubles with the
fewest digits that read back. The text is a list of characters, so that what follows it can be
appended and reasoned about.
-/

namespace Avro

namespace Json

/-- A hexadecimal digit in lower case. -/
def hexDigit (n : Nat) : Char := Nat.digitChar n

/-- **The escape of a character in a string.** The quote, the backslash and the control characters
below U+0020 are escaped, everything else stands for itself. -/
def escape (c : Char) : List Char :=
  if c = '"' then ['\\', '"']
  else if c = '\\' then ['\\', '\\']
  else if c.toNat = 8 then ['\\', 'b']
  else if c.toNat = 9 then ['\\', 't']
  else if c.toNat = 10 then ['\\', 'n']
  else if c.toNat = 12 then ['\\', 'f']
  else if c.toNat = 13 then ['\\', 'r']
  else if c.toNat < 32 then
    ['\\', 'u', '0', '0', hexDigit (c.toNat / 16), hexDigit (c.toNat % 16)]
  else [c]

/-- A string between quotes. -/
def quote (s : List Char) : List Char := '"' :: (s.flatMap escape ++ ['"'])

/-- Doubles are plain from `1e-5` to below `1e16` and scientific with a signed exponent elsewhere;
a half goes to the even digit. -/
def doubleStyle : Decimal.Style := ⟨-5, 15, true, .even⟩

/-- The text of a double; what is not finite has none and is written as `null`. -/
def doubleText (x : Binary64) : String :=
  match x.reading with
  | .finite significand exponent =>
    Decimal.writeBinary doubleStyle .double x.negative significand exponent
  | _ => "null"

mutual

/-- **The text of a value.** -/
def chars : Json → List Char
  | null => "null".toList
  | bool true => "true".toList
  | bool false => "false".toList
  | integer n => (toString n).toList
  | double x => (doubleText x).toList
  | string s => quote s.toList
  | array items => '[' :: charsItems items
  | object members => '{' :: charsMembers members

/-- The items and the closing bracket. -/
def charsItems : List Json → List Char
  | [] => [']']
  | item :: rest =>
    match rest with
    | [] => item.chars ++ [']']
    | _ :: _ => item.chars ++ ',' :: charsItems rest

/-- The members and the closing brace. -/
def charsMembers : List (String × Json) → List Char
  | [] => ['}']
  | (key, value) :: rest =>
    match rest with
    | [] => quote key.toList ++ ':' :: (value.chars ++ ['}'])
    | _ :: _ => quote key.toList ++ ':' :: (value.chars ++ ',' :: charsMembers rest)

end

/-- The text of a value as a string. -/
def text (j : Json) : String := String.ofList j.chars

end Json

end Avro
