import Avro.Json.Basic
import Avro.Json.Error

/-!
# Reading JSON

One value between blanks. A scanner takes the characters that are left and returns what it read and
what it left; a failing scanner says what is wrong and how many *bytes* were left, since errors are
placed by bytes and may fall inside a character.

Arrays and objects nest at most 127 levels. The value scanner recurses on the levels that remain,
and the loops over elements and members on the number of characters left, of which every round
takes at least one.

Numbers are read in two steps. The digits are gathered into a significand below `2 ^ 64`: integer
digits that no longer fit raise the exponent instead, fraction digits that no longer fit are
dropped. An integer that fits is kept as such; otherwise the significand is rounded to double
precision and then multiplied or divided by a power of ten that is itself rounded
(`scaleByPowerOfTen`), so the result may differ in the last place from the nearest double.
-/

namespace Avro

namespace Json

/-- **A failed scan**: what is wrong, and how many bytes were left. -/
structure Failure where
  /-- What is wrong. -/
  fault : Fault
  /-- The bytes not consumed. -/
  left : Nat
  deriving DecidableEq, Repr

/-- **A scanner**: from the characters left to a result and the characters left after it. -/
abbrev Scan (α : Type) := List Char → Except Failure (α × List Char)

/-- The number of bytes that characters take. -/
def byteSize : List Char → Nat
  | [] => 0
  | c :: rest => c.utf8Size + byteSize rest

/-- Fails with everything up to `rest` consumed. -/
def failBefore {α : Type} (fault : Fault) (rest : List Char) : Except Failure α :=
  .error ⟨fault, byteSize rest⟩

/-- Fails with the first byte of `rest` consumed as well. -/
def failAt {α : Type} (fault : Fault) (rest : List Char) : Except Failure α :=
  .error ⟨fault, byteSize rest - 1⟩

/-- Whether a character is a blank between tokens. -/
def isBlank (c : Char) : Bool := c = ' ' || c = '\t' || c = '\n' || c = '\r'

/-- The text from the first character on that is not a blank. -/
def skipBlanks (cs : List Char) : List Char := cs.dropWhile isBlank

/-! ## Literals -/

/-- Reads the rest of a literal. -/
def literal (value : Json) : (expected : List Char) → Scan Json
  | [], cs => .ok (value, cs)
  | _ :: _, [] => failBefore .endInValue []
  | e :: expected, c :: rest =>
    if c = e then literal value expected rest else failAt .misspelt (c :: rest)

/-! ## Numbers -/

/-- The value of a decimal digit. -/
def digitValue (c : Char) : Nat := c.toNat - '0'.toNat

/-- Appends digits to a significand while it stays below `2 ^ 64`; returns the digits that did not
fit. -/
def gather (significand : Nat) : List Char → Nat × List Char
  | [] => (significand, [])
  | c :: rest =>
    let next := significand * 10 + digitValue c
    if next < 0x10000000000000000 then gather next rest else (significand, c :: rest)

/-- **A significand times a power of ten, in double precision.** Powers up to `10 ^ 308` are
rounded and applied once; a more negative exponent is worked off in steps of `10 ^ 308`, of which
`fuel` bounds the number. `none` stands for a result beyond the greatest double. -/
def scaleByPowerOfTen : (fuel : Nat) → Binary64 → Int → Option Binary64
  | 0, x, _ => some x
  | fuel + 1, x, exponent =>
    if exponent.natAbs ≤ 308 then
      let power := Binary64.ofRatio false (Nat.pow 10 exponent.natAbs) 1
      if 0 ≤ exponent then
        let y := x.mul power
        if y.isInfinite then none else some y
      else some (x.div power)
    else if x.isZero then some x
    else if 0 ≤ exponent then none
    else scaleByPowerOfTen fuel (x.div (Binary64.ofRatio false (Nat.pow 10 308) 1)) (exponent + 308)

/-- The double of a significand and a decimal exponent, `rest` being what follows the number. -/
def doubleOf (negative : Bool) (significand : Nat) (exponent : Int) : Scan Json := fun rest =>
  let start := Binary64.ofRatio false significand 1
  match scaleByPowerOfTen (exponent.natAbs / 308 + 1) start exponent with
  | some x => .ok (double (if negative then x.neg else x), rest)
  | none => failBefore .numberOutOfRange rest

/-- Reads exponent digits into a natural below `2 ^ 31`; `none` when the value reaches it, with the
text after the digit that reached it. -/
def exponentDigits (value : Nat) : List Char → Option Nat × List Char
  | [] => (some value, [])
  | c :: rest =>
    if c.isDigit then
      let next := value * 10 + digitValue c
      if next < 0x80000000 then exponentDigits next rest else (none, rest)
    else (some value, c :: rest)

/-- Reads an exponent after its `e` and finishes the number. -/
def exponentPart (negative : Bool) (significand : Nat) (exponent : Int) : Scan Json := fun cs =>
  let (down, cs) :=
    match cs with
    | '+' :: rest => (false, rest)
    | '-' :: rest => (true, rest)
    | _ => (false, cs)
  match cs with
  | [] => failBefore .endInValue []
  | c :: _ =>
    if c.isDigit then
      match exponentDigits 0 cs with
      | (some e, rest) =>
        doubleOf negative significand (if down then exponent - e else exponent + e) rest
      | (none, rest) =>
        if significand ≠ 0 ∧ !down then failBefore .numberOutOfRange rest
        else .ok (double (Binary64.ofMagnitude negative 0), rest.dropWhile Char.isDigit)
    else failAt .badNumber cs

/-- Finishes a number after its fraction. -/
def afterFraction (negative : Bool) (significand : Nat) (exponent : Int) : Scan Json
  | 'e' :: rest | 'E' :: rest => exponentPart negative significand exponent rest
  | rest => doubleOf negative significand exponent rest

/-- Reads a fraction after its point and finishes the number. -/
def fractionPart (negative : Bool) (significand : Nat) (exponent : Int) : Scan Json := fun cs =>
  let digits := cs.takeWhile Char.isDigit
  let rest := cs.dropWhile Char.isDigit
  match digits, rest with
  | [], [] => failBefore .endInValue []
  | [], _ :: _ => failAt .badNumber rest
  | _ :: _, _ =>
    let (significand, dropped) := gather significand digits
    afterFraction negative significand (exponent - (digits.length - dropped.length)) rest

/-- The value of an integer: a double if it does not fit in 64 bits or is a negative zero. -/
def integerOf (negative : Bool) (significand : Nat) : Json :=
  if !negative then integer significand
  else if significand = 0 ∨ 0x8000000000000000 < significand then double (Binary64.ofRatio true significand 1)
  else integer (-significand)

/-- Finishes a number after its integer digits, `excess` of which did not fit. -/
def afterInteger (negative : Bool) (significand excess : Nat) : Scan Json
  | '.' :: rest => fractionPart negative significand excess rest
  | 'e' :: rest | 'E' :: rest => exponentPart negative significand excess rest
  | rest =>
    if excess = 0 then .ok (integerOf negative significand, rest)
    else doubleOf negative significand excess rest

/-- Reads a number after its sign. -/
def number (negative : Bool) : Scan Json
  | [] => failBefore .endInValue []
  | '0' :: rest =>
    match rest with
    | c :: _ => if c.isDigit then failAt .badNumber rest else afterInteger negative 0 0 rest
    | [] => afterInteger negative 0 0 rest
  | c :: rest =>
    if c.isDigit then
      let (significand, excess) := gather 0 ((c :: rest).takeWhile Char.isDigit)
      afterInteger negative significand excess.length (rest.dropWhile Char.isDigit)
    else failAt .badNumber (c :: rest)

/-! ## Strings -/

/-- The value of a hexadecimal digit. -/
def hexValue? (c : Char) : Option Nat :=
  if '0' ≤ c ∧ c ≤ '9' then some (c.toNat - '0'.toNat)
  else if 'a' ≤ c ∧ c ≤ 'f' then some (c.toNat - 'a'.toNat + 10)
  else if 'A' ≤ c ∧ c ≤ 'F' then some (c.toNat - 'A'.toNat + 10)
  else none

/-- Reads four hexadecimal digits. Four bytes are consumed also when they are not digits. -/
def hex4 : Scan Nat := fun cs =>
  if byteSize cs < 4 then failBefore .endInString []
  else
    match cs with
    | a :: b :: c :: d :: rest =>
      match hexValue? a, hexValue? b, hexValue? c, hexValue? d with
      | some a, some b, some c, some d => .ok (((a * 16 + b) * 16 + c) * 16 + d, rest)
      | _, _, _, _ => .error ⟨.badEscape, byteSize cs - 4⟩
    | _ => .error ⟨.badEscape, byteSize cs - 4⟩

/-- Reads a `\u` escape after its letter. A leading surrogate needs a second escape with a
trailing one, and the two stand for one character. -/
def unicodeEscape : Scan Char := fun cs => do
  let (unit, rest) ← hex4 cs
  if 0xDC00 ≤ unit ∧ unit ≤ 0xDFFF then failBefore .loneSurrogate rest
  else if unit < 0xD800 ∨ 0xDBFF < unit then .ok (Char.ofNat unit, rest)
  else
    match rest with
    | [] => failBefore .endInString []
    | '\\' :: [] => failBefore .endInString []
    | '\\' :: 'u' :: rest =>
      let (second, rest) ← hex4 rest
      if second < 0xDC00 ∨ 0xDFFF < second then failBefore .loneSurrogate rest
      else .ok (Char.ofNat ((unit - 0xD800) * 1024 + (second - 0xDC00) + 0x10000), rest)
    | '\\' :: rest => failAt .unpairedEscape rest
    | rest => failAt .unpairedEscape rest

/-- Reads an escape after its backslash. -/
def escaped : Scan Char
  | [] => failBefore .endInString []
  | '"' :: rest => .ok ('"', rest)
  | '\\' :: rest => .ok ('\\', rest)
  | '/' :: rest => .ok ('/', rest)
  | 'b' :: rest => .ok (Char.ofNat 8, rest)
  | 'f' :: rest => .ok (Char.ofNat 12, rest)
  | 'n' :: rest => .ok ('\n', rest)
  | 'r' :: rest => .ok ('\r', rest)
  | 't' :: rest => .ok ('\t', rest)
  | 'u' :: rest => unicodeEscape rest
  | rest => failAt .badEscape rest

/-- Reads a string after its opening quote; `fuel` bounds the characters read. -/
def stringBody : (fuel : Nat) → Scan (List Char)
  | 0, _ => failBefore .endInString []
  | fuel + 1, cs =>
    match cs with
    | [] => failBefore .endInString []
    | '"' :: rest => .ok ([], rest)
    | '\\' :: rest => do
      let (c, rest) ← escaped rest
      let (s, rest) ← stringBody fuel rest
      return (c :: s, rest)
    | c :: rest => do
      if c.toNat < 32 then failAt .controlCharacter (c :: rest)
      else
        let (s, rest) ← stringBody fuel rest
        return (c :: s, rest)

/-- Reads a string after its opening quote. -/
def stringChars : Scan (List Char) := fun cs => stringBody (cs.length + 1) cs

/-! ## Arrays and objects -/

/-- Reads what follows an element: the closing bracket, or a comma and further elements. -/
def moreItems (item : Scan Json) : (fuel : Nat) → Scan (List Json)
  | 0, _ => failBefore .endInArray []
  | fuel + 1, cs =>
    match skipBlanks cs with
    | [] => failBefore .endInArray []
    | ']' :: rest => .ok ([], rest)
    | ',' :: rest =>
      match skipBlanks rest with
      | [] => failBefore .endInValue []
      | ']' :: rest => failAt .trailingComma (']' :: rest)
      | rest => do
        let (first, rest) ← item rest
        let (others, rest) ← moreItems item fuel rest
        return (first :: others, rest)
    | rest => failAt .noCommaInArray rest

/-- Reads an array after its opening bracket. -/
def arrayItems (item : Scan Json) : Scan (List Json) := fun cs =>
  match skipBlanks cs with
  | [] => failBefore .endInArray []
  | ']' :: rest => .ok ([], rest)
  | rest => do
    let (first, rest) ← item rest
    let (others, rest) ← moreItems item rest.length rest
    return (first :: others, rest)

/-- Reads a member after the opening quote of its key. -/
def member (item : Scan Json) : Scan (String × Json) := fun cs => do
  let (key, rest) ← stringChars cs
  match skipBlanks rest with
  | [] => failBefore .endInObject []
  | ':' :: rest =>
    let (value, rest) ← item rest
    return ((String.ofList key, value), rest)
  | rest => failAt .noColon rest

/-- Reads what follows a member: the closing brace, or a comma and further members. -/
def moreMembers (item : Scan Json) : (fuel : Nat) → Scan (List (String × Json))
  | 0, _ => failBefore .endInObject []
  | fuel + 1, cs =>
    match skipBlanks cs with
    | [] => failBefore .endInObject []
    | '}' :: rest => .ok ([], rest)
    | ',' :: rest =>
      match skipBlanks rest with
      | [] => failBefore .endInValue []
      | '"' :: rest => do
        let (first, rest) ← member item rest
        let (others, rest) ← moreMembers item fuel rest
        return (first :: others, rest)
      | '}' :: rest => failAt .trailingComma ('}' :: rest)
      | rest => failAt .keyNotString rest
    | rest => failAt .noCommaInObject rest

/-- Reads an object after its opening brace. -/
def objectMembers (item : Scan Json) : Scan (List (String × Json)) := fun cs =>
  match skipBlanks cs with
  | [] => failBefore .endInObject []
  | '}' :: rest => .ok ([], rest)
  | '"' :: rest => do
    let (first, rest) ← member item rest
    let (others, rest) ← moreMembers item rest.length rest
    return (first :: others, rest)
  | rest => failAt .keyNotString rest

/-! ## Values -/

/-- Reads a value; `item` reads the parts of an array or object, and is missing when no level is
left for them. -/
def valueWith (item : Option (Scan Json)) : Scan Json := fun cs =>
  match skipBlanks cs with
  | [] => failBefore .endInValue []
  | 'n' :: rest => literal null "ull".toList rest
  | 't' :: rest => literal (bool true) "rue".toList rest
  | 'f' :: rest => literal (bool false) "alse".toList rest
  | '-' :: rest => number true rest
  | '"' :: rest => do
    let (s, rest) ← stringChars rest
    return (string (String.ofList s), rest)
  | '[' :: rest =>
    match item with
    | none => failAt .tooDeep ('[' :: rest)
    | some item => do
      let (items, rest) ← arrayItems item rest
      return (array items, rest)
  | '{' :: rest =>
    match item with
    | none => failAt .tooDeep ('{' :: rest)
    | some item => do
      let (members, rest) ← objectMembers item rest
      return (object (Entries.ofList members), rest)
  | c :: rest => if c.isDigit then number false (c :: rest) else failAt .noValue (c :: rest)

/-- Reads a value that nests at most `levels` arrays and objects. -/
def value : (levels : Nat) → Scan Json
  | 0 => valueWith none
  | levels + 1 => valueWith (some (value levels))

/-- The levels of arrays and objects a text may nest. -/
def maxLevels : Nat := 127

/-- Reads a text that holds one value between blanks. -/
def document (cs : List Char) : Except Failure Json := do
  let (result, rest) ← value maxLevels cs
  match skipBlanks rest with
  | [] => return result
  | rest => failAt .trailingCharacters rest

/-- **Reads a JSON text.** -/
def parse (text : String) : Except SyntaxError Json :=
  match document text.toList with
  | .ok j => .ok j
  | .error failure => .error (.at text failure.fault failure.left)

end Json

end Avro
