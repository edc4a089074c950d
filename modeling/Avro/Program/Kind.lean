import Avro.Type

/-!
# Kinds

The operand of `read` and `set`: which register is meant and, for `read`, which encoding is decoded
into it. The promoting kinds decode a writer's encoding straight into the reader's register. The
first seventeen kinds are numbered from 0; a fixed kind of size `n` is number `17 + n`.
-/

namespace Avro

/-- **A register with an encoding.** -/
inductive Kind
  /-- Nothing. -/
  | null
  /-- A truth value. -/
  | boolean
  /-- A 32-bit integer. -/
  | int
  /-- A 64-bit integer. -/
  | long
  /-- A single precision number. -/
  | float
  /-- A double precision number. -/
  | double
  /-- A byte string. -/
  | bytes
  /-- A text. -/
  | string
  /-- A 64-bit integer that is read and dropped. -/
  | unusedLong
  /-- A 32-bit integer into the long register. -/
  | intAsLong
  /-- A 32-bit integer into the float register. -/
  | intAsFloat
  /-- A 32-bit integer into the double register. -/
  | intAsDouble
  /-- A 64-bit integer into the float register. -/
  | longAsFloat
  /-- A 64-bit integer into the double register. -/
  | longAsDouble
  /-- A single precision number into the double register. -/
  | floatAsDouble
  /-- A text, not checked, into the bytes register. -/
  | stringAsBytes
  /-- A byte string, checked to be a text, into the string register. -/
  | bytesAsString
  /-- So many bytes into the bytes register. -/
  | fixed (size : Nat)
  deriving DecidableEq, Repr, Inhabited

namespace Kind

/-- The kinds without a size, in the order of their numbers. -/
def simple : List Kind :=
  [null, boolean, int, long, float, double, bytes, string, unusedLong, intAsLong, intAsFloat,
   intAsDouble, longAsFloat, longAsDouble, floatAsDouble, stringAsBytes, bytesAsString]

/-- The number of a kind. -/
def number : Kind → Nat
  | fixed size => 17 + size
  | k => k.ctorIdx

/-- The operand of a kind. -/
def operand (k : Kind) : Int64 := Int64.ofNat k.number

/-- The kind of an operand. -/
def ofOperand? (operand : Int64) : Option Kind :=
  let n := operand.toInt
  if 17 ≤ n then some (fixed (n - 17).toNat)
  else if 0 ≤ n then simple[n.toNat]?
  else none

/-- The kind that reads and delivers a primitive type as it is. -/
def ofPrimitive : Primitive → Kind
  | .null => null
  | .boolean => boolean
  | .int => int
  | .long => long
  | .float => float
  | .double => double
  | .bytes => bytes
  | .string => string

/-- The name in listings. -/
def text : Kind → String
  | null => "null"
  | boolean => "boolean"
  | int => "int"
  | long => "long"
  | float => "float"
  | double => "double"
  | bytes => "bytes"
  | string => "string"
  | unusedLong => "unused_long"
  | intAsLong => "int_as_long"
  | intAsFloat => "int_as_float"
  | intAsDouble => "int_as_double"
  | longAsFloat => "long_as_float"
  | longAsDouble => "long_as_double"
  | floatAsDouble => "float_as_double"
  | stringAsBytes => "string_as_bytes"
  | bytesAsString => "bytes_as_string"
  | fixed size => s!"fixed({size})"

end Kind

end Avro
