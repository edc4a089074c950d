import Avro.Binary.Basic
import Avro.Wire.Input
import Avro.Wire.Varint

/-!
# Reading the wire format

One reader per primitive type. Integers are zigzag varints of bounded width; floating-point numbers
are their bit patterns, least significant byte first; byte strings and texts have their length in
front, as a long.

A varint of width 64 takes at most ten bytes and one of width 32 at most five. It overflows when a
digit reaches beyond 64 bits, when the natural it spells does not fit in the width, or when the last
byte allowed still has its high bit set.
-/

namespace Avro

namespace Wire

/-- Reads a number of bytes. -/
def take (n : Nat) : Read (List UInt8) := fun input =>
  let taken := input.rest.take n
  if taken.length = n then .ok taken { input with rest := input.rest.drop n }
  else .error input.ending.error { input with rest := [] }

/-- Reads a byte. -/
def byte : Read UInt8 := fun input =>
  match input.rest with
  | b :: rest => .ok b { input with rest }
  | [] => .error input.ending.error input

/-- Reads the digits of a varint from a place on, at most `more` bytes; `value` is what the digits
before it spell. -/
def varintFrom (width : Nat) : (more place value : Nat) → Read Nat
  | 0, _, _ => throw (.varintOverflow width)
  | more + 1, place, value => do
    let b ← byte
    let digit := b.toNat % 128 * Nat.pow 2 place
    if 0x10000000000000000 ≤ digit then throw (.varintOverflow width)
    let value := value + digit
    if 128 ≤ b.toNat then varintFrom width more (place + 7) value
    else if Nat.pow 2 width ≤ value then throw (.varintOverflow width)
    else return value

/-- Reads a 32-bit integer. -/
def readInt : Read Int32 := do return Int32.ofInt (unzigzag (← varintFrom 32 5 0 0))

/-- Reads a 64-bit integer. -/
def readLong : Read Int64 := do return Int64.ofInt (unzigzag (← varintFrom 64 10 0 0))

/-- Reads a truth value. -/
def readBoolean : Read Bool := do
  let b ← byte
  if b = 0 then return false
  else if b = 1 then return true
  else throw (.invalidBoolean b)

/-- Reads a single precision number. -/
def readFloat : Read Binary32 := do return Binary32.ofBytes (← take 4)

/-- Reads a double precision number. -/
def readDouble : Read Binary64 := do return Binary64.ofBytes (← take 8)

/-- Reads a byte string with its length in front. -/
def readBytes : Read (List UInt8) := do
  let length ← readLong
  if length.toInt < 0 then throw (.negativeLength length)
  take length.toInt.toNat

/-- The text of bytes, if they are UTF-8. -/
def textOfBytes? (bytes : List UInt8) : Option String := String.fromUTF8? ⟨bytes.toArray⟩

/-- Reads a text with its length in front. -/
def readString : Read String := do
  match textOfBytes? (← readBytes) with
  | some s => return s
  | none => throw .invalidUtf8

end Wire

end Avro
