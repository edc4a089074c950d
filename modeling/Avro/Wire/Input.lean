/-!
# Inputs and their errors

An input is the bytes that are still to come and what happens when a read goes past the last of
them: the input ends, or the device fails with a message of its own. A read that asks for more bytes
than there are consumes what is left before it fails.
-/

namespace Avro

/-- **Why data cannot be decoded.** -/
inductive DecodeError
  /-- The input ends too early. -/
  | unexpectedEnd
  /-- An integer does not fit. -/
  | varintOverflow (width : Nat)
  /-- A truth value that is neither 0 nor 1. -/
  | invalidBoolean (byte : UInt8)
  /-- A length below zero. -/
  | negativeLength (length : Int64)
  /-- A text that is not UTF-8. -/
  | invalidUtf8
  /-- The device failed. -/
  | device (reason : String)
  deriving DecidableEq, Repr, Inhabited

/-- The message. -/
def DecodeError.message : DecodeError → String
  | unexpectedEnd => "unexpected end of input"
  | varintOverflow width => s!"varint does not fit in {width} bits"
  | invalidBoolean byte =>
    "invalid boolean byte 0x" ++
      String.ofList [Nat.digitChar (byte.toNat / 16), Nat.digitChar (byte.toNat % 16)]
  | negativeLength length => s!"negative length {length.toInt}"
  | invalidUtf8 => "string is not valid UTF-8"
  | device reason => reason

/-- **What happens past the last byte.** -/
inductive Ending
  /-- The input ends. -/
  | endOfInput
  /-- The device fails. -/
  | failure (reason : String)
  deriving DecidableEq, Repr, Inhabited

/-- The error of a read past the last byte. -/
def Ending.error : Ending → DecodeError
  | endOfInput => .unexpectedEnd
  | failure reason => .device reason

/-- **An input.** -/
structure Input where
  /-- The bytes to come. -/
  rest : List UInt8
  /-- What happens after them. -/
  ending : Ending
  deriving DecidableEq, Repr, Inhabited

/-- The input of bytes after which the input ends. -/
def Input.ofBytes (bytes : List UInt8) : Input := ⟨bytes, .endOfInput⟩

/-- A computation that reads. -/
abbrev Read (α : Type) := EStateM DecodeError Input α

end Avro
