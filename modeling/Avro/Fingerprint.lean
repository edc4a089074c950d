import Avro.Schema.Canonical
import Avro.Text.Span

/-!
# Fingerprints

A 64-bit Rabin fingerprint: the remainder of a message, taken as a polynomial over two elements,
by a fixed polynomial. Bits are handled least significant first, so one bit is a shift to the right
that adds the polynomial when the bit shifted out was 1 (`shiftBit`). The fingerprint of bytes is
driven by a table with the effect of eight such shifts on each low byte.
-/

namespace Avro

namespace Fingerprint

/-- The polynomial, which is also the fingerprint of no bytes. -/
def polynomial : UInt64 := 0xc15d213aa4d7a795

/-- Shifts one bit out; a 1 adds the polynomial. -/
def shiftBit (state : UInt64) : UInt64 :=
  (state >>> 1) ^^^ (if state &&& 1 = 1 then polynomial else 0)

/-- Shifts `n` bits out. -/
def shiftBits : (n : Nat) → UInt64 → UInt64
  | 0, state => state
  | n + 1, state => shiftBits n (shiftBit state)

/-- The effect of eight shifts on each byte. -/
def table : Vector UInt64 256 := Vector.ofFn fun i => shiftBits 8 i.val.toUInt64

/-- Takes one byte in: its table entry, and the other bytes of the state moved down. -/
def step (state : UInt64) (byte : UInt8) : UInt64 :=
  (state >>> 8) ^^^ table.get ⟨(state ^^^ byte.toUInt64).toUInt8.toNat, UInt8.toNat_lt _⟩

/-- **The fingerprint of bytes.** -/
def ofBytes (bytes : List UInt8) : UInt64 := bytes.foldl step polynomial

end Fingerprint

/-- **The fingerprint of a schema**: that of the bytes of its canonical form. -/
def Schema.fingerprint (s : Schema) : UInt64 := Fingerprint.ofBytes (utf8 s.canonicalForm)

end Avro
