import Avro.Binary.Format

/-!
# Single and double precision numbers

A floating-point number is its bit pattern. Equality of patterns (`=`) tells every two numbers
apart, `0.0` from `-0.0` and one quiet pattern from another; numeric equality (`equals`) identifies
the zeros and makes a pattern that is not a number differ from everything, itself included.

The conversions between widths and from integers round to nearest, ties to even.
-/

namespace Avro

/-- **A double precision number.** -/
structure Binary64 where
  /-- The bit pattern. -/
  bits : UInt64
  deriving DecidableEq, Repr, Inhabited

/-- **A single precision number.** -/
structure Binary32 where
  /-- The bit pattern. -/
  bits : UInt32
  deriving DecidableEq, Repr, Inhabited

namespace Binary64

/-- Whether the sign bit is set. -/
def negative (x : Binary64) : Bool := Format.double.signBit ≤ x.bits.toNat

/-- The pattern without its sign. -/
def magnitude (x : Binary64) : Nat := x.bits.toNat % Format.double.signBit

/-- What the pattern without its sign stands for. -/
def reading (x : Binary64) : Format.Reading := Format.double.read x.magnitude

/-- The number with a given sign and pattern. -/
def ofMagnitude (negative : Bool) (magnitude : Nat) : Binary64 :=
  ⟨UInt64.ofNat (if negative then Format.double.signBit + magnitude else magnitude)⟩

/-- The number nearest to `num / den`, with the given sign. -/
def ofRatio (negative : Bool) (num den : Nat) : Binary64 :=
  ofMagnitude negative (Format.double.nearest num den)

/-- The number nearest to an integer. -/
def ofInt (n : Int) : Binary64 := ofRatio (n < 0) n.natAbs 1

/-- Whether the pattern is not a number. -/
def isNaN (x : Binary64) : Bool := Format.double.infinity < x.magnitude

/-- Whether the number is infinite. -/
def isInfinite (x : Binary64) : Bool := x.magnitude = Format.double.infinity

/-- Whether the number is a zero of either sign. -/
def isZero (x : Binary64) : Bool := x.magnitude = 0

/-- The number with its sign turned. -/
def neg (x : Binary64) : Binary64 := ofMagnitude (!x.negative) x.magnitude

/-- The product of two finite numbers, rounded. -/
def mul (x y : Binary64) : Binary64 :=
  match x.reading, y.reading with
  | .finite m p, .finite n q =>
    let (a, b) := Format.ratio m p
    let (c, d) := Format.ratio n q
    ofRatio (x.negative != y.negative) (a * c) (b * d)
  | _, _ => x

/-- The quotient of two finite numbers, the second not zero, rounded. -/
def div (x y : Binary64) : Binary64 :=
  match x.reading, y.reading with
  | .finite m p, .finite n q =>
    let (a, b) := Format.ratio m p
    let (c, d) := Format.ratio n q
    ofRatio (x.negative != y.negative) (a * d) (b * c)
  | _, _ => x

/-- **Numeric equality**: the zeros are equal, and what is not a number equals nothing. -/
def equals (x y : Binary64) : Bool :=
  !x.isNaN && !y.isNaN && (x.bits = y.bits || (x.isZero && y.isZero))

/-- The eight bytes of the pattern, least significant first. -/
def toBytes (x : Binary64) : List UInt8 :=
  (List.range 8).map fun i => UInt8.ofNat (x.bits.toNat / Nat.pow 256 i)

/-- The number whose pattern the bytes spell, least significant first. -/
def ofBytes (bytes : List UInt8) : Binary64 :=
  ⟨UInt64.ofNat (bytes.foldr (fun b rest => b.toNat + 256 * rest) 0)⟩

/-- The single precision number nearest to a double. What is not a number stays so and is quiet. -/
def narrow (x : Binary64) : Binary32 :=
  let pattern : Nat :=
    match x.reading with
    | .nan => Format.single.infinity + 0x400000 + x.magnitude / 0x20000000 % 0x400000
    | .infinite => Format.single.infinity
    | .finite m q =>
      let (num, den) := Format.ratio m q
      Format.single.nearest num den
  ⟨UInt32.ofNat (if x.negative then Format.single.signBit + pattern else pattern)⟩

end Binary64

namespace Binary32

/-- Whether the sign bit is set. -/
def negative (x : Binary32) : Bool := Format.single.signBit ≤ x.bits.toNat

/-- The pattern without its sign. -/
def magnitude (x : Binary32) : Nat := x.bits.toNat % Format.single.signBit

/-- What the pattern without its sign stands for. -/
def reading (x : Binary32) : Format.Reading := Format.single.read x.magnitude

/-- The number with a given sign and pattern. -/
def ofMagnitude (negative : Bool) (magnitude : Nat) : Binary32 :=
  ⟨UInt32.ofNat (if negative then Format.single.signBit + magnitude else magnitude)⟩

/-- The number nearest to an integer. -/
def ofInt (n : Int) : Binary32 := ofMagnitude (n < 0) (Format.single.nearest n.natAbs 1)

/-- Whether the pattern is not a number. -/
def isNaN (x : Binary32) : Bool := Format.single.infinity < x.magnitude

/-- Whether the number is a zero of either sign. -/
def isZero (x : Binary32) : Bool := x.magnitude = 0

/-- **Numeric equality**: the zeros are equal, and what is not a number equals nothing. -/
def equals (x y : Binary32) : Bool :=
  !x.isNaN && !y.isNaN && (x.bits = y.bits || (x.isZero && y.isZero))

/-- The four bytes of the pattern, least significant first. -/
def toBytes (x : Binary32) : List UInt8 :=
  (List.range 4).map fun i => UInt8.ofNat (x.bits.toNat / Nat.pow 256 i)

/-- The number whose pattern the bytes spell, least significant first. -/
def ofBytes (bytes : List UInt8) : Binary32 :=
  ⟨UInt32.ofNat (bytes.foldr (fun b rest => b.toNat + 256 * rest) 0)⟩

/-- The double precision number of the same value. What is not a number stays so and is quiet. -/
def widen (x : Binary32) : Binary64 :=
  let pattern : Nat :=
    match x.reading with
    | .nan => Format.double.infinity + 0x8000000000000 + x.magnitude % 0x400000 * 0x20000000
    | .infinite => Format.double.infinity
    | .finite m q =>
      let (num, den) := Format.ratio m q
      Format.double.nearest num den
  Binary64.ofMagnitude x.negative pattern

end Binary32

end Avro
