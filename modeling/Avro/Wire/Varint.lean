/-!
# Variable-length integers

Integers are written *zigzag*, so that numbers of small magnitude are small naturals: `0, -1, 1, -2`
become `0, 1, 2, 3`. A natural is written in base 128, least significant digit first, one digit per
byte, and every byte but the last has its high bit set.

Writing gives the shortest form. Reading also takes forms padded with zero digits, as far as the
width allows; it lives in `Avro.Wire.Read`, because it consumes input.
-/

namespace Avro

namespace Wire

/-- The natural that stands for an integer. -/
def zigzag (n : Int) : Nat := if 0 ≤ n then 2 * n.toNat else 2 * (-n).toNat - 1

/-- The integer that a natural stands for. -/
def unzigzag (n : Nat) : Int := if n % 2 = 0 then (n / 2 : Nat) else -((n / 2 : Nat) : Int) - 1

/-- The base-128 digits of a natural, of which there are at most `more + 1`. -/
def digits : (more : Nat) → Nat → List UInt8
  | 0, n => [UInt8.ofNat n]
  | more + 1, n =>
    if n < 128 then [UInt8.ofNat n] else UInt8.ofNat (n % 128 + 128) :: digits more (n / 128)

/-- **The shortest form of a natural** below `2 ^ 64`: at most ten bytes. -/
def varint (n : Nat) : List UInt8 := digits 9 n

/-- Zigzag loses nothing. -/
@[simp] theorem unzigzag_zigzag (n : Int) : unzigzag (zigzag n) = n := by
  unfold unzigzag zigzag
  split <;> split <;> omega

/-- Every natural is the zigzag image of the integer it stands for. -/
@[simp] theorem zigzag_unzigzag (n : Nat) : zigzag (unzigzag n) = n := by
  unfold unzigzag zigzag
  split <;> split <;> omega

end Wire

end Avro
