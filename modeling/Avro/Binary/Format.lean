/-!
# Binary floating-point formats

A format is two widths: the bits of the fraction and the bits of the exponent. Its numbers without
their sign are the naturals below `2 ^ (fraction + exponent)`, read as bit patterns, and their order
as naturals is their order as numbers. Rounding (`Format.nearest`) is therefore a function from
ratios of naturals to naturals: it finds the last place in which the ratio is written, rounds the
quotient there to the nearest whole number with ties to even, and the carry into the next exponent
is the carry of the addition.

Everything is exact arithmetic on `Nat` and `Int`; no machine float takes part.
-/

namespace Avro

/-- **A binary floating-point format**, by the widths of its two fields. -/
structure Format where
  /-- Width of the fraction field. -/
  fractionBits : Nat
  /-- Width of the exponent field. -/
  exponentBits : Nat
  deriving DecidableEq, Repr

/-- The quotient of two naturals, rounded to the nearest natural; a tie goes to the even one. -/
def roundHalfEven (num den : Nat) : Nat :=
  let quotient := num / den
  let rest := num % den
  if 2 * rest < den then quotient
  else if den < 2 * rest then quotient + 1
  else if quotient % 2 = 0 then quotient
  else quotient + 1

/-- The exponent of the greatest power of two not above `num / den`; both are positive. -/
def floorLog2 (num den : Nat) : Int :=
  let e : Int := (num.log2 : Int) - (den.log2 : Int)
  let reached : Bool :=
    if 0 ≤ e then den * Nat.pow 2 e.toNat ≤ num else den ≤ num * Nat.pow 2 (-e).toNat
  if reached then e else e - 1

namespace Format

/-- Single precision: 23 bits of fraction and 8 of exponent. -/
def single : Format := ⟨23, 8⟩

/-- Double precision: 52 bits of fraction and 11 of exponent. -/
def double : Format := ⟨52, 11⟩

/-- The pattern of positive infinity; greater patterns are not numbers. -/
def infinity (f : Format) : Nat := (Nat.pow 2 f.exponentBits - 1) * Nat.pow 2 f.fractionBits

/-- The pattern of the sign bit alone. -/
def signBit (f : Format) : Nat := Nat.pow 2 (f.fractionBits + f.exponentBits)

/-- The exponent of the last place of the smallest numbers. -/
def leastExponent (f : Format) : Int := 2 - (Nat.pow 2 (f.exponentBits - 1) : Nat) - f.fractionBits

/-- **What a pattern without its sign stands for.** -/
inductive Reading
  /-- Not a number. -/
  | nan
  /-- Infinity. -/
  | infinite
  /-- The number `significand * 2 ^ exponent`. -/
  | finite (significand : Nat) (exponent : Int)
  deriving DecidableEq, Repr

/-- Reads a pattern without its sign. -/
def read (f : Format) (magnitude : Nat) : Reading :=
  let field := magnitude / Nat.pow 2 f.fractionBits
  let fraction := magnitude % Nat.pow 2 f.fractionBits
  if field = Nat.pow 2 f.exponentBits - 1 then
    if fraction = 0 then .infinite else .nan
  else if field = 0 then .finite fraction f.leastExponent
  else .finite (fraction + Nat.pow 2 f.fractionBits) (f.leastExponent + field - 1)

/-- **Rounding to nearest, ties to even**: the pattern of the number closest to `num / den`, which
is infinity from half a last place above the greatest number on. The denominator is positive. -/
def nearest (f : Format) (num den : Nat) : Nat :=
  if num = 0 then 0
  else
    let place := max (floorLog2 num den - f.fractionBits) f.leastExponent
    let significand :=
      if 0 ≤ place then roundHalfEven num (den * Nat.pow 2 place.toNat)
      else roundHalfEven (num * Nat.pow 2 (-place).toNat) den
    min ((place - f.leastExponent).toNat * Nat.pow 2 f.fractionBits + significand) f.infinity

/-- The number `significand * 2 ^ exponent` as a ratio of naturals. -/
def ratio (significand : Nat) (exponent : Int) : Nat × Nat :=
  if 0 ≤ exponent then (significand * Nat.pow 2 exponent.toNat, 1)
  else (significand, Nat.pow 2 (-exponent).toNat)

end Format

end Avro
