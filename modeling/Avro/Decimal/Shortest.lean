import Avro.Binary.Format

/-!
# The shortest decimal that reads back

Among the decimals that round to a given binary number, the one to print has the fewest digits and,
of those, lies closest to the number. The decimals that round to it fill an interval: from halfway
to the neighbour below to halfway to the neighbour above, ends included exactly when the
significand is even. The search takes grids of 1, 2, … digits; on each grid only the number's two
neighbours can be the closest point of the interval, and the first grid with a hit wins.

Two hits may be equally close. Which of them is printed is a decision of the printed format, the
`Tie` of its style.
-/

namespace Avro

/-- **A decimal**, `digits * 10 ^ exponent`. -/
structure Decimal where
  /-- The digits, read as a natural. -/
  digits : Nat
  /-- The power of ten they are multiplied by. -/
  exponent : Int
  deriving DecidableEq, Repr, Inhabited

namespace Decimal

/-- Which of two equally close decimals is chosen. -/
inductive Tie
  /-- The one whose last digit is even. -/
  | even
  /-- The greater one. -/
  | up
  deriving DecidableEq, Repr

/-- Moves trailing zeros of the digits into the exponent; `fuel` bounds their number. -/
def strip : Nat → Decimal → Decimal
  | 0, d => d
  | fuel + 1, d =>
    if d.digits ≠ 0 ∧ d.digits % 10 = 0 then strip fuel ⟨d.digits / 10, d.exponent + 1⟩ else d

/-- The number of decimal digits of a natural. -/
def width (n : Nat) : Nat := (Nat.toDigits 10 n).length

/-- The least `k` with `num / den < 10 ^ k`; both are positive. -/
def scale (num den : Nat) : Int :=
  if den ≤ num then width (num / den)
  else
    let k : Nat := width (den / num) - 1
    if num * Nat.pow 10 k < den then -(k : Int) else 1 - (k : Int)

/-- **The interval of a number**: a lower end, the number and an upper end over one denominator,
and whether the ends belong to it. -/
structure Interval where
  /-- Numerator of the lower end. -/
  low : Nat
  /-- Numerator of the number. -/
  value : Nat
  /-- Numerator of the upper end. -/
  high : Nat
  /-- The common denominator. -/
  den : Nat
  /-- Whether the ends round to the number too. -/
  closed : Bool

/-- The reals that round to `significand * 2 ^ exponent` in the format `f`. Just above a power of
two the gap below is half the gap above. -/
def Interval.of (f : Format) (significand : Nat) (exponent : Int) : Interval :=
  let below := if significand = Nat.pow 2 f.fractionBits ∧ f.leastExponent < exponent then 1 else 2
  let (scaled, den) := Format.ratio 1 (exponent - 2)
  { low := (4 * significand - below) * scaled
    value := 4 * significand * scaled
    high := (4 * significand + 2) * scaled
    den := den
    closed := significand % 2 = 0 }

/-- The decimal of `n` digits closest to the number, if one of its two neighbours with that many
digits lies in the interval. -/
def onGrid (tie : Tie) (i : Interval) (k : Int) (n : Nat) : Option Decimal :=
  let place : Int := k - n
  let up := Nat.pow 10 (-place).toNat
  let den := i.den * Nat.pow 10 place.toNat
  let below := i.value * up / den
  let inside (c : Nat) : Bool :=
    if i.closed then i.low * up ≤ c * den ∧ c * den ≤ i.high * up
    else i.low * up < c * den ∧ c * den < i.high * up
  let above := below + 1
  match inside below, inside above with
  | true, false => some ⟨below, place⟩
  | false, true => some ⟨above, place⟩
  | false, false => none
  | true, true =>
    let fromBelow := i.value * up - below * den
    let toAbove := above * den - i.value * up
    if fromBelow < toAbove then some ⟨below, place⟩
    else if toAbove < fromBelow then some ⟨above, place⟩
    else match tie with
      | .even => if below % 2 = 0 then some ⟨below, place⟩ else some ⟨above, place⟩
      | .up => some ⟨above, place⟩

/-- **The shortest decimal that reads back** as `significand * 2 ^ exponent` in the format `f`, for
a positive significand. Seventeen digits always suffice for the formats used here. -/
def shortest (f : Format) (tie : Tie) (significand : Nat) (exponent : Int) : Decimal :=
  let i := Interval.of f significand exponent
  let k := scale i.value i.den
  match (List.range 17).findSome? fun n => onGrid tie i k (n + 1) with
  | some d => strip 17 d
  | none => ⟨i.value / i.den, 0⟩

end Decimal

end Avro
