import Avro.Decimal.Shortest

/-!
# Writing decimals

A decimal is written **plain**, with a point and at least one digit after it, or **scientific**,
with one digit before the point and an exponent. Where the one ends and the other begins, whether a
positive exponent has a sign, and which of two equally close decimals is taken are the decisions of
a `Style`; every printed format of the library states its own.
-/

namespace Avro

namespace Decimal

/-- **How a format writes finite numbers.** -/
structure Style where
  /-- The least power of ten of the first digit that is still written plain. -/
  leastPlain : Int
  /-- The greatest power of ten of the first digit that is still written plain. -/
  mostPlain : Int
  /-- Whether a positive exponent has a plus sign. -/
  signed : Bool
  /-- Which of two equally close decimals is written. -/
  tie : Tie
  deriving DecidableEq, Repr

/-- The text of a positive decimal in a style. -/
def write (style : Style) (d : Decimal) : String :=
  let digits := Nat.toDigits 10 d.digits
  let n := digits.length
  let first : Int := d.exponent + n - 1
  let zeros (k : Nat) : List Char := List.replicate k '0'
  if style.leastPlain ≤ first ∧ first ≤ style.mostPlain then
    if first < 0 then String.ofList ('0' :: '.' :: (zeros (-first - 1).toNat ++ digits))
    else
      let whole := first.toNat + 1
      if n ≤ whole then String.ofList (digits ++ zeros (whole - n) ++ ['.', '0'])
      else String.ofList (digits.take whole ++ '.' :: digits.drop whole)
  else
    let mantissa :=
      match digits with
      | [] => []
      | [d] => [d]
      | d :: rest => d :: '.' :: rest
    let sign := if first < 0 then "-" else if style.signed then "+" else ""
    String.ofList mantissa ++ "e" ++ sign ++ toString first.natAbs

/-- The text of the number with the given sign and value `significand * 2 ^ exponent`. -/
def writeBinary (style : Style) (f : Format) (negative : Bool) (significand : Nat)
    (exponent : Int) : String :=
  let sign := if negative then "-" else ""
  if significand = 0 then sign ++ "0.0"
  else sign ++ (shortest f style.tie significand exponent).write style

end Decimal

end Avro
