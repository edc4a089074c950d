import Avro.Decimal.Style
import Avro.Text.Quoted
import Avro.Value.Basic

/-!
# Displaying values

The text of a value for people: `{"a": 1, "b": #0(null)}`. Longs end in `L` and floats in `f`, so
that the width of a number shows; bytes are written in hexadecimal; a union value shows the number
of its branch.
-/

namespace Avro

namespace Value

/-- Numbers are plain from `1e-4` to below `1e16` and scientific elsewhere, without a plus sign; a
half goes up. -/
def numberStyle : Decimal.Style := ⟨-4, 15, false, .up⟩

/-- The text of a number with the given sign and reading. -/
def numberText (f : Format) (negative : Bool) : Format.Reading → String
  | .nan => "NaN"
  | .infinite => if negative then "-inf" else "inf"
  | .finite significand exponent =>
    Decimal.writeBinary numberStyle f negative significand exponent

/-- Two hexadecimal digits per byte, each byte after `\x`. -/
def bytesText (b : List UInt8) : String :=
  let escape (byte : UInt8) : List Char :=
    ['\\', 'x', Nat.digitChar (byte.toNat / 16), Nat.digitChar (byte.toNat % 16)]
  "b\"" ++ String.ofList (b.flatMap escape) ++ "\""

mutual

/-- **The display of a value.** -/
def text : Value → String
  | null => "null"
  | boolean b => if b then "true" else "false"
  | int n => toString n.toInt
  | long n => toString n.toInt ++ "L"
  | float x => numberText .single x.negative x.reading ++ "f"
  | double x => numberText .double x.negative x.reading
  | bytes b | fixed b => bytesText b
  | string s => Text.quoted s
  | record fields => "\x7b" ++ ", ".intercalate (textsOfPairs fields) ++ "\x7d"
  | enum _ symbol => symbol
  | array items => "[" ++ ", ".intercalate (texts items) ++ "]"
  | map entries => "map\x7b" ++ ", ".intercalate (textsOfPairs entries) ++ "\x7d"
  | union index value => "#" ++ toString index ++ "(" ++ value.text ++ ")"

/-- The display of each item. -/
def texts : List Value → List String
  | [] => []
  | v :: rest => v.text :: texts rest

/-- The display of each field or entry. -/
def textsOfPairs : List (String × Value) → List String
  | [] => []
  | (key, v) :: rest => (Text.quoted key ++ ": " ++ v.text) :: textsOfPairs rest

end

end Value

end Avro
