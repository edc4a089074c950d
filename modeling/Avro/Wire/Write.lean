import Avro.Binary.Basic
import Avro.Text.Span
import Avro.Wire.Varint

/-!
# Writing the wire format

The bytes of each primitive type. Integers take their shortest form, so 32-bit and 64-bit integers
of one value are written alike.
-/

namespace Avro

namespace Wire

/-- The bytes of an integer. -/
def integer (n : Int) : List UInt8 := varint (zigzag n)

/-- The byte of a truth value. -/
def boolean (b : Bool) : List UInt8 := [if b then 1 else 0]

/-- The bytes of a byte string, its length in front. -/
def bytes (b : List UInt8) : List UInt8 := integer b.length ++ b

/-- The bytes of a text, its length in front. -/
def string (s : String) : List UInt8 := bytes (utf8 s)

end Wire

end Avro
