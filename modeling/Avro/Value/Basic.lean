import Avro.Binary.Basic
import Avro.Entries

/-!
# Values

A datum read or to be written, independent of any type of a host program. Bytes and fixed values
are lists of bytes; a map's entries are sorted by key, one per key. An enum value carries the
position of its symbol *and* the symbol; which of the two counts depends on the direction: encoding
goes by the symbol, decoding produces both.

Two notions of equality matter. `=` tells every two bit patterns of floating-point numbers apart.
`Value.equals` compares numbers as numbers, so the two zeros are equal and what is not a number
differs from itself.
-/

namespace Avro

/-- **A value.** -/
inductive Value
  /-- The null value. -/
  | null
  /-- A truth value. -/
  | boolean (b : Bool)
  /-- A 32-bit integer. -/
  | int (n : Int32)
  /-- A 64-bit integer. -/
  | long (n : Int64)
  /-- A single precision number. -/
  | float (x : Binary32)
  /-- A double precision number. -/
  | double (x : Binary64)
  /-- A byte string. -/
  | bytes (b : List UInt8)
  /-- A text. -/
  | string (s : String)
  /-- Named fields in the order of the record. -/
  | record (fields : List (String × Value))
  /-- A symbol and its position. -/
  | enum (index : Nat) (symbol : String)
  /-- A byte string of a fixed size. -/
  | fixed (b : List UInt8)
  /-- A sequence. -/
  | array (items : List Value)
  /-- Entries sorted by key. -/
  | map (entries : List (String × Value))
  /-- A value of one branch of a union. -/
  | union (index : Nat) (value : Value)
  deriving Repr, Inhabited

namespace Value

/-- The word for the kind of a value. -/
def kind : Value → String
  | null => "null"
  | boolean _ => "boolean"
  | int _ => "int"
  | long _ => "long"
  | float _ => "float"
  | double _ => "double"
  | bytes _ => "bytes"
  | string _ => "string"
  | record _ => "record"
  | enum _ _ => "enum"
  | fixed _ => "fixed"
  | array _ => "array"
  | map _ => "map"
  | union _ _ => "union"

/-- The value of the first field of a given name; only records have fields. -/
def field? (v : Value) (name : String) : Option Value :=
  match v with
  | record fields => Entries.find? name fields
  | _ => none

mutual

/-- **Equality with numbers compared as numbers.** -/
def equals : Value → Value → Bool
  | null, null => true
  | boolean a, boolean b => a = b
  | int a, int b => a = b
  | long a, long b => a = b
  | float a, float b => a.equals b
  | double a, double b => a.equals b
  | bytes a, bytes b => a = b
  | string a, string b => a = b
  | record a, record b => equalsPairs a b
  | enum i a, enum j b => i = j && a = b
  | fixed a, fixed b => a = b
  | array a, array b => equalsItems a b
  | map a, map b => equalsPairs a b
  | union i a, union j b => i = j && equals a b
  | _, _ => false

/-- Equality of sequences. -/
def equalsItems : List Value → List Value → Bool
  | [], [] => true
  | a :: as, b :: bs => equals a b && equalsItems as bs
  | _, _ => false

/-- Equality of fields or entries, in order. -/
def equalsPairs : List (String × Value) → List (String × Value) → Bool
  | [], [] => true
  | (k, a) :: as, (l, b) :: bs => k = l && equals a b && equalsPairs as bs
  | _, _ => false

end

end Value

end Avro
