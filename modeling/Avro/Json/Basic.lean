import Avro.Binary.Basic
import Avro.Entries

/-!
# JSON values

A JSON value as a schema document holds it. Numbers are of two sorts: an integer that fits in 64
bits, signed or unsigned, stays an integer, and every other number is a double. The members of an
object are entries sorted by key, so two objects with the same members are equal whatever their
written order was.
-/

namespace Avro

/-- **A JSON value.** -/
inductive Json
  /-- The literal `null`. -/
  | null
  /-- A truth value. -/
  | bool (b : Bool)
  /-- An integer between `-2 ^ 63` and `2 ^ 64 - 1`. -/
  | integer (n : Int)
  /-- A number that is not such an integer. -/
  | double (x : Binary64)
  /-- A string. -/
  | string (s : String)
  /-- A list of values. -/
  | array (items : List Json)
  /-- Members sorted by key, one per key. -/
  | object (members : List (String × Json))
  deriving Repr, Inhabited

namespace Json

mutual

/-- The number of levels of a value: 1 for a value without parts. -/
def depth : Json → Nat
  | array items => depthItems items + 1
  | object members => depthMembers members + 1
  | _ => 1

/-- The greatest number of levels among items. -/
def depthItems : List Json → Nat
  | [] => 0
  | item :: rest => max item.depth (depthItems rest)

/-- The greatest number of levels among members. -/
def depthMembers : List (String × Json) → Nat
  | [] => 0
  | (_, value) :: rest => max value.depth (depthMembers rest)

end

/-- The text of a string value. -/
def string? : Json → Option String
  | string s => some s
  | _ => none

/-- The value of an integer that fits in 64 signed bits. -/
def int64? : Json → Option Int64
  | integer n => if n < 0x8000000000000000 then some (Int64.ofInt n) else none
  | _ => none

/-- The value of an integer that is not negative. -/
def nat? : Json → Option Nat
  | integer n => if 0 ≤ n then some n.toNat else none
  | _ => none

/-- The value of any number, integers rounded to double precision. -/
def double? : Json → Option Binary64
  | integer n => some (Binary64.ofInt n)
  | double x => some x
  | _ => none

end Json

end Avro
