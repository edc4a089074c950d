import Avro.Name

/-!
# Type expressions

Anonymous types – primitives, arrays, maps and unions – are written where they are used. A named
type appears only by its full name and is looked up in the schema's table, so a type expression is
a finite tree even when the types it speaks of are recursive.
-/

namespace Avro

/-- **The primitive types.** -/
inductive Primitive
  | null | boolean | int | long | float | double | bytes | string
  deriving DecidableEq, Repr, Inhabited

namespace Primitive

/-- Every primitive, in the order of the declaration. -/
def all : List Primitive := [null, boolean, int, long, float, double, bytes, string]

/-- The name a schema document uses. -/
def name : Primitive → String
  | null => "null"
  | boolean => "boolean"
  | int => "int"
  | long => "long"
  | float => "float"
  | double => "double"
  | bytes => "bytes"
  | string => "string"

/-- The primitive of a given name. -/
def ofName? (text : String) : Option Primitive := all.find? (·.name = text)

/-- **Promotion**: data written as the first type can be read as the second. An `int` widens to
every other number, a `long` to both floating types, a `float` to a `double`, and strings and bytes
read as each other. -/
def promotesTo : Primitive → Primitive → Bool
  | int, long | int, float | int, double => true
  | long, float | long, double => true
  | float, double => true
  | string, bytes | bytes, string => true
  | w, r => w = r

theorem mem_all (p : Primitive) : p ∈ all := by cases p <;> decide

@[simp] theorem ofName?_name (p : Primitive) : ofName? p.name = some p := by
  cases p <;> decide

@[simp] theorem promotesTo_self (p : Primitive) : p.promotesTo p = true := by
  cases p <;> rfl

end Primitive

/-- **A type expression.** -/
inductive TypeExpr
  /-- A primitive type. -/
  | primitive (p : Primitive)
  /-- A sequence of items of one type. -/
  | array (items : TypeExpr)
  /-- String keys with values of one type. -/
  | map (values : TypeExpr)
  /-- A choice among branches, numbered from 0. -/
  | union (branches : List TypeExpr)
  /-- A record, enum or fixed, by its full name. -/
  | named (name : FullName)
  deriving Repr, Inhabited

namespace TypeExpr

mutual

/-- Structural equality of type expressions. -/
def decEq : (a b : TypeExpr) → Decidable (a = b)
  | primitive p, primitive q =>
    if h : p = q then isTrue (by rw [h]) else isFalse (by intro e; injection e; contradiction)
  | array a, array b =>
    match decEq a b with
    | isTrue h => isTrue (by rw [h])
    | isFalse h => isFalse (by intro e; injection e; contradiction)
  | map a, map b =>
    match decEq a b with
    | isTrue h => isTrue (by rw [h])
    | isFalse h => isFalse (by intro e; injection e; contradiction)
  | union as, union bs =>
    match decEqList as bs with
    | isTrue h => isTrue (by rw [h])
    | isFalse h => isFalse (by intro e; injection e; contradiction)
  | named m, named n =>
    if h : m = n then isTrue (by rw [h]) else isFalse (by intro e; injection e; contradiction)
  | primitive _, array _ | primitive _, map _ | primitive _, union _ | primitive _, named _
  | array _, primitive _ | array _, map _ | array _, union _ | array _, named _
  | map _, primitive _ | map _, array _ | map _, union _ | map _, named _
  | union _, primitive _ | union _, array _ | union _, map _ | union _, named _
  | named _, primitive _ | named _, array _ | named _, map _ | named _, union _ =>
    isFalse (by intro e; injection e)

/-- Structural equality of branch lists. -/
def decEqList : (as bs : List TypeExpr) → Decidable (as = bs)
  | [], [] => isTrue rfl
  | a :: as, b :: bs =>
    match decEq a b, decEqList as bs with
    | isTrue h, isTrue hs => isTrue (by rw [h, hs])
    | isFalse h, _ => isFalse (by intro e; injection e; contradiction)
    | _, isFalse hs => isFalse (by intro e; injection e; contradiction)
  | [], _ :: _ | _ :: _, [] => isFalse (by intro e; injection e)

end

instance : DecidableEq TypeExpr := decEq

/-- Whether the type is the primitive `null`. -/
def isNull : TypeExpr → Bool
  | primitive .null => true
  | _ => false

/-- Whether the type is a union. -/
def isUnion : TypeExpr → Bool
  | union _ => true
  | _ => false

mutual

/-- The written form used in messages: `array<int>`, `union[null, a.B]`. -/
def text : TypeExpr → String
  | primitive p => p.name
  | array items => "array<" ++ items.text ++ ">"
  | map values => "map<" ++ values.text ++ ">"
  | union branches => "union[" ++ ", ".intercalate (texts branches) ++ "]"
  | named n => n.text

/-- The written form of each branch. -/
def texts : List TypeExpr → List String
  | [] => []
  | b :: rest => b.text :: texts rest

end

theorem isNull_iff {t : TypeExpr} : t.isNull = true ↔ t = primitive .null := by
  cases t with
  | primitive p => cases p <;> simp [isNull]
  | _ => simp [isNull]

end TypeExpr

end Avro
