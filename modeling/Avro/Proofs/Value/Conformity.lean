import Avro.Proofs.Value.Entries
import Avro.Text.Span
import Avro.Value.Default

/-!
# Values of a type

`Value.Conforms` says that a value is one of a type: of the right kind at
every place, the fields of a record in the order of its definition, a branch
or symbol that exists, a fixed value of its size, and the entries of a map
sorted by key. It is a relation by the value's own constructors, so it is
inverted and used for induction like them.

A symbol that an enum declares twice has two positions. The relation is
therefore made for a meaning of positions (`Value.ConformsBy`), of which two
matter: the symbol of the position (`Value.Conforms`), and the first position
of the symbol (`Value.ConformsFirst`), which is what decoding gives.

## What can be numbered

Lengths, positions and addresses are 64-bit integers, symbols of an enum are
written as 32-bit integers, and the size of a fixed shares its operand with
seventeen other kinds. `Schema.Fits` and `Value.Fits` say that schemas and
values stay inside. What is in memory always does but for the last two.
-/

namespace Avro

namespace Value

section

variable (P : EnumType → Nat → String → Prop) (s : Schema)

/-- **A value is one of a type**, if positions of symbols mean what is
given. -/
inductive ConformsBy : Value → TypeExpr → Prop
  /-- The null value. -/
  | null : ConformsBy .null (.primitive .null)
  /-- A truth value. -/
  | boolean (b : Bool) : ConformsBy (.boolean b) (.primitive .boolean)
  /-- A 32-bit integer. -/
  | int (n : Int32) : ConformsBy (.int n) (.primitive .int)
  /-- A 64-bit integer. -/
  | long (n : Int64) : ConformsBy (.long n) (.primitive .long)
  /-- A single precision number. -/
  | float (x : Binary32) : ConformsBy (.float x) (.primitive .float)
  /-- A double precision number. -/
  | double (x : Binary64) : ConformsBy (.double x) (.primitive .double)
  /-- A byte string. -/
  | bytes (b : List UInt8) : ConformsBy (.bytes b) (.primitive .bytes)
  /-- A text. -/
  | string (x : String) : ConformsBy (.string x) (.primitive .string)
  /-- The fields of a record, in its order. -/
  | record {name : FullName} {r : RecordType}
    {fields : List (String × Value)} :
    s.definition? name = some (.record r) →
    fields.map (·.1) = r.fields.map (·.name) →
    (∀ x ∈ fields.zip r.fields, ConformsBy x.1.2 x.2.type) →
    ConformsBy (.record fields) (.named name)
  /-- A symbol at its position. -/
  | enum {name : FullName} {e : EnumType} {index : Nat} {symbol : String} :
    s.definition? name = some (.enum e) → P e index symbol →
    ConformsBy (.enum index symbol) (.named name)
  /-- A byte string of the declared size. -/
  | fixed {name : FullName} {f : FixedType} {b : List UInt8} :
    s.definition? name = some (.fixed f) → b.length = f.size →
    ConformsBy (.fixed b) (.named name)
  /-- Items of one type. -/
  | array {items : List Value} {t : TypeExpr} :
    (∀ v ∈ items, ConformsBy v t) → ConformsBy (.array items) (.array t)
  /-- Entries of one type, sorted by key. -/
  | map {entries : List (String × Value)} {t : TypeExpr} :
    Entries.Sorted entries → (∀ x ∈ entries, ConformsBy x.2 t) →
    ConformsBy (.map entries) (.map t)
  /-- A value of a branch. -/
  | union {branches : List TypeExpr} {branch : TypeExpr} {index : Nat}
    {v : Value} : branches[index]? = some branch → ConformsBy v branch →
    ConformsBy (.union index v) (.union branches)

/-- **A value of a type**: every symbol stands at its position. -/
def Conforms : Value → TypeExpr → Prop :=
  ConformsBy (fun e index symbol => e.symbols[index]? = some symbol) s

/-- A value of a type in which every symbol is given by its first
position. -/
def ConformsFirst : Value → TypeExpr → Prop :=
  ConformsBy (fun e index symbol => e.symbolIndex? symbol = some index) s

end

variable {P Q : EnumType → Nat → String → Prop} {s : Schema}

/-- Positions that mean less are met by more values, and so are schemas with
more definitions. -/
theorem ConformsBy.transfer {s' : Schema} (hdef : ∀ name d,
      s.definition? name = some d → s'.definition? name = some d)
    (h : ∀ e index symbol, P e index symbol → Q e index symbol) {v : Value}
    {t : TypeExpr} (hv : ConformsBy P s v t) : ConformsBy Q s' v t := by
  induction hv with
  | null => exact .null
  | boolean b => exact .boolean b
  | int n => exact .int n
  | long n => exact .long n
  | float x => exact .float x
  | double x => exact .double x
  | bytes b => exact .bytes b
  | string x => exact .string x
  | record hd hnames _ ih => exact .record (hdef _ _ hd) hnames ih
  | enum hd hsymbol => exact .enum (hdef _ _ hd) (h _ _ _ hsymbol)
  | fixed hd hsize => exact .fixed (hdef _ _ hd) hsize
  | array _ ih => exact .array ih
  | map hsorted _ ih => exact .map hsorted ih
  | union hbranch _ ih => exact .union hbranch ih

/-- Positions that mean less are met by more values. -/
theorem ConformsBy.mono (h : ∀ e index symbol, P e index symbol →
    Q e index symbol) {v : Value} {t : TypeExpr}
    (hv : ConformsBy P s v t) : ConformsBy Q s v t :=
  hv.transfer (fun _ _ => id) h

end Value

/-- The position of a symbol has that symbol. -/
theorem EnumType.symbols_getElem? {e : EnumType} {symbol : String}
    {index : Nat} (h : e.symbolIndex? symbol = some index) :
    e.symbols[index]? = some symbol := by
  obtain ⟨hlt, hsymbol, _⟩ := List.findIdx?_eq_some_iff_getElem.mp h
  rw [List.getElem?_eq_getElem hlt, of_decide_eq_true hsymbol]

/-- A value whose symbols are given by their first positions is a value of the
type. -/
theorem Value.ConformsFirst.conforms {s : Schema} {v : Value} {t : TypeExpr}
    (h : v.ConformsFirst s t) : v.Conforms s t :=
  h.mono fun _ _ _ => EnumType.symbols_getElem?

/-! ## What can be numbered -/

/-- A list has no more elements than can be numbered by 64-bit integers. -/
abbrev Countable {α : Type} (l : List α) : Prop :=
  l.length < 0x8000000000000000

/-- **A value fits in memory**: all its lengths are 64-bit integers. -/
inductive Value.Fits : Value → Prop
  /-- The null value. -/
  | null : Fits .null
  /-- A truth value. -/
  | boolean (b : Bool) : Fits (.boolean b)
  /-- A 32-bit integer. -/
  | int (n : Int32) : Fits (.int n)
  /-- A 64-bit integer. -/
  | long (n : Int64) : Fits (.long n)
  /-- A single precision number. -/
  | float (x : Binary32) : Fits (.float x)
  /-- A double precision number. -/
  | double (x : Binary64) : Fits (.double x)
  /-- A byte string. -/
  | bytes {b : List UInt8} : Countable b → Fits (.bytes b)
  /-- A text. -/
  | string {x : String} : Countable (utf8 x) → Fits (.string x)
  /-- Fields. -/
  | record {fields : List (String × Value)} : (∀ x ∈ fields, Fits x.2) →
    Fits (.record fields)
  /-- A symbol whose position is a 32-bit integer. -/
  | enum {index : Nat} (symbol : String) : index < 0x80000000 →
    Fits (.enum index symbol)
  /-- A byte string of a fixed size. -/
  | fixed (b : List UInt8) : Fits (.fixed b)
  /-- Items. -/
  | array {items : List Value} : Countable items → (∀ v ∈ items, Fits v) →
    Fits (.array items)
  /-- Entries. -/
  | map {entries : List (String × Value)} : Countable entries →
    (∀ x ∈ entries, Countable (utf8 x.1)) → (∀ x ∈ entries, Fits x.2) →
    Fits (.map entries)
  /-- A value of a branch. -/
  | union {index : Nat} {v : Value} : Fits v → Fits (.union index v)

mutual

/-- The branches of the unions in a type can be numbered. -/
def TypeExpr.Fits : TypeExpr → Prop
  | .primitive _ | .named _ => True
  | .array items => items.Fits
  | .map values => values.Fits
  | .union branches => Countable branches ∧ TypeExpr.AllFit branches

/-- The branches of the unions in every type of a list can be numbered. -/
def TypeExpr.AllFit : List TypeExpr → Prop
  | [] => True
  | branch :: rest => branch.Fits ∧ TypeExpr.AllFit rest

end

/-- The fields of a record, the symbols of an enum and the size of a fixed can
be numbered. -/
def Definition.Fits : Definition → Prop
  | record r => Countable r.fields ∧ ∀ field ∈ r.fields, field.type.Fits
  | enum e => Countable e.symbols
  | fixed f => f.size + 17 < 0x8000000000000000

/-- **A schema fits**: whatever its programs number can be numbered. -/
structure Schema.Fits (s : Schema) : Prop where
  /-- The root. -/
  root : s.root.Fits
  /-- The definitions. -/
  definition : ∀ d ∈ s.definitions, d.Fits

/-- A branch of a union that fits fits. -/
theorem TypeExpr.AllFit.getElem? : ∀ {branches : List TypeExpr} {index : Nat}
    {branch : TypeExpr}, AllFit branches → branches[index]? = some branch →
      branch.Fits
  | [], _, _, _, h => absurd h (by simp)
  | _ :: _, 0, _, hfit, h => by
    rw [List.getElem?_cons_zero] at h
    rw [← Option.some.inj h]
    exact hfit.1
  | _ :: _, _ + 1, _, hfit, h => by
    rw [List.getElem?_cons_succ] at h
    exact hfit.2.getElem? h

/-- A definition of a schema that fits fits. -/
theorem Schema.Fits.definition? {s : Schema} (h : s.Fits) {name : FullName}
    {d : Definition} (hd : s.definition? name = some d) : d.Fits :=
  h.definition d (List.mem_of_find?_eq_some hd)

end Avro
