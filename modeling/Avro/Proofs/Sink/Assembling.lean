import Avro.Proofs.Value.Defaults
import Avro.Sink.Script

/-!
# What a script assembles

A script may open a part again, select another branch, or replace what it has
delivered. `Assembles` says what its steps amount to, for a type: a field of a
record has what it is given last, a union the branch selected last, an array all
items that are opened, and a map for each key the entry that is opened last.
What is assembled is a value of the type (`Assembles.conforms`), and it is the only
one that the steps assemble (`Assembles.unique`).
-/

namespace Avro

/-! ## What steps say -/

/-- **What a record field is given.** -/
inductive Filling
  /-- Its default. -/
  | default
  /-- What it receives after it is opened. -/
  | opened (steps : List SinkStep)

namespace SinkStep

/-- The scalar that a step delivers. -/
def scalar? : SinkStep → Option Scalar
  | .set x => some x
  | _ => none

/-- What a step gives to a field. -/
def filling? (index : Nat) : SinkStep → Option Filling
  | .setDefault i => if i = index then some .default else none
  | .within (.field i) steps => if i = index then some (.opened steps) else none
  | _ => none

/-- The item that a step opens. -/
def item? : SinkStep → Option (List SinkStep)
  | .within .item steps => some steps
  | _ => none

/-- The entry that a step opens. -/
def entry? : SinkStep → Option (String × List SinkStep)
  | .within (.entry key) steps => some (key, steps)
  | _ => none

/-- The branch that a step selects, and what it receives. -/
def branch? : SinkStep → Option (Nat × List SinkStep)
  | .set (.long n) => some (n.toInt.toNat, [])
  | .within (.field i) steps => some (i, steps)
  | _ => none

/-- **What is said last** by some steps. -/
def latest {α : Type} (say : SinkStep → Option α) (steps : List SinkStep) :
    Option α :=
  steps.reverse.findSome? say

/-- **The entry opened last** for a key. -/
def latestEntry (key : String) (steps : List SinkStep) :
    Option (List SinkStep) :=
  Entries.find? key (steps.filterMap entry?).reverse

section

variable {α : Type} {say : SinkStep → Option α} {steps : List SinkStep}
  {step : SinkStep}

theorem latest_concat_of_none (h : say step = none) :
    latest say (steps ++ [step]) = latest say steps := by
  rw [latest, List.reverse_append, List.reverse_singleton,
    List.singleton_append, List.findSome?_cons_of_isNone (h ▸ rfl), latest]

theorem latest_concat_of_some {a : α} (h : say step = some a) :
    latest say (steps ++ [step]) = some a := by
  rw [latest, List.reverse_append, List.reverse_singleton,
    List.singleton_append, List.findSome?_cons_of_isSome (h ▸ rfl), h]

theorem filterMap_concat_of_none (h : say step = none) :
    (steps ++ [step]).filterMap say = steps.filterMap say := by
  rw [List.filterMap_append, List.filterMap_cons_none h, List.filterMap_nil,
    List.append_nil]

theorem filterMap_concat_of_some {a : α} (h : say step = some a) :
    (steps ++ [step]).filterMap say = steps.filterMap say ++ [a] := by
  rw [List.filterMap_append, List.filterMap_cons_some h, List.filterMap_nil]

end

/-- **A step is idle** if it says nothing about a value. -/
structure Idle (step : SinkStep) : Prop where
  /-- It delivers no scalar. -/
  scalar : step.scalar? = none
  /-- It gives nothing to a field. -/
  filling : ∀ index, step.filling? index = none
  /-- It opens no item. -/
  item : step.item? = none
  /-- It opens no entry. -/
  entry : step.entry? = none
  /-- It selects no branch. -/
  branch : step.branch? = none

theorem idle_finalize : Idle .finalize := ⟨rfl, fun _ => rfl, rfl, rfl, rfl⟩

theorem idle_typeName : Idle .typeName := ⟨rfl, fun _ => rfl, rfl, rfl, rfl⟩

end SinkStep

open SinkStep (latest latestEntry)

/-! ## What steps assemble -/

mutual

/-- **Steps assemble a value of a type.** -/
inductive Assembles (s : Schema) : TypeExpr → List SinkStep → Value → Prop
  /-- Nothing is needed for null. -/
  | null {steps : List SinkStep} : Assembles s (.primitive .null) steps .null
  /-- The scalar delivered last. -/
  | primitive {steps : List SinkStep} {x : Scalar} :
    latest SinkStep.scalar? steps = some x →
    Assembles s (.primitive x.primitive) steps x.value
  /-- The symbol at the position delivered last. -/
  | enum {name : FullName} {e : EnumType} {steps : List SinkStep} {n : Int64}
    {index : Nat} {symbol : String} :
    s.definition? name = some (.enum e) →
    latest SinkStep.scalar? steps = some (.long n) → n.toInt = index →
    e.symbols[index]? = some symbol →
    Assembles s (.named name) steps (.enum index symbol)
  /-- The byte string delivered last, of the declared size. -/
  | fixed {name : FullName} {f : FixedType} {steps : List SinkStep}
    {b : List UInt8} :
    s.definition? name = some (.fixed f) →
    latest SinkStep.scalar? steps = some (.bytes b) → b.length = f.size →
    Assembles s (.named name) steps (.fixed b)
  /-- For each field what it is given last. -/
  | record {name : FullName} {r : RecordType} {steps : List SinkStep}
    {fields : List (String × Value)} :
    s.definition? name = some (.record r) →
    fields.map (·.1) = r.fields.map (·.name) →
    (∀ index field x, r.fields[index]? = some field →
      fields[index]? = some x → AssemblesField s field
        (latest (SinkStep.filling? index) steps) x.2) →
    Assembles s (.named name) steps (.record fields)
  /-- All items that are opened. -/
  | array {type : TypeExpr} {steps : List SinkStep} {items : List Value} :
    items.length = (steps.filterMap SinkStep.item?).length →
    (∀ x ∈ (steps.filterMap SinkStep.item?).zip items,
      Assembles s type x.1 x.2) →
    Assembles s (.array type) steps (.array items)
  /-- For each key that is opened the entry opened last. -/
  | map {type : TypeExpr} {steps : List SinkStep}
    {entries : List (String × Value)} :
    Entries.Sorted entries →
    (∀ key, (Entries.find? key entries).isSome
      = (latestEntry key steps).isSome) →
    (∀ key inner v, latestEntry key steps = some inner →
      Entries.find? key entries = some v → Assembles s type inner v) →
    Assembles s (.map type) steps (.map entries)
  /-- The branch selected last, with what it received since then. -/
  | union {branches : List TypeExpr} {type : TypeExpr}
    {steps inner : List SinkStep} {index : Nat} {v : Value} :
    branches[index]? = some type →
    latest SinkStep.branch? steps = some (index, inner) →
    Assembles s type inner v →
    Assembles s (.union branches) steps (.union index v)

/-- **What a field is given assembles its value.** -/
inductive AssemblesField (s : Schema) : Field → Option Filling → Value → Prop
  /-- Nothing is needed for null. -/
  | untouched {field : Field} : field.type = .primitive .null →
    AssemblesField s field none .null
  /-- The default. -/
  | default {field : Field} {j : Json} {v : Value} : field.default = some j →
    Value.ofDefault s field.type j = .ok v →
    AssemblesField s field (some .default) v
  /-- What is delivered after the field is opened. -/
  | opened {field : Field} {inner : List SinkStep} {v : Value} :
    Assembles s field.type inner v →
    AssemblesField s field (some (.opened inner)) v

end

/-- An idle step changes nothing in what is assembled. -/
theorem Assembles.concat_idle {s : Schema} {t : TypeExpr}
    {steps : List SinkStep} {v : Value} (h : Assembles s t steps v)
    {step : SinkStep} (hidle : step.Idle) : Assembles s t (steps ++ [step]) v := by
  have hscalar : latest SinkStep.scalar? (steps ++ [step])
      = latest SinkStep.scalar? steps :=
    SinkStep.latest_concat_of_none hidle.scalar
  cases h with
  | null => exact .null
  | primitive hx => exact .primitive (hscalar.trans hx)
  | enum hd hx hn hsymbol => exact .enum hd (hscalar.trans hx) hn hsymbol
  | fixed hd hx hsize => exact .fixed hd (hscalar.trans hx) hsize
  | record hd hnames hfields =>
    refine .record hd hnames fun index field x hfield hx => ?_
    rw [SinkStep.latest_concat_of_none (hidle.filling index)]
    exact hfields index field x hfield hx
  | array hlength hitems =>
    rw [← SinkStep.filterMap_concat_of_none hidle.item] at hlength hitems
    exact .array hlength hitems
  | map hsorted hkeys hentries =>
    unfold latestEntry at hkeys hentries
    rw [← SinkStep.filterMap_concat_of_none hidle.entry] at hkeys hentries
    exact .map hsorted hkeys hentries
  | union hbranch hlatest hv =>
    exact .union hbranch
      ((SinkStep.latest_concat_of_none hidle.branch).trans hlatest) hv

/-! ## Assembled values are of their types -/

/-- What stands in a list has a partner in one that is no shorter. -/
theorem exists_zip_of_mem_right {α β : Type} {as : List α} {bs : List β}
    (h : bs.length ≤ as.length) {b : β} (hb : b ∈ bs) :
    ∃ a, (a, b) ∈ as.zip bs := by
  rw [← List.map_snd_zip h] at hb
  obtain ⟨⟨a, _⟩, hx, rfl⟩ := List.mem_map.mp hb
  exact ⟨a, hx⟩

mutual

/-- **An assembled value is one of the type.** -/
theorem Assembles.conforms {s : Schema} (hs : s.Ordered) :
    ∀ {t : TypeExpr} {steps : List SinkStep} {v : Value},
      Assembles s t steps v → v.Conforms s t
  | _, _, _, .null => .null
  | _, _, _, .primitive (x := x) _ => by
    cases x <;> constructor
  | _, _, _, .enum hd _ _ hsymbol => .enum hd hsymbol
  | _, _, _, .fixed hd _ hsize => .fixed hd hsize
  | _, _, _, .record hd hnames hfields => by
    refine .record hd hnames fun x hx => ?_
    obtain ⟨index, hindex⟩ := List.mem_iff_getElem?.mp hx
    obtain ⟨hvalue, hfield⟩ := List.getElem?_zip_eq_some.mp hindex
    have hordered := hs _ (List.mem_of_find?_eq_some hd) x.2
      (List.mem_of_getElem? hfield)
    exact (hfields index x.2 x.1 hfield hvalue).conforms hs hordered
  | _, _, _, .array hlength hitems => by
    refine .array fun v hv => ?_
    obtain ⟨inner, hx⟩ := exists_zip_of_mem_right hlength.le hv
    exact (hitems _ hx).conforms hs
  | _, _, _, .map hsorted hkeys hentries => by
    refine .map hsorted fun x hx => ?_
    have hfound : Entries.find? x.1 _ = some x.2 :=
      Entries.find?_of_mem (List.Pairwise.imp ne_of_lt hsorted) hx
    obtain ⟨inner, hinner⟩ := Option.isSome_iff_exists.mp
      ((hkeys x.1).symm.trans (by rw [hfound]; rfl))
    exact (hentries x.1 inner x.2 hinner hfound).conforms hs
  | _, _, _, .union hbranch _ hv => .union hbranch (hv.conforms hs)

/-- What a field is given is of its type. -/
theorem AssemblesField.conforms {s : Schema} (hs : s.Ordered) :
    ∀ {field : Field} {filling : Option Filling} {v : Value},
      AssemblesField s field filling v → field.Ordered →
      v.Conforms s field.type
  | _, _, _, .untouched htype, _ => htype ▸ .null
  | _, _, _, .default hdefault hv, hordered =>
    (Value.ofDefault_conforms hs (hordered _ hdefault) hv).conforms
  | _, _, _, .opened hv, _ => hv.conforms hs

end

/-! ## Steps assemble one value -/

/-- What is assembled for a primitive type. -/
theorem Assembles.of_primitive {s : Schema} {p : Primitive}
    {steps : List SinkStep} {v : Value} (h : Assembles s (.primitive p) steps v) :
    (p = .null ∧ v = .null)
      ∨ ∃ x : Scalar, x.primitive = p ∧ x.value = v
        ∧ latest SinkStep.scalar? steps = some x := by
  cases h with
  | null => exact .inl ⟨rfl, rfl⟩
  | @primitive _ x hx => exact .inr ⟨x, rfl, rfl, hx⟩

/-- Elements of one position are partners. -/
theorem getElem_mem_zip {α β : Type} {as : List α} {bs : List β} {index : Nat}
    (h : index < as.length) (h' : index < bs.length) :
    (as[index], bs[index]) ∈ as.zip bs := by
  have hzip : index < (as.zip bs).length := by
    rw [List.length_zip]
    exact Nat.lt_min.mpr ⟨h, h'⟩
  exact List.getElem_zip (h := hzip) ▸ List.getElem_mem hzip

/-- Fields of one record are the same if their values are. -/
theorem fields_ext : ∀ {declared : List Field}
    {fields fields' : List (String × Value)},
    fields.map (·.1) = declared.map (·.name) →
    fields'.map (·.1) = declared.map (·.name) →
    (∀ (index : Nat) field x x', declared[index]? = some field →
      fields[index]? = some x → fields'[index]? = some x' → x.2 = x'.2) →
    fields = fields'
  | [], [], [], _, _, _ => rfl
  | field :: declared, x :: fields, x' :: fields', hnames, hnames', h => by
    obtain ⟨hname, hnames⟩ := List.cons.inj hnames
    obtain ⟨hname', hnames'⟩ := List.cons.inj hnames'
    have hfirst : x = x' :=
      Prod.ext (hname.trans hname'.symm) (h 0 field x x' rfl rfl rfl)
    rw [hfirst, fields_ext hnames hnames' fun index => h (index + 1)]

/-- No scalar is null. -/
theorem Scalar.primitive_ne_null (x : Scalar) : x.primitive ≠ .null := by
  intro h
  cases x <;> cases h

/-- One value is assembled for a primitive type. -/
theorem Assembles.unique_primitive {s : Schema} {p : Primitive}
    {steps : List SinkStep} {v v' : Value}
    (h : Assembles s (.primitive p) steps v)
    (h' : Assembles s (.primitive p) steps v') : v = v' := by
  rcases h.of_primitive with ⟨hp, rfl⟩ | ⟨x, hp, rfl, hx⟩ <;>
    rcases h'.of_primitive with ⟨hp', rfl⟩ | ⟨x', hp', rfl, hx'⟩
  · rfl
  · exact absurd (hp'.trans hp) x'.primitive_ne_null
  · exact absurd (hp.trans hp') x.primitive_ne_null
  · rw [Option.some.inj (hx.symm.trans hx')]

mutual

/-- **What steps assemble is one value.** -/
theorem Assembles.unique {s : Schema} :
    ∀ {t : TypeExpr} {steps : List SinkStep} {v v' : Value},
      Assembles s t steps v → Assembles s t steps v' → v = v'
  | _, _, _, _, .null, h => Assembles.unique_primitive .null h
  | _, _, _, _, .primitive hx, h => Assembles.unique_primitive (.primitive hx) h
  | _, _, _, _, .enum hd hx hn hsymbol, h => by
    -- The name has one definition, so the value is of its kind.
    cases h with
    | enum hd' hx' hn' hsymbol' =>
      obtain rfl := Definition.enum.inj (Option.some.inj (hd.symm.trans hd'))
      obtain rfl := Scalar.long.inj (Option.some.inj (hx.symm.trans hx'))
      obtain rfl := Int.ofNat.inj (hn.symm.trans hn')
      rw [Option.some.inj (hsymbol.symm.trans hsymbol')]
    | fixed hd' => cases hd.symm.trans hd'
    | record hd' => cases hd.symm.trans hd'
  | _, _, _, _, .fixed hd hx hsize, h => by
    cases h with
    | fixed hd' hx' hsize' =>
      rw [Scalar.bytes.inj (Option.some.inj (hx.symm.trans hx'))]
    | enum hd' => cases hd.symm.trans hd'
    | record hd' => cases hd.symm.trans hd'
  | _, _, _, _, .record hd hnames hfields, h => by
    cases h with
    | record hd' hnames' hfields' =>
      obtain rfl := Definition.record.inj (Option.some.inj (hd.symm.trans hd'))
      exact congrArg Value.record (fields_ext hnames hnames'
        fun index field x x' hfield hx hx' =>
          (hfields index field x hfield hx).unique
            (hfields' index field x' hfield hx'))
    | enum hd' => cases hd.symm.trans hd'
    | fixed hd' => cases hd.symm.trans hd'
  | _, _, _, _, .array hlength hitems, h => by
    cases h with
    | array hlength' hitems' =>
      refine congrArg Value.array (List.ext_getElem
        (hlength.trans hlength'.symm) fun index hv hv' => ?_)
      exact (hitems _ (getElem_mem_zip (hlength ▸ hv) hv)).unique
        (hitems' _ (getElem_mem_zip (hlength ▸ hv) hv'))
  | _, steps, _, _, .map hsorted hkeys hentries, h => by
    cases h with
    | map hsorted' hkeys' hentries' =>
      refine congrArg Value.map (Entries.eq_of_find? hsorted hsorted' fun key => ?_)
      have hkey := hkeys key
      have hkey' := hkeys' key
      cases hlatest : latestEntry key steps with
      | none =>
        rw [hlatest] at hkey hkey'
        exact (Option.not_isSome_iff_eq_none.mp (Bool.eq_false_iff.mp hkey)).trans
          (Option.not_isSome_iff_eq_none.mp (Bool.eq_false_iff.mp hkey')).symm
      | some inner =>
        rw [hlatest] at hkey hkey'
        obtain ⟨v, hv⟩ := Option.isSome_iff_exists.mp hkey
        obtain ⟨v', hv'⟩ := Option.isSome_iff_exists.mp hkey'
        rw [hv, hv', (hentries key inner v hlatest hv).unique
          (hentries' key inner v' hlatest hv')]
  | _, _, _, _, .union hbranch hlatest hv, h => by
    cases h with
    | union hbranch' hlatest' hv' =>
      obtain ⟨rfl, rfl⟩ := Prod.mk.inj
        (Option.some.inj (hlatest.symm.trans hlatest'))
      obtain rfl := Option.some.inj (hbranch.symm.trans hbranch')
      rw [hv.unique hv']

/-- What a field is given assembles one value. -/
theorem AssemblesField.unique {s : Schema} :
    ∀ {field : Field} {filling : Option Filling} {v v' : Value},
      AssemblesField s field filling v → AssemblesField s field filling v' →
      v = v'
  | _, _, _, _, .untouched _, .untouched _ => rfl
  | _, _, _, _, .default hj hv, .default hj' hv' => by
    obtain rfl := Option.some.inj (hj.symm.trans hj')
    exact Except.ok.inj (hv.symm.trans hv')
  | _, _, _, _, .opened hv, .opened hv' => hv.unique hv'

end

end Avro
