import Avro.Proofs.Schema.Shapes
import Avro.Proofs.Value.Conformity

/-!
# Defaults are values of their types

A default that is converted gives a value of the type that it is converted to
(`Value.ofDefault_conforms`), a symbol in it is given by its first position, and
every union in it is of its first branch (`Value.ofDefault_firstBranches`). The
entries of a map value are sorted because the members of the JSON object are; so
the statements are about JSON whose objects are sorted (`Json.Ordered`), which
is what reading gives.

Both are properties that a value has if its parts have them
(`Value.Composes`), and it is said once that defaults have such a property.
-/

namespace Avro

/-- A result that is mapped comes from a result. -/
theorem exists_of_map_ok {ε α β : Type} {f : α → β} {b : β} :
    ∀ {x : Except ε α}, x.map f = .ok b → ∃ a, x = .ok a ∧ f a = b
  | .error _, h => absurd h (by simp [Except.map])
  | .ok a, h => ⟨a, rfl, Except.ok.inj h⟩

/-- A result that is one of success. -/
theorem toOption_eq_some {ε α : Type} {a : α} :
    ∀ {x : Except ε α}, x.toOption = some a → x = .ok a
  | .error _, h => absurd h nofun
  | .ok _, h => congrArg _ (Option.some.inj h)

/-- **The members of every object are sorted by key**, no key being there
twice. -/
inductive Json.Ordered : Json → Prop
  /-- The literal. -/
  | null : Ordered .null
  /-- A truth value. -/
  | bool (b : Bool) : Ordered (.bool b)
  /-- An integer. -/
  | integer (n : Int) : Ordered (.integer n)
  /-- A number. -/
  | double (x : Binary64) : Ordered (.double x)
  /-- A string. -/
  | string (s : String) : Ordered (.string s)
  /-- Items. -/
  | array {items : List Json} : (∀ j ∈ items, Ordered j) →
    Ordered (.array items)
  /-- Members. -/
  | object {members : List (String × Json)} : Entries.Sorted members →
    (∀ m ∈ members, Ordered m.2) → Ordered (.object members)

/-- The default of a field is ordered. -/
def Field.Ordered (field : Field) : Prop :=
  ∀ j, field.default = some j → j.Ordered

/-- The defaults of the fields of a schema's records are ordered. -/
def Schema.Ordered (s : Schema) : Prop :=
  ∀ r, .record r ∈ s.definitions → ∀ field ∈ r.fields, field.Ordered

namespace Value

variable {s : Schema}

/-! ## Types without parts -/

/-- A primitive's default is of its type. -/
theorem primitiveOfJson?_conforms {p : Primitive} {j : Json} {v : Value}
    (h : primitiveOfJson? p j = some v) :
    v.ConformsFirst s (.primitive p) := by
  cases p with
  | null =>
    cases j <;> simp only [primitiveOfJson?, Option.some.injEq] at h <;>
      first
      | (subst h; exact .null)
      | exact absurd h (by simp)
  | boolean =>
    cases j <;> simp only [primitiveOfJson?, Option.some.injEq] at h <;>
      first
      | (subst h; exact .boolean _)
      | exact absurd h (by simp)
  | int =>
    cases j with
    | integer n =>
      simp only [primitiveOfJson?] at h
      split at h
      · obtain rfl := Option.some.inj h
        exact .int _
      · exact absurd h (by simp)
    | _ => simp [primitiveOfJson?] at h
  | long =>
    obtain ⟨n, _, rfl⟩ := Option.map_eq_some_iff.mp
      (show j.int64?.map long = some v by rwa [primitiveOfJson?] at h)
    exact .long n
  | float =>
    obtain ⟨x, _, rfl⟩ := Option.map_eq_some_iff.mp
      (show (j.double?.map fun x => float x.narrow) = some v by
        rwa [primitiveOfJson?] at h)
    exact .float _
  | double =>
    obtain ⟨x, _, rfl⟩ := Option.map_eq_some_iff.mp
      (show j.double?.map double = some v by rwa [primitiveOfJson?] at h)
    exact .double x
  | bytes =>
    obtain ⟨b, _, rfl⟩ := Option.map_eq_some_iff.mp
      (show (bytesOfJson? j).map bytes = some v by
        rwa [primitiveOfJson?] at h)
    exact .bytes b
  | string =>
    cases j <;> simp only [primitiveOfJson?, Option.some.injEq] at h <;>
      first
      | (subst h; exact .string _)
      | exact absurd h (by simp)

/-- **The default of a type without parts is of the type.** -/
theorem ofScalarDefault_conforms {j : Json} {t : TypeExpr} {v : Value}
    (h : ofScalarDefault s j t = .ok v) : v.ConformsFirst s t := by
  unfold ofScalarDefault at h
  cases hs : s.shape? t with
  | none => simp [hs] at h
  | some shape =>
    simp only [hs] at h
    cases shape with
    | primitive p =>
      obtain rfl : t = .primitive p := by
        cases t with
        | named name =>
          rw [Schema.shape?] at hs
          split at hs <;> simp at hs
        | _ => simp_all [Schema.shape?]
      dsimp only at h
      split at h
      · rename_i hv
        obtain rfl := Except.ok.inj h
        exact primitiveOfJson?_conforms hv
      · exact absurd h (by simp [mismatch])
    | enum e =>
      obtain ⟨rfl, he⟩ := Schema.shape?_named (d := .enum e) hs
      cases j with
      | string symbol =>
        dsimp only at h
        split at h
        · rename_i hindex
          obtain rfl := Except.ok.inj h
          exact .enum he hindex
        · exact absurd h (by simp [mismatch])
      | _ => exact absurd h (by simp [mismatch])
    | fixed f =>
      obtain ⟨rfl, hf⟩ := Schema.shape?_named (d := .fixed f) hs
      dsimp only at h
      split at h
      · split at h
        · rename_i hsize
          obtain rfl := Except.ok.inj h
          exact .fixed hf hsize
        · exact absurd h (by simp [mismatch])
      · exact absurd h (by simp [mismatch])
    | _ => exact absurd h (by simp [mismatch])

/-! ## Values that are put together -/

variable {P : Value → TypeExpr → Prop}

variable (s P) in
/-- **A property that values of types have by their parts.** Values of types
without parts have it, and so does a value that a conversion puts together from
values that have it. -/
structure Composes : Prop where
  /-- A value of a type without parts. -/
  scalar : ∀ {j : Json} {t : TypeExpr} {v : Value},
    ofScalarDefault s j t = .ok v → P v t
  /-- A value of the first branch. -/
  union : ∀ {first : TypeExpr} {rest : List TypeExpr} {v : Value},
    P v first → P (.union 0 v) (.union (first :: rest))
  /-- Items of one type. -/
  array : ∀ {items : List Value} {t : TypeExpr},
    (∀ v ∈ items, P v t) → P (.array items) (.array t)
  /-- Entries of one type, sorted by key. -/
  map : ∀ {entries : List (String × Value)} {t : TypeExpr},
    Entries.Sorted entries → (∀ x ∈ entries, P x.2 t) →
    P (.map entries) (.map t)
  /-- The fields of a record, in its order. -/
  record : ∀ {name : FullName} {r : RecordType}
    {fields : List (String × Value)},
    s.definition? name = some (.record r) →
    fields.map (·.1) = r.fields.map (·.name) →
    (∀ x ∈ fields.zip r.fields, P x.1.2 x.2.type) →
    P (.record fields) (.named name)

variable (P) in
/-- A conversion gives values of a type that have a property. -/
def Converts (convert : TypeExpr → Converted Value) : Prop :=
  ∀ t v, convert t = .ok v → P v t

/-- The first branch of a union is converted for the union. -/
theorem atFirstBranch_converts (hP : Composes s P) {empty : Converted Value}
    {leaf : TypeExpr → Converted Value} (hempty : ∀ v, empty ≠ .ok v)
    (hleaf : Converts P leaf) : Converts P (TypeExpr.atFirstBranch empty leaf)
  | .union [], v, h => by
    rw [TypeExpr.atFirstBranch] at h
    exact absurd h (hempty v)
  | .union (first :: rest), v, h => by
    rw [TypeExpr.atFirstBranch] at h
    obtain ⟨v', hv', rfl⟩ := exists_of_map_ok h
    exact hP.union (atFirstBranch_converts hP hempty hleaf first v' hv')
  | .primitive p, v, h => hleaf _ v (by rwa [TypeExpr.atFirstBranch] at h <;> nofun)
  | .array items, v, h => hleaf _ v (by rwa [TypeExpr.atFirstBranch] at h <;> nofun)
  | .map values, v, h => hleaf _ v (by rwa [TypeExpr.atFirstBranch] at h <;> nofun)
  | .named name, v, h => hleaf _ v (by rwa [TypeExpr.atFirstBranch] at h <;> nofun)

/-- **Entries are converted** one by one, under their keys. -/
theorem ofEntries_converts {values : TypeExpr} :
    ∀ {conversions : List (String × (TypeExpr → Converted Value))}
      {entries : List (String × Value)},
      (∀ c ∈ conversions, Converts P c.2) →
      ofEntries values conversions = .ok entries →
      entries.map (·.1) = conversions.map (·.1)
        ∧ ∀ x ∈ entries, P x.2 values
  | [], entries, _, h => by
    rw [ofEntries] at h
    obtain rfl := Except.ok.inj h
    exact ⟨rfl, nofun⟩
  | (key, convert) :: rest, entries, hconverts, h => by
    rw [ofEntries] at h
    cases hv : convert values with
    | error e => simp [hv] at h
    | ok v =>
      simp only [hv] at h
      obtain ⟨others, hothers, rfl⟩ := exists_of_map_ok h
      obtain ⟨hkeys, hparts⟩ := ofEntries_converts
        (fun c hc => hconverts c (List.mem_cons_of_mem _ hc)) hothers
      refine ⟨by rw [List.map_cons, hkeys, List.map_cons], fun x hx => ?_⟩
      rcases List.mem_cons.mp hx with rfl | hx
      · exact hconverts _ List.mem_cons_self values v hv
      · exact hparts x hx

/-- **The fields of a record are converted** in its order. -/
theorem ofMembers_converts {otherwise : Field → Converted Value}
    {members : List (String × (TypeExpr → Converted Value))}
    (hmembers : ∀ c ∈ members, Converts P c.2) :
    ∀ {fields : List Field} {values : List (String × Value)},
      (∀ field ∈ fields, ∀ v, otherwise field = .ok v →
        P v field.type) →
      ofMembers otherwise members fields = .ok values →
      values.map (·.1) = fields.map (·.name)
        ∧ ∀ x ∈ values.zip fields, P x.1.2 x.2.type
  | [], values, _, h => by
    rw [ofMembers] at h
    obtain rfl := Except.ok.inj h
    exact ⟨rfl, by simp⟩
  | field :: rest, values, hotherwise, h => by
    rw [ofMembers] at h
    split at h
    · exact absurd h (by simp)
    · rename_i v hv
      obtain ⟨others, hothers, rfl⟩ := exists_of_map_ok h
      have hconverted : P v field.type := by
        cases hc : Entries.find? field.name members with
        | some convert =>
          rw [hc] at hv
          exact hmembers _ (Entries.mem_of_find? hc) _ v hv
        | none =>
          rw [hc] at hv
          exact hotherwise field List.mem_cons_self v hv
      obtain ⟨hnames, hparts⟩ := ofMembers_converts hmembers
        (fun f hf => hotherwise f (List.mem_cons_of_mem _ hf)) hothers
      refine ⟨by rw [List.map_cons, hnames, List.map_cons], fun x hx => ?_⟩
      rw [List.zip_cons_cons] at hx
      rcases List.mem_cons.mp hx with rfl | hx
      · exact hconverted
      · exact hparts x hx

section

variable {otherwise : RecordType → Field → Converted Value}

/-- The keys of conversions are those of the members. -/
theorem map_fst_conversions : ∀ members : List (String × Json),
    (conversions s otherwise members).map (·.1) = members.map (·.1)
  | [] => by rw [conversions]; rfl
  | (key, j) :: rest => by
    rw [conversions, List.map_cons, map_fst_conversions rest, List.map_cons]

variable (s P otherwise) in
/-- What is meant for the fields that a record leaves out. -/
def ConvertsOthers : Prop :=
  ∀ r, s.definition? r.name = some (.record r) → ∀ field ∈ r.fields,
    ∀ v, otherwise r field = .ok v → P v field.type

mutual

/-- **A conversion of ordered JSON gives values with the property.** -/
theorem ofDefaultWith_converts (hP : Composes s P)
    (hothers : ConvertsOthers s P otherwise) :
    ∀ {j : Json}, j.Ordered → Converts P (ofDefaultWith s otherwise j)
  | .array items, hj, t, v, h => by
    rw [ofDefaultWith] at h
    refine atFirstBranch_converts hP (by simp [mismatch]) (fun t v h => ?_) t v h
    cases hj with
    | array hitems =>
      split at h
      · rename_i hs
        obtain ⟨values, hvalues, rfl⟩ := exists_of_map_ok h
        cases t with
        | array type =>
          obtain rfl := Shape.array.inj (Option.some.inj hs)
          exact hP.array (ofItems_converts hP hothers hitems hvalues)
        | named name =>
          rw [Schema.shape?] at hs
          split at hs <;> simp at hs
        | _ => simp [Schema.shape?] at hs
      · exact hP.scalar h
  | .object members, hj, t, v, h => by
    rw [ofDefaultWith] at h
    refine atFirstBranch_converts hP (by simp [mismatch]) (fun t v h => ?_) t v h
    cases hj with
    | object hsorted hmembers =>
      have hconversions := conversions_converts hP hothers hmembers
      split at h
      · rename_i hs
        obtain ⟨entries, hentries, rfl⟩ := exists_of_map_ok h
        obtain ⟨hkeys, hparts⟩ := ofEntries_converts hconversions hentries
        rw [map_fst_conversions] at hkeys
        have hsorted' : Entries.Sorted entries := by
          unfold Entries.Sorted
          rw [hkeys]
          exact hsorted
        cases t with
        | map type =>
          obtain rfl := Shape.map.inj (Option.some.inj hs)
          exact hP.map hsorted' hparts
        | named name =>
          rw [Schema.shape?] at hs
          split at hs <;> simp at hs
        | _ => simp [Schema.shape?] at hs
      · rename_i r hs
        obtain ⟨rfl, hr⟩ := Schema.shape?_named (d := .record r) hs
        obtain ⟨fields, hfields, rfl⟩ := exists_of_map_ok h
        obtain ⟨hnames, hparts⟩ := ofMembers_converts hconversions
          (hothers r hr) hfields
        exact hP.record hr hnames hparts
      · exact hP.scalar h
  | .null, _, t, v, h | .bool _, _, t, v, h | .integer _, _, t, v, h
  | .double _, _, t, v, h | .string _, _, t, v, h => by
    rw [ofDefaultWith] at h
    · exact atFirstBranch_converts hP (by simp [mismatch])
        (fun _ _ => hP.scalar) t v h
    all_goals nofun

/-- Items are converted one by one. -/
theorem ofItems_converts (hP : Composes s P)
    (hothers : ConvertsOthers s P otherwise)
    {type : TypeExpr} :
    ∀ {items : List Json} {values : List Value}, (∀ j ∈ items, j.Ordered) →
      ofItems s otherwise items type = .ok values →
      ∀ v ∈ values, P v type
  | [], values, _, h => by
    rw [ofItems] at h
    obtain rfl := Except.ok.inj h
    exact nofun
  | item :: rest, values, hitems, h => by
    rw [ofItems] at h
    cases hv : ofDefaultWith s otherwise item type with
    | error e => simp [hv] at h
    | ok v =>
      simp only [hv] at h
      obtain ⟨others, hvalues, rfl⟩ := exists_of_map_ok h
      intro x hx
      rcases List.mem_cons.mp hx with rfl | hx
      · exact ofDefaultWith_converts hP hothers (hitems item List.mem_cons_self)
          type x hv
      · exact ofItems_converts hP hothers
          (fun j hj => hitems j (List.mem_cons_of_mem _ hj)) hvalues x hx

/-- Every member is converted. -/
theorem conversions_converts (hP : Composes s P)
    (hothers : ConvertsOthers s P otherwise) :
    ∀ {members : List (String × Json)}, (∀ m ∈ members, m.2.Ordered) →
      ∀ c ∈ conversions s otherwise members, Converts P c.2
  | [], _, c, hc => by
    rw [conversions] at hc
    exact absurd hc List.not_mem_nil
  | (key, j) :: rest, hmembers, c, hc => by
    rw [conversions] at hc
    rcases List.mem_cons.mp hc with rfl | hc
    · exact ofDefaultWith_converts hP hothers
        (hmembers _ List.mem_cons_self)
    · exact conversions_converts hP hothers
        (fun m hm => hmembers m (List.mem_cons_of_mem _ hm)) c hc

end

end

/-- Defaults of fields that a record leaves out have the property. -/
theorem restarted_converts (hP : Composes s P) (hs : s.Ordered) :
    ∀ nested, ConvertsOthers s P (restarted s nested)
  | nested, r, hr, field, hfield, v, h => by
    have hfieldOrdered := hs r (List.mem_of_find?_eq_some hr) field hfield
    cases hj : field.default with
    | none => simp [restarted, hj] at h
    | some j =>
      cases nested with
      | zero => simp [restarted, hj] at h
      | succ nested =>
        simp only [restarted, hj] at h
        exact ofDefaultWith_converts hP (restarted_converts hP hs nested)
          (hfieldOrdered j hj) field.type v h

/-- **A default has every property that values have by their parts.** -/
theorem Composes.ofDefault (hP : Composes s P) (hs : s.Ordered) {j : Json}
    (hj : j.Ordered) {t : TypeExpr} {v : Value} (h : ofDefault s t j = .ok v) :
    P v t :=
  ofDefaultWith_converts hP (restarted_converts hP hs _) hj t v h

/-! ## What defaults are -/

/-- Being of a type is such a property. -/
theorem composes_conformsFirst : Composes s (ConformsFirst s) where
  scalar := ofScalarDefault_conforms
  union := .union rfl
  array := .array
  map := .map
  record := .record

/-- **A default is a value of its type.** -/
theorem ofDefault_conforms (hs : s.Ordered) {j : Json} (hj : j.Ordered)
    {t : TypeExpr} {v : Value} (h : ofDefault s t j = .ok v) :
    v.ConformsFirst s t :=
  composes_conformsFirst.ofDefault hs hj h

/-- **A part of a value**: the value itself, or a part of a value in it. -/
inductive Part (u : Value) : Value → Prop
  /-- The value itself. -/
  | self : Part u u
  /-- A part of the value of a field. -/
  | field {fields : List (String × Value)} {x : String × Value}
    (mem : x ∈ fields) (h : Part u x.2) : Part u (.record fields)
  /-- A part of an item. -/
  | item {items : List Value} {v : Value} (mem : v ∈ items) (h : Part u v) :
    Part u (.array items)
  /-- A part of the value of an entry. -/
  | entry {entries : List (String × Value)} {x : String × Value}
    (mem : x ∈ entries) (h : Part u x.2) : Part u (.map entries)
  /-- A part of the value of a branch. -/
  | branch {index : Nat} {v : Value} (h : Part u v) : Part u (.union index v)

/-- **Every union in a value is of its first branch.** -/
def FirstBranches (v : Value) : Prop :=
  ∀ index inner, Part (.union index inner) v → index = 0

/-- The default of a type without parts has no union in it. -/
theorem firstBranches_ofScalarDefault {j : Json} {t : TypeExpr} {v : Value}
    (h : ofScalarDefault s j t = .ok v) : v.FirstBranches := by
  intro index inner hpart
  have hv : v.ConformsFirst s t := ofScalarDefault_conforms h
  cases hv with
  | record hd =>
    rw [ofScalarDefault, Schema.shape?_eq, hd] at h
    exact absurd h nofun
  | array | map | union => exact absurd h nofun
  | null | boolean | int | long | float | double | bytes | string | enum
  | fixed => cases hpart

/-- Being of first branches is a property that values have by their parts. -/
theorem composes_firstBranches : Composes s fun v _ => v.FirstBranches where
  scalar := firstBranches_ofScalarDefault
  union h index inner hpart := by
    cases hpart with
    | self => rfl
    | branch hpart => exact h index inner hpart
  array h index inner hpart := by
    cases hpart with
    | item mem hpart => exact h _ mem index inner hpart
  map _ h index inner hpart := by
    cases hpart with
    | entry mem hpart => exact h _ mem index inner hpart
  record {name r fields} _ hnames h index inner hpart := by
    cases hpart with
    | @field _ x mem hpart =>
      obtain ⟨position, hlt, rfl⟩ := List.mem_iff_getElem.mp mem
      have hlt' : position < r.fields.length := by
        rwa [← List.length_map (·.name), ← hnames, List.length_map]
      have hmem : (fields[position], r.fields[position])
          ∈ fields.zip r.fields := by
        refine List.mem_iff_getElem.mpr ⟨position, ?_, List.getElem_zip⟩
        rw [List.length_zip]
        exact Nat.lt_min.mpr ⟨hlt, hlt'⟩
      exact h _ hmem index inner hpart

/-- **Every union in a default is of its first branch.** -/
theorem ofDefault_firstBranches (hs : s.Ordered) {j : Json} (hj : j.Ordered)
    {t : TypeExpr} {v : Value} (h : ofDefault s t j = .ok v) :
    v.FirstBranches :=
  composes_firstBranches.ofDefault hs hj h

end Value

end Avro
