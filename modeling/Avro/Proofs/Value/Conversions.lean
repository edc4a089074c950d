import Avro.Proofs.Schema.Shapes
import Avro.Value.Default

/-!
# The steps of a conversion

The value of a default is put together from the values of other conversions:
of the items of an array, of the members of an object, of the first branch of
a union, and of the fields of a record. For a field that the JSON leaves out it
is the declared default that is converted.

`Conversion.steps` lists these conversions in the order in which they are made,
and `Conversion.assembled` is what becomes of their values. So a conversion is
a call that makes other calls, up to the first one that fails. A call that
makes calls need not come to an end. `Conversion.within` is what it comes to if
no more calls may be made inside one another than a number says.

`Value.ofDefault` makes these calls. It does so for every way to convert the
fields that are left out (`Conversion.ofDefaultWith_eq`).
-/

namespace Avro

/-- **A conversion of a default**: JSON, and the type whose value it is to
give. -/
structure Conversion where
  /-- The type. -/
  type : TypeExpr
  /-- The JSON. -/
  json : Json

namespace Conversion

/-- **What a conversion goes on with.** -/
inductive Step
  /-- Another conversion. -/
  | part (c : Conversion)
  /-- A field of a record that the JSON leaves out. -/
  | leftOut (r : RecordType) (field : Field)

/-- The step for a field of a record. -/
def fieldStep (r : RecordType) (members : List (String × Json))
    (field : Field) : Step :=
  match Entries.find? field.name members with
  | some j => .part ⟨field.type, j⟩
  | none => .leftOut r field

section

variable (s : Schema)

/-- **The steps of a conversion**, in their order. -/
def steps (c : Conversion) : List Step :=
  match s.shape? c.type, c.json with
  | some (.union (first :: _)), j => [.part ⟨first, j⟩]
  | some (.array items), .array elements =>
    elements.map fun j => .part ⟨items, j⟩
  | some (.map values), .object members =>
    members.map fun m => .part ⟨values, m.2⟩
  | some (.record r), .object members => r.fields.map (fieldStep r members)
  | _, _ => []

/-- **What becomes of the values** of the steps. -/
def assembled (c : Conversion) (values : List Value) : Converted Value :=
  match s.shape? c.type, c.json with
  | some (.union _), j =>
    match values with
    | v :: _ => .ok (.union 0 v)
    | [] => Value.mismatch "empty union" j
  | some (.array _), .array _ => .ok (.array values)
  | some (.map _), .object members =>
    .ok (.map ((members.map (·.1)).zip values))
  | some (.record r), .object _ =>
    .ok (.record ((r.fields.map (·.name)).zip values))
  | _, _ => Value.ofScalarDefault s c.json c.type

/-- The result of a step, by what conversions give and what fields give that
are left out. -/
def Step.result (convert : Conversion → Converted Value)
    (otherwise : RecordType → Field → Converted Value) : Step → Converted Value
  | .part c => convert c
  | .leftOut r field => otherwise r field

/-- **The result of a conversion**, by the results of its steps. The first step
that fails is the last one. -/
def stepped (convert : Conversion → Converted Value)
    (otherwise : RecordType → Field → Converted Value) (c : Conversion) :
    Converted Value := do
  let values ← (c.steps s).mapM (Step.result convert otherwise)
  c.assembled s values

/-- A field that is left out takes its declared default. -/
def declared (convert : Conversion → Converted Value) (r : RecordType)
    (field : Field) : Converted Value :=
  match field.default with
  | none => .error (.missingField r.name.text field.name)
  | some j => convert ⟨field.type, j⟩

/-- **The result of a conversion that makes calls inside one another only to a
depth.** That it is endless says that the depth is not enough. -/
def within : (depth : Nat) → Conversion → Converted Value
  | 0, _ => .error .endless
  | depth + 1, c => c.stepped s (within depth) (declared (within depth))

end

/-! ## The conversion that runs -/

variable {s : Schema}

/-- The type of a union is the union. -/
theorem eq_union {t : TypeExpr} {branches : List TypeExpr}
    (h : s.shape? t = some (.union branches)) : t = .union branches := by
  cases t with
  | union others => exact congrArg _ (Shape.union.inj (Option.some.inj h))
  | named name =>
    rw [Schema.shape?_eq, Option.map_eq_some_iff] at h
    obtain ⟨d, -, hd⟩ := h
    cases d <;> cases hd
  | _ => cases h

section

variable (otherwise : RecordType → Field → Converted Value)

/-- What `Value.ofDefaultWith` gives, fields that are left out being given. -/
def run (s : Schema) (otherwise : RecordType → Field → Converted Value)
    (c : Conversion) : Converted Value :=
  Value.ofDefaultWith s otherwise c.json c.type

/-- Items are converted in their order. -/
theorem ofItems_eq (t : TypeExpr) : ∀ items : List Json,
    Value.ofItems s otherwise items t
      = items.mapM fun j => run s otherwise ⟨t, j⟩
  | [] => by rw [Value.ofItems]; rfl
  | item :: rest => by
    rw [Value.ofItems, ofItems_eq t rest, List.mapM_cons]
    show _ = (Value.ofDefaultWith s otherwise item t >>= _)
    cases Value.ofDefaultWith s otherwise item t with
    | error e => rfl
    | ok v => rfl

/-- Conversions one after another, the values being put under keys. -/
theorem mapM_zip_cons {α : Type} (key : α → String) (f : α → Converted Value)
    (a : α) (rest : List α) :
    ((a :: rest).mapM f).map (((a :: rest).map key).zip ·)
      = match f a with
        | .error e => .error e
        | .ok v =>
          ((rest.mapM f).map ((rest.map key).zip ·)).map ((key a, v) :: ·) := by
  rw [List.mapM_cons]
  cases f a with
  | error e => rfl
  | ok v => cases rest.mapM f <;> rfl

/-- Members are converted in their order. -/
theorem ofEntries_eq (t : TypeExpr) : ∀ members : List (String × Json),
    Value.ofEntries t (Value.conversions s otherwise members)
      = (members.mapM fun m => run s otherwise ⟨t, m.2⟩).map
        ((members.map (·.1)).zip ·)
  | [] => by rw [Value.conversions, Value.ofEntries]; rfl
  | (key, j) :: rest => by
    rw [Value.conversions, Value.ofEntries, ofEntries_eq t rest, mapM_zip_cons]
    rfl

/-- The conversion of a member. -/
theorem find?_conversions (key : String) : ∀ members : List (String × Json),
    Entries.find? key (Value.conversions s otherwise members)
      = (Entries.find? key members).map (Value.ofDefaultWith s otherwise)
  | [] => by rw [Value.conversions]; rfl
  | (k, j) :: rest => by
    rw [Value.conversions, Entries.find?, Entries.find?,
      find?_conversions key rest]
    split <;> rfl

/-- Fields are converted in their order. -/
theorem ofMembers_eq (r : RecordType) (members : List (String × Json)) :
    ∀ fields : List Field,
      Value.ofMembers (otherwise r) (Value.conversions s otherwise members)
          fields
        = (fields.mapM fun field => (fieldStep r members field).result
            (run s otherwise) otherwise).map
          ((fields.map (·.name)).zip ·)
  | [] => by rw [Value.ofMembers]; rfl
  | field :: rest => by
    rw [Value.ofMembers, ofMembers_eq r members rest, mapM_zip_cons,
      find?_conversions, fieldStep]
    cases Entries.find? field.name members <;> rfl

/-- For a union, its first branch is converted. -/
theorem run_union (first : TypeExpr) (rest : List TypeExpr) (j : Json) :
    run s otherwise ⟨.union (first :: rest), j⟩
      = (run s otherwise ⟨first, j⟩).map (.union 0) := by
  cases j <;> rfl

/-- Other types are converted as they are. -/
theorem run_eq {t : TypeExpr} (h : t.isUnion = false) (j : Json) :
    run s otherwise ⟨t, j⟩ = match j with
      | .array items =>
        match s.shape? t with
        | some (.array type) =>
          (Value.ofItems s otherwise items type).map .array
        | _ => Value.ofScalarDefault s (.array items) t
      | .object members =>
        match s.shape? t with
        | some (.map type) =>
          (Value.ofEntries type
            (Value.conversions s otherwise members)).map .map
        | some (.record r) =>
          (Value.ofMembers (otherwise r) (Value.conversions s otherwise members)
            r.fields).map .record
        | _ => Value.ofScalarDefault s (.object members) t
      | j => Value.ofScalarDefault s j t := by
  cases t with
  | union _ => cases h
  | _ => cases j <;> rfl

/-- **`Value.ofDefaultWith` makes the steps of a conversion.** -/
theorem ofDefaultWith_eq (c : Conversion) :
    run s otherwise c = c.stepped s (run s otherwise) otherwise := by
  obtain ⟨t, j⟩ := c
  cases ht : t.isUnion with
  | true =>
    obtain ⟨branches, rfl⟩ := TypeExpr.isUnion_iff.mp ht
    cases branches with
    | nil => cases j <;> rfl
    | cons first rest =>
      rw [run_union]
      show _ = ([Step.part ⟨first, j⟩].mapM _ >>= _)
      rw [List.mapM_cons, List.mapM_nil]
      dsimp only [Step.result]
      cases run s otherwise ⟨first, j⟩ <;> rfl
  | false =>
    have hunion : ∀ branches, s.shape? t ≠ some (.union branches) := by
      rintro branches h
      rw [eq_union h] at ht
      cases ht
    rw [run_eq otherwise ht]
    unfold stepped steps assembled
    dsimp only
    cases hs : s.shape? t with
    | none => cases j <;> rfl
    | some shape =>
      cases shape with
      | union branches => exact absurd hs (hunion branches)
      | array type =>
        cases j with
        | array items =>
          dsimp only
          rw [ofItems_eq, List.mapM_map]
          rfl
        | _ => rfl
      | map type =>
        cases j with
        | object members =>
          dsimp only
          rw [ofEntries_eq, List.mapM_map]
          show _ = (members.mapM fun m => run s otherwise ⟨type, m.2⟩) >>= _
          cases members.mapM fun m => run s otherwise ⟨type, m.2⟩ <;> rfl
        | _ => rfl
      | record r =>
        cases j with
        | object members =>
          dsimp only
          rw [ofMembers_eq, List.mapM_map]
          show _ = (r.fields.mapM fun field =>
            (fieldStep r members field).result (run s otherwise) otherwise) >>= _
          cases r.fields.mapM fun field =>
            (fieldStep r members field).result (run s otherwise) otherwise <;>
              rfl
        | _ => rfl
      | _ => cases j <;> rfl

end

end Conversion

end Avro
