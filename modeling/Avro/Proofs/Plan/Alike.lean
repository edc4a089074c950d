import Avro.Proofs.Plan.Demands
import Avro.Proofs.Schema.CanonicalForm

/-!
# What compiling sees of a writer's schema

Compiling sees no aliases, no defaults and no documentation of a writer's
schema, nor the order of its definitions: schemas that are alike are compiled
to one program, or fail with one error (`compile_eq_of_alike`).

Every function that plans asks a writer's schema for the definition of a name
only, and what it does with the definition is the same for two that are the
same when stripped (`Schema.AlikeAt`). So plans are equal, and with them the
bodies of methods. Names of records are in one order or another; only their
number matters, to the number of methods that are linked inside one another.
-/

namespace Avro

variable {writer writer' reader : Schema}

/-! ## Looking up a name -/

namespace Schema

variable (writer writer') in
/-- **Two schemas are alike at a name.** -/
inductive AlikeAt (name : FullName) : Prop
  /-- It has no definition. -/
  | none (h : writer.definition? name = none)
    (h' : writer'.definition? name = none)
  /-- It is a record, with fields of the same names and types. -/
  | record {r r' : RecordType} (h : writer.definition? name = some (.record r))
    (h' : writer'.definition? name = some (.record r'))
    (hname : r.name = r'.name)
    (hfields : r.fields.map Field.stripped = r'.fields.map Field.stripped)
  /-- It is an enum, with the same symbols. -/
  | enum {e e' : EnumType} (h : writer.definition? name = some (.enum e))
    (h' : writer'.definition? name = some (.enum e'))
    (hname : e.name = e'.name) (hsymbols : e.symbols = e'.symbols)
  /-- It is a fixed, of the same size. -/
  | fixed {f f' : FixedType} (h : writer.definition? name = some (.fixed f))
    (h' : writer'.definition? name = some (.fixed f'))
    (hname : f.name = f'.name) (hsize : f.size = f'.size)

/-- Alike schemas are alike at every name. -/
theorem Alike.at (h : writer.Alike writer') (name : FullName) :
    AlikeAt writer writer' name := by
  have hsame := h.definition name
  cases hd : writer.definition? name with
  | none =>
    rw [hd] at hsame
    exact .none hd (Option.map_eq_none_iff.mp hsame.symm)
  | some d =>
    rw [hd] at hsame
    obtain ⟨d', hd', hstripped⟩ := Option.map_eq_some_iff.mp hsame.symm
    cases d with
    | record r =>
      cases d' with
      | record r' =>
        obtain ⟨hname, -, hfields, -⟩ :=
          RecordType.mk.inj (Definition.record.inj hstripped)
        exact .record hd hd' hname.symm hfields.symm
      | enum e' => exact Definition.noConfusion hstripped
      | fixed f' => exact Definition.noConfusion hstripped
    | enum e =>
      cases d' with
      | record r' => exact Definition.noConfusion hstripped
      | enum e' =>
        obtain ⟨hname, -, hsymbols, -⟩ :=
          EnumType.mk.inj (Definition.enum.inj hstripped)
        exact .enum hd hd' hname.symm hsymbols.symm
      | fixed f' => exact Definition.noConfusion hstripped
    | fixed f =>
      cases d' with
      | record r' => exact Definition.noConfusion hstripped
      | enum e' => exact Definition.noConfusion hstripped
      | fixed f' =>
        obtain ⟨hname, -, hsize⟩ :=
          FixedType.mk.inj (Definition.fixed.inj hstripped)
        exact .fixed hd hd' hname.symm hsize.symm

namespace Alike

/-! ## Compatibility -/

theorem readableName (h : writer.Alike writer') (w r : FullName) :
    writer.readableName w reader r = writer'.readableName w reader r := by
  unfold Schema.readableName
  cases h.at w with
  | none hw hw' => rw [hw, hw']
  | record hw hw' hname hfields =>
    rw [hw, hw']
    cases reader.definition? r with
    | none => rfl
    | some d => cases d <;> simp only [hname]
  | enum hw hw' hname hsymbols =>
    rw [hw, hw']
    cases reader.definition? r with
    | none => rfl
    | some d => cases d <;> simp only [hname]
  | fixed hw hw' hname hsize =>
    rw [hw, hw']
    cases reader.definition? r with
    | none => rfl
    | some d => cases d <;> simp only [hname, hsize]

mutual

theorem readable (h : writer.Alike writer') : ∀ t r : TypeExpr,
    writer.readable t reader r = writer'.readable t reader r
  | .primitive _, _ => rfl
  | .array items, r => by
    simp only [Schema.readable, readable h items]
  | .map values, r => by
    simp only [Schema.readable, readable h values]
  | .union branches, r => readableSome h branches r
  | .named name, r => by
    simp only [Schema.readable, h.readableName]

theorem readableSome (h : writer.Alike writer') :
    ∀ (branches : List TypeExpr) (r : TypeExpr),
      writer.readableSome branches reader r
        = writer'.readableSome branches reader r
  | [], _ => rfl
  | branch :: rest, r => by
    simp only [Schema.readableSome, readable h branch, readableSome h rest]

end

theorem exact (h : writer.Alike writer') : ∀ t r : TypeExpr,
    writer.exact t reader r = writer'.exact t reader r
  | .primitive _, r => by cases r <;> rfl
  | .array items, r => by
    cases r with
    | array items' => simp only [Schema.exact, exact h items items']
    | _ => rfl
  | .map values, r => by
    cases r with
    | map values' => simp only [Schema.exact, exact h values values']
    | _ => rfl
  | .union _, r => by cases r <;> rfl
  | .named name, r => by
    cases r with
    | named name' =>
      simp only [Schema.exact]
      cases h.at name with
      | none hw hw' => rw [hw, hw']
      | record hw hw' hname hfields =>
        rw [hw, hw']
        cases reader.definition? name' <;> rfl
      | enum hw hw' hname hsymbols =>
        rw [hw, hw']
        cases reader.definition? name' <;> rfl
      | fixed hw hw' hname hsize =>
        rw [hw, hw']
        cases reader.definition? name' <;> rfl
    | _ => rfl

theorem branchFor? (h : writer.Alike writer') (t : TypeExpr) :
    writer.branchFor? t reader = writer'.branchFor? t reader := by
  funext branches
  simp only [Schema.branchFor?, h.exact, h.readable]

end Alike

end Schema

namespace Plan

open Schema (Alike)

/-! ## Plans -/

mutual

theorem discard_alike (h : writer.Alike writer') :
    ∀ (t : TypeExpr) (label : String),
      discard writer t label = discard writer' t label
  | .primitive p, label => by cases p <;> rfl
  | .array items, label => by
    rw [discard, discard, discard_alike h items]
  | .map values, label => by
    rw [discard, discard, discard_alike h values]
  | .union branches, label => by
    rw [discard, discard, discardCases_alike h 0 branches]
  | .named name, label => by
    rw [discard, discard, Schema.shape?_eq, Schema.shape?_eq]
    cases h.at name with
    | none hw hw' => rw [hw, hw']
    | record hw hw' hname hfields =>
      rw [hw, hw']
      exact congrArg (fun n => Code.call (Demand.discard n)) hname
    | enum hw hw' hname hsymbols => rw [hw, hw']; rfl
    | fixed hw hw' hname hsize =>
      rw [hw, hw']
      exact congrArg (fun n => read (.fixed n) label) hsize

theorem discardCases_alike (h : writer.Alike writer') {label : String} :
    ∀ (tag : Nat) (branches : List TypeExpr),
      discardCases writer label tag branches
        = discardCases writer' label tag branches
  | _, [] => rfl
  | tag, branch :: rest => by
    rw [discardCases, discardCases, discard_alike h branch,
      discardCases_alike h (tag + 1) rest]

end

theorem deliverEnum_alike {w w' : EnumType} (hname : w.name = w'.name)
    (hsymbols : w.symbols = w'.symbols) (r : EnumType) (label : String) :
    deliverEnum w r label = deliverEnum w' r label := by
  simp only [deliverEnum, hname, hsymbols]

theorem deliverFixed_alike {w w' : FixedType} (hsize : w.size = w'.size)
    (r : FixedType) (label : String) :
    deliverFixed w r label = deliverFixed w' r label := by
  simp only [deliverFixed, hsize]

theorem deliverNamed_alike (h : writer.Alike writer') (w : FullName)
    (r : TypeExpr) (label : String) :
    deliverNamed writer w reader r label
      = deliverNamed writer' w reader r label := by
  unfold deliverNamed
  rw [Schema.shape?, Schema.shape?]
  cases h.at w with
  | none hw hw' => rw [hw, hw']
  | record hw hw' hname hfields =>
    rw [hw, hw']
    cases reader.shape? r with
    | none => rfl
    | some shape => cases shape <;> simp only [hname]
  | enum hw hw' hname hsymbols =>
    rw [hw, hw']
    cases reader.shape? r with
    | none => rfl
    | some shape =>
      cases shape <;> simp only [hname, deliverEnum_alike hname hsymbols]
  | fixed hw hw' hname hsize =>
    rw [hw, hw']
    cases reader.shape? r with
    | none => rfl
    | some shape =>
      cases shape <;> simp only [hname, deliverFixed_alike hsize]

mutual

theorem deliver_alike (h : writer.Alike writer') :
    ∀ (t r : TypeExpr) (label : String),
      deliver writer t reader r label = deliver writer' t reader r label
  | .primitive p, r, label => by
    rw [deliver, deliver, h.branchFor?]
  | .array items, r, label => by
    rw [deliver, deliver, h.branchFor?]
    simp only [deliver_alike h items]
  | .map values, r, label => by
    rw [deliver, deliver, h.branchFor?]
    simp only [deliver_alike h values]
  | .union branches, r, label => by
    rw [deliver, deliver]
    simp only [branchCases_alike h label 0 branches]
  | .named name, r, label => by
    rw [deliver, deliver, h.branchFor?]
    simp only [deliverNamed_alike h]
    rw [Schema.shape?_eq, Schema.shape?_eq]
    cases h.at name with
    | none hw hw' => rw [hw, hw']
    | record hw hw' hname hfields => rw [hw, hw']; rfl
    | enum hw hw' hname hsymbols => rw [hw, hw']; rfl
    | fixed hw hw' hname hsize => rw [hw, hw']; rfl

theorem branchCases_alike (h : writer.Alike writer') :
    ∀ (label : String) (tag : Nat) (branches : List TypeExpr) (r : TypeExpr),
      branchCases writer label tag branches reader r
        = branchCases writer' label tag branches reader r
  | _, _, [], _ => rfl
  | label, tag, branch :: rest, r => by
    have hrest := branchCases_alike h label (tag + 1) rest r
    cases r with
    | union readers =>
      simp only [branchCases, hrest, h.branchFor?, deliver_alike h branch]
    | _ => simp only [branchCases, hrest, h.readable, deliver_alike h branch]

end

theorem writtenFields_alike (h : writer.Alike writer') {wd wd' : RecordType}
    (hname : wd.name = wd'.name) (rd : RecordType) :
    ∀ fields fields' : List Field,
      fields.map Field.stripped = fields'.map Field.stripped →
      writtenFields writer wd reader rd fields
        = writtenFields writer' wd' reader rd fields'
  | [], [], _ => rfl
  | [], _ :: _, hfields => absurd hfields (by simp)
  | _ :: _, [], hfields => absurd hfields (by simp)
  | field :: rest, field' :: rest', hfields => by
    obtain ⟨hfirst, hrest⟩ := List.cons.inj hfields
    obtain ⟨hfieldName, htype, -⟩ := Field.mk.inj hfirst
    simp only [writtenFields, hname, hfieldName, htype, discard_alike h,
      deliver_alike h, writtenFields_alike h hname rd rest rest' hrest]

/-- **The plan of a record.** -/
theorem recordBody_alike (h : writer.Alike writer') {wd wd' : RecordType}
    (hname : wd.name = wd'.name)
    (hfields : wd.fields.map Field.stripped = wd'.fields.map Field.stripped)
    (rd : RecordType) :
    recordBody writer wd reader rd = recordBody writer' wd' reader rd := by
  have hnames : ∀ fields : List Field,
      (fields.filterMap fun field => rd.receivingIndex? field.name)
        = ((fields.map Field.stripped).map (·.name)).filterMap
          rd.receivingIndex? := by
    intro fields
    rw [List.map_map, List.filterMap_map]
    rfl
  unfold recordBody
  rw [hnames, hnames, hfields,
    writtenFields_alike h hname rd wd.fields wd'.fields hfields]

/-- **The plan of a record that is discarded.** -/
theorem discardBody_alike (h : writer.Alike writer') {wd wd' : RecordType}
    (hname : wd.name = wd'.name)
    (hfields : wd.fields.map Field.stripped = wd'.fields.map Field.stripped) :
    discardBody writer wd = discardBody writer' wd' := by
  have hplans : ∀ fields : List Field,
      (fields.map fun field =>
        discard writer' field.type (fieldLabel wd'.name field.name))
        = (fields.map Field.stripped).map fun field =>
          discard writer' field.type (fieldLabel wd'.name field.name) := by
    intro fields
    rw [List.map_map]
    rfl
  unfold discardBody
  simp only [discard_alike h, hname]
  rw [hplans wd.fields, hplans wd'.fields, hfields]

end Plan

/-- **The plan of a method.** -/
theorem Demand.body_alike (h : writer.Alike writer') (d : Demand) :
    d.body writer reader = d.body writer' reader := by
  cases d with
  | deliver w r =>
    rw [body, body]
    cases h.at w with
    | none hw hw' => rw [hw, hw']
    | record hw hw' hname hfields =>
      rw [hw, hw']
      cases reader.definition? r with
      | none => rfl
      | some rd =>
        cases rd with
        | record rd => exact Plan.recordBody_alike h hname hfields rd
        | _ => rfl
    | enum hw hw' hname hsymbols => rw [hw, hw']
    | fixed hw hw' hname hsize => rw [hw, hw']
  | discard w =>
    rw [body, body]
    cases h.at w with
    | none hw hw' => rw [hw, hw']
    | record hw hw' hname hfields =>
      rw [hw, hw']
      exact Plan.discardBody_alike h hname hfields
    | enum hw hw' hname hsymbols => rw [hw, hw']
    | fixed hw hw' hname hsize => rw [hw, hw']

/-! ## Compiling -/

/-- **Calls are linked in the same way.** -/
theorem linkCall_alike (h : writer.Alike writer') : ∀ budget : Nat,
    linkCall writer reader budget = linkCall writer' reader budget
  | 0 => rfl
  | budget + 1 => by
    funext d
    simp only [linkCall, d.body_alike h, linkCall_alike h budget]

namespace Schema

/-- Names of records are names of definitions. -/
theorem recordNames_sublist (s : Schema) :
    s.recordNames.Sublist (s.definitions.map (·.name)) := by
  unfold recordNames
  induction s.definitions with
  | nil => exact .slnil
  | cons d rest ih =>
    cases d with
    | record r => exact ih.cons_cons r.name
    | enum e => exact ih.cons e.name
    | fixed f => exact ih.cons f.name

/-- The names of records are those of definitions that are records. -/
theorem Complete.mem_recordNames {s : Schema} (h : s.Complete)
    {name : FullName} : name ∈ s.recordNames ↔ s.HasRecord name := by
  refine ⟨fun hname => ?_, fun hname => hname.mem⟩
  obtain ⟨d, hd, hrecord⟩ := List.mem_filterMap.mp hname
  have hfound := find?_of_nodup h.nodup hd
  cases d with
  | record r => exact ⟨r, Option.some.inj hrecord ▸ hfound⟩
  | enum e => exact absurd hrecord (by simp)
  | fixed f => exact absurd hrecord (by simp)

/-- The records of alike schemas have the same names. -/
theorem Alike.hasRecord (h : writer.Alike writer') (name : FullName) :
    writer.HasRecord name ↔ writer'.HasRecord name := by
  unfold HasRecord
  cases h.at name with
  | none hw hw' => simp [hw, hw']
  | record hw hw' _ _ => simp [hw, hw']
  | enum hw hw' _ _ => simp [hw, hw']
  | fixed hw hw' _ _ => simp [hw, hw']

/-- Alike schemas have as many records. -/
theorem Alike.recordCount (h : writer.Alike writer') (hw : writer.Complete)
    (hw' : writer'.Complete) : writer.recordCount = writer'.recordCount := by
  have hperm : writer.recordNames.Perm writer'.recordNames := by
    refine (List.perm_ext_iff_of_nodup (hw.nodup.sublist writer.recordNames_sublist)
      (hw'.nodup.sublist writer'.recordNames_sublist)).mpr fun name => ?_
    rw [hw.mem_recordNames, hw'.mem_recordNames, h.hasRecord]
  rw [← writer.length_recordNames, ← writer'.length_recordNames,
    hperm.length_eq]

end Schema

/-- **Alike schemas are compiled in the same way.** -/
theorem compile_eq_of_alike (h : writer.Alike writer')
    (hw : writer.Complete) (hw' : writer'.Complete) :
    compile writer reader = compile writer' reader := by
  unfold compile Assembly.ofSchemas
  simp only [Plan.deliver_alike h, h.root, linkCall_alike h,
    h.recordCount hw hw']

end Avro
