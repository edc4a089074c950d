import Avro.Proofs.Plan.Linking
import Avro.Proofs.Plan.Parts

/-!
# The demands of a pair of schemas

Plans of a pair of schemas are regular for the demands that are made of the
schemas' own records (`Demand.OfRecords`): those are the only methods that a
compilation can need, there are finitely many of them, and the plan of a
method asks for no others (`Demand.body_regular`).
-/

namespace Avro

namespace Plan

variable {writer reader : Schema}

/-- A plan that discards is regular if the methods that discard records may be
called. -/
theorem discardClosed_regular {D : Demand → Prop}
    (hD : ∀ name, writer.HasRecord name → D (.discard name)) :
    DiscardClosed writer (fun _ => True) (Regular D)
      (fun _ => RegularCases D) where
  items _ := trivial
  values _ := trivial
  branches _ _ _ := trivial
  nothing := trivial
  seq h h' := ⟨h, h'⟩
  read _ _ := .inl rfl
  blocks _ h := h
  switch _ _ h := h
  noCase _ := trivial
  case h h' := ⟨h, h'⟩
  discards h := hD _ h
  undefined _ _ := trivial

/-- **The plans of a pair of schemas are regular** for the demands of its
records. -/
theorem deliverClosed_regular :
    DeliverClosed writer reader (fun _ => True) (fun _ => True) (fun _ => True)
      (Regular (Demand.OfRecords writer reader))
      (fun _ => RegularCases (Demand.OfRecords writer reader)) where
  toDiscardClosed := discardClosed_regular fun _ h => h
  readItems _ := trivial
  readValues _ := trivial
  readBranches _ _ _ := trivial
  branch _ _ := trivial
  writtenField _ _ _ := trivial
  readField _ _ _ := trivial
  field _ _ := trivial
  set _ _ := .inr (.inl rfl)
  clear _ := .inr (.inr (.inr (.inl rfl)))
  number _ _ := .inr (.inr (.inr (.inr rfl)))
  default _ _ := .inr (.inr (.inl rfl))
  opened _ _ h := ⟨.inl rfl, h⟩
  item _ h := ⟨.inr (.inl rfl), h⟩
  entry _ h := ⟨.inr (.inr rfl), h⟩
  numbered h h' := ⟨h, h'⟩
  skip h := h
  delivers h h' := ⟨h, h'⟩
  rejects _ := trivial
  undefinedRead _ _ := trivial

/-- **Plans that discard ask for records to be discarded** only. -/
theorem regular_discard {D : Demand → Prop}
    (hD : ∀ name, writer.HasRecord name → D (.discard name)) (t : TypeExpr)
    (label : String) : Regular D (discard writer t label) :=
  (discardClosed_regular hD).discard t label trivial

/-- The method that discards a record asks for records to be discarded. -/
theorem regular_discardBody {D : Demand → Prop}
    (hD : ∀ name, writer.HasRecord name → D (.discard name))
    (wd : RecordType) : Regular D (discardBody writer wd) :=
  (discardClosed_regular hD).discardBody fun _ _ => trivial

/-- **Plans that deliver ask for records of the two schemas only.** -/
theorem regular_deliver (t r : TypeExpr) (label : String) :
    Regular (Demand.OfRecords writer reader)
      (deliver writer t reader r label) :=
  deliverClosed_regular.deliver t r label trivial trivial

end Plan

/-- **The plan of a method asks for records of the two schemas only.** -/
theorem Demand.body_regular {writer reader : Schema} (d : Demand) :
    Plan.Regular (OfRecords writer reader) (d.body writer reader) :=
  Plan.deliverClosed_regular.body d fun _ _ => trivial

/-! ## The names of methods -/

/-- The full names of the records of a schema. -/
def Schema.recordNames (s : Schema) : List FullName :=
  s.definitions.filterMap fun
    | .record r => some r.name
    | _ => none

/-- There are as many record names as records. -/
theorem Schema.length_recordNames (s : Schema) :
    s.recordNames.length = s.recordCount := by
  unfold recordNames recordCount
  induction s.definitions with
  | nil => rfl
  | cons d rest ih =>
    cases d with
    | record r => simpa using ih
    | enum e => simpa using ih
    | fixed f => simpa using ih

/-- The name of a record is among the record names. -/
theorem Schema.HasRecord.mem {s : Schema} {name : FullName}
    (h : s.HasRecord name) : name ∈ s.recordNames := by
  obtain ⟨r, hr⟩ := h
  refine List.mem_filterMap.mpr ⟨.record r, List.mem_of_find?_eq_some hr, ?_⟩
  exact congrArg some (definition?_name hr)

/-- The names of the methods that a pair of schemas makes possible. -/
def methodNames (writer reader : Schema) : List String :=
  writer.recordNames.flatMap fun w =>
    (Demand.discard w).methodName ::
      reader.recordNames.map fun r => (Demand.deliver w r).methodName

/-- There is a name for every pair of a writer's record with a reader's
record or nothing. -/
theorem length_methodNames (writer reader : Schema) :
    (methodNames writer reader).length
      = writer.recordCount * (reader.recordCount + 1) := by
  unfold methodNames
  rw [List.length_flatMap, ← writer.length_recordNames,
    ← reader.length_recordNames]
  simp only [List.length_cons, List.length_map, List.map_const',
    List.sum_replicate_nat]

/-- The method of a demand has one of these names. -/
theorem Demand.OfRecords.methodName_mem {writer reader : Schema} {d : Demand}
    (h : d.OfRecords writer reader) :
    d.methodName ∈ methodNames writer reader := by
  unfold methodNames
  cases d with
  | deliver w r =>
    exact List.mem_flatMap.mpr ⟨w, h.1.mem, List.mem_cons_of_mem _
      (List.mem_map.mpr ⟨r, h.2.mem, rfl⟩)⟩
  | discard w =>
    exact List.mem_flatMap.mpr ⟨w, h.mem, List.mem_cons_self⟩

end Avro
