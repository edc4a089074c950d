import Avro.Proofs.Sink.Closed

/-!
# What is left unpopulated

A builder has a value if and only if nothing is left unpopulated
(`Builder.run_reports`): every scalar was delivered, every field of a record was
opened or given its default unless its type is null, and every union has a
branch. If something is missing, an error says so.

Whether a branch that was selected but not opened counts as populated is a
parameter of `Populated`. A union should need nothing only for null; the builder
goes by what a fresh builder of the branch is, so arrays, maps and records of
nulls go unnoticed as well (`NeedsNothing`).
-/

namespace Avro

open SinkStep (latest)

mutual

/-- **Nothing is left unpopulated** by steps on a builder of a type, if nothing
need be delivered for a selected branch whose type is among the `free` ones. -/
inductive Populated (s : Schema) (free : TypeExpr → Prop) :
    TypeExpr → List SinkStep → Prop
  /-- Nothing is needed for null. -/
  | null {steps : List SinkStep} : Populated s free (.primitive .null) steps
  /-- A scalar was delivered. -/
  | primitive {p : Primitive} {steps : List SinkStep} :
    (latest SinkStep.scalar? steps).isSome →
    Populated s free (.primitive p) steps
  /-- The position of a symbol was delivered. -/
  | enum {name : FullName} {e : EnumType} {steps : List SinkStep} :
    s.definition? name = some (.enum e) →
    (latest SinkStep.scalar? steps).isSome →
    Populated s free (.named name) steps
  /-- A byte string was delivered. -/
  | fixed {name : FullName} {f : FixedType} {steps : List SinkStep} :
    s.definition? name = some (.fixed f) →
    (latest SinkStep.scalar? steps).isSome →
    Populated s free (.named name) steps
  /-- Every field has what it needs. -/
  | record {name : FullName} {r : RecordType} {steps : List SinkStep} :
    s.definition? name = some (.record r) →
    (∀ index field, r.fields[index]? = some field →
      PopulatedField s free field (latest (SinkStep.filling? index) steps)) →
    Populated s free (.named name) steps
  /-- Nothing is left unpopulated in the items. -/
  | array {type : TypeExpr} {steps : List SinkStep} :
    (∀ inner ∈ steps.filterMap SinkStep.item?, Populated s free type inner) →
    Populated s free (.array type) steps
  /-- Nothing is left unpopulated in the entries, those included that another
  one of their key replaces. -/
  | map {type : TypeExpr} {steps : List SinkStep} :
    (∀ x ∈ steps.filterMap SinkStep.entry?, Populated s free type x.2) →
    Populated s free (.map type) steps
  /-- Nothing is needed for the selected branch. -/
  | selected {branches : List TypeExpr} {type : TypeExpr}
    {steps : List SinkStep} {index : Nat} :
    branches[index]? = some type →
    latest SinkStep.selection? steps = some (index, none) → free type →
    Populated s free (.union branches) steps
  /-- The branch was opened after it was selected last, and nothing is left
  unpopulated in it. -/
  | opened {branches : List TypeExpr} {type : TypeExpr}
    {steps inner : List SinkStep} {index : Nat} :
    branches[index]? = some type →
    latest SinkStep.selection? steps = some (index, some inner) →
    Populated s free type inner →
    Populated s free (.union branches) steps

/-- **A field has what it needs**: null needs nothing, any other field its
default or a part in which nothing is left unpopulated. -/
inductive PopulatedField (s : Schema) (free : TypeExpr → Prop) :
    Field → Option Filling → Prop
  /-- Nothing is needed for null. -/
  | untouched {field : Field} : field.type = .primitive .null →
    PopulatedField s free field none
  /-- The default was taken. -/
  | default {field : Field} : PopulatedField s free field (some .default)
  /-- The field was opened. -/
  | opened {field : Field} {inner : List SinkStep} :
    Populated s free field.type inner →
    PopulatedField s free field (some (.opened inner))

end

/-- **A value of a type is there without any delivery.** -/
inductive Schema.NeedsNothing (s : Schema) : TypeExpr → Prop
  /-- Null. -/
  | null : NeedsNothing s (.primitive .null)
  /-- An empty array. -/
  | array {type : TypeExpr} : NeedsNothing s (.array type)
  /-- An empty map. -/
  | map {type : TypeExpr} : NeedsNothing s (.map type)
  /-- A record of nulls. -/
  | record {name : FullName} {r : RecordType} :
    s.definition? name = some (.record r) →
    (∀ field ∈ r.fields, field.type = .primitive .null) →
    NeedsNothing s (.named name)

namespace Populated

variable {s : Schema} {free : TypeExpr → Prop} {steps : List SinkStep}

theorem primitive_iff {p : Primitive} (hp : p ≠ .null) :
    Populated s free (.primitive p) steps
      ↔ (latest SinkStep.scalar? steps).isSome := by
  refine ⟨fun h => ?_, .primitive⟩
  cases h with
  | null => exact absurd rfl hp
  | primitive h => exact h

theorem array_iff {type : TypeExpr} :
    Populated s free (.array type) steps
      ↔ ∀ inner ∈ steps.filterMap SinkStep.item?,
        Populated s free type inner :=
  ⟨fun | .array h => h, .array⟩

theorem map_iff {type : TypeExpr} :
    Populated s free (.map type) steps
      ↔ ∀ x ∈ steps.filterMap SinkStep.entry?, Populated s free type x.2 :=
  ⟨fun | .map h => h, .map⟩

/-- What is needed for a name depends on its definition. -/
theorem named_iff {name : FullName} :
    Populated s free (.named name) steps
      ↔ match s.definition? name with
        | none => False
        | some (.record r) => ∀ index field, r.fields[index]? = some field →
          PopulatedField s free field (latest (SinkStep.filling? index) steps)
        | some _ => (latest SinkStep.scalar? steps).isSome := by
  constructor
  · intro h
    cases h with
    | record hd h | enum hd h | fixed hd h =>
      rw [hd]
      exact h
  · intro h
    cases hd : s.definition? name with
    | none =>
      rw [hd] at h
      exact h.elim
    | some d =>
      rw [hd] at h
      cases d with
      | record r => exact .record hd h
      | enum e => exact .enum hd h
      | fixed f => exact .fixed hd h

variable {branches : List TypeExpr} {type : TypeExpr} {index : Nat}

/-- A branch has to be selected. -/
theorem not_unselected (hlatest : latest SinkStep.selection? steps = none) :
    ¬Populated s free (.union branches) steps
  | .selected _ h _ | .opened _ h _ => nomatch hlatest.symm.trans h

theorem selected_iff (htype : branches[index]? = some type)
    (hlatest : latest SinkStep.selection? steps = some (index, none)) :
    Populated s free (.union branches) steps ↔ free type := by
  refine ⟨fun h => ?_, .selected htype hlatest⟩
  cases h with
  | selected htype' hlatest' hfree =>
    cases hlatest.symm.trans hlatest'
    cases htype.symm.trans htype'
    exact hfree
  | opened _ hlatest' _ => cases hlatest.symm.trans hlatest'

theorem opened_iff {inner : List SinkStep}
    (htype : branches[index]? = some type)
    (hlatest : latest SinkStep.selection? steps = some (index, some inner)) :
    Populated s free (.union branches) steps
      ↔ Populated s free type inner := by
  refine ⟨fun h => ?_, .opened htype hlatest⟩
  cases h with
  | selected _ hlatest' _ => cases hlatest.symm.trans hlatest'
  | opened htype' hlatest' h =>
    cases hlatest.symm.trans hlatest'
    cases htype.symm.trans htype'
    exact h

end Populated

namespace PopulatedField

variable {s : Schema} {free : TypeExpr → Prop} {field : Field}

theorem untouched_iff :
    PopulatedField s free field none ↔ field.type = .primitive .null :=
  ⟨fun | .untouched h => h, .untouched⟩

theorem opened_iff {inner : List SinkStep} :
    PopulatedField s free field (some (.opened inner))
      ↔ Populated s free field.type inner :=
  ⟨fun | .opened h => h, .opened⟩

end PopulatedField

namespace Builder

variable {s : Schema}

/-! ## Reports -/

/-- **A result reports** a property: there is a value if it holds, and
otherwise the error of something missing. -/
inductive Reports {α : Type} (P : Prop) : Except SinkError α → Prop
  /-- The property holds. -/
  | complete (a : α) (h : P) : Reports P (.ok a)
  /-- Something is missing. -/
  | lacking (what : String) (h : ¬P) : Reports P (.error (.incomplete what))

section

variable {α β : Type} {P Q : Prop} {result : Except SinkError α}

theorem Reports.congr (h : Reports P result) (hiff : P ↔ Q) :
    Reports Q result := by
  cases h with
  | complete a h => exact .complete a (hiff.mp h)
  | lacking what h => exact .lacking what (mt hiff.mpr h)

theorem Reports.map (h : Reports P result) (f : α → β) :
    Reports P (result.map f) := by
  cases h with
  | complete a h => exact .complete (f a) h
  | lacking what h => exact .lacking what h

end

/-- **The items are reported** if each of them is. -/
theorem reports_itemValues {α : Type} {P : α → Prop} {build : α → Builder} :
    ∀ {scripts : List α},
      (∀ x ∈ scripts, Reports (P x) ((build x).value? s)) →
      Reports (∀ x ∈ scripts, P x) (itemValues s (scripts.map build))
  | [], _ => by
    rw [List.map_nil, itemValues]
    exact .complete _ fun _ h => absurd h List.not_mem_nil
  | x :: rest, h => by
    have hrest := reports_itemValues fun y hy => h y (List.mem_cons_of_mem x hy)
    rw [List.map_cons, itemValues]
    generalize itemValues s (rest.map build) = values at hrest ⊢
    cases hrest with
    | complete values hall =>
      refine ((h x List.mem_cons_self).congr ?_).map _
      rw [List.forall_mem_cons, and_iff_left hall]
    | lacking what hmissing =>
      exact .lacking what fun hall => hmissing (List.forall_mem_cons.mp hall).2

/-- The values of entries are those of their builders, each with its key. -/
theorem entryValues_eq : ∀ entries : List (String × Builder),
    entryValues s entries = (itemValues s (entries.map (·.2))).map
      (entries.map (·.1)).zip
  | [] => by
    simp only [entryValues, List.map_nil, itemValues]
    rfl
  | (key, entry) :: earlier => by
    simp only [entryValues, entryValues_eq earlier, List.map_cons, itemValues]
    cases itemValues s (earlier.map (·.2)) with
    | error e => rfl
    | ok values => cases value? s entry <;> rfl

/-- A slot reports a property of its field: an empty one is right for null
only. -/
def SlotReports (s : Schema) (field : Field) (P : Prop) : Option Builder → Prop
  | none => P ↔ field.type = .primitive .null
  | some part => Reports P (part.value? s)

/-- What holds at every index holds at the first one and at those after it. -/
theorem forall_getElem?_cons {α : Type} {a : α} {rest : List α}
    {P : Nat → α → Prop} :
    (∀ i x, (a :: rest)[i]? = some x → P i x)
      ↔ P 0 a ∧ ∀ i x, rest[i]? = some x → P (i + 1) x := by
  refine ⟨fun hall => ⟨hall 0 a rfl, fun i => hall (i + 1)⟩,
    fun hall i f hf => ?_⟩
  cases i with
  | zero => exact Option.some.inj hf ▸ hall.1
  | succ i => exact hall.2 i f hf

/-- **The fields are reported** if each of them is. -/
theorem reports_fieldValues (r : RecordType) {fields : List Field}
    {slots : List (Option Builder)} {P : Nat → Field → Prop}
    (hlength : slots.length = fields.length)
    (h : ∀ i field slot, fields[i]? = some field → slots[i]? = some slot →
      SlotReports s field (P i field) slot) :
    Reports (∀ i field, fields[i]? = some field → P i field)
      (fieldValues s r fields slots) := by
  induction fields generalizing slots P with
  | nil =>
    obtain rfl := List.length_eq_zero_iff.mp hlength
    rw [fieldValues]
    exact .complete _ fun _ _ hf => by cases hf
  | cons field fields ih =>
    obtain ⟨slot, slots, rfl⟩ := List.exists_cons_of_length_eq_add_one hlength
    have hrest := ih (P := fun i => P (i + 1)) (Nat.succ.inj hlength)
      fun i => h (i + 1)
    refine Reports.congr ?_ forall_getElem?_cons.symm
    have hfirst := h 0 field slot rfl rfl
    cases slot with
    | none =>
      rw [fieldValues]
      by_cases hnull : field.type.isNull
      · have hP : P 0 field := hfirst.mpr (TypeExpr.isNull_iff.mp hnull)
        rw [if_pos hnull]
        exact (hrest.congr (and_iff_right hP).symm).map _
      · rw [if_neg hnull]
        exact .lacking _ fun hall =>
          hnull (TypeExpr.isNull_iff.mpr (hfirst.mp hall.1))
    | some part =>
      rw [fieldValues]
      change Reports (P 0 field) (part.value? s) at hfirst
      generalize part.value? s = result at hfirst ⊢
      cases hfirst with
      | complete v hP => exact (hrest.congr (and_iff_right hP).symm).map _
      | lacking what hmissing => exact .lacking what fun hall => hmissing hall.1

/-- The fields of a record that received nothing. -/
theorem reports_untouchedFields (r : RecordType) : ∀ fields : List Field,
    Reports (∀ field ∈ fields, field.type = .primitive .null)
      (untouchedFields r fields)
  | [] => .complete _ fun _ h => absurd h List.not_mem_nil
  | field :: rest => by
    have hrest := reports_untouchedFields r rest
    rw [untouchedFields]
    refine Reports.congr ?_ List.forall_mem_cons.symm
    by_cases hnull : field.type.isNull
    · rw [if_pos hnull]
      have hfield := TypeExpr.isNull_iff.mp hnull
      exact (hrest.congr (and_iff_right hfield).symm).map _
    · rw [if_neg hnull]
      exact .lacking _ fun hall => hnull (TypeExpr.isNull_iff.mpr hall.1)

/-- **A builder that received nothing** has a value if its type needs
nothing. -/
theorem reports_untouched (t : TypeExpr) :
    Reports (s.NeedsNothing t) (untouched s t) := by
  cases t with
  | primitive p =>
    cases p <;> first | exact .complete _ .null | exact .lacking _ nofun
  | array items => exact .complete _ .array
  | map values => exact .complete _ .map
  | union branches => exact .lacking _ nofun
  | named name =>
    rw [untouched, Schema.shape?_eq]
    cases hd : s.definition? name with
    | none => exact .lacking _ fun h => by cases h; simp_all
    | some d =>
      cases d with
      | record r =>
        refine ((reports_untouchedFields r r.fields).congr ?_).map _
        refine ⟨.record hd, fun h => ?_⟩
        cases h with
        | record hd' hfields =>
          obtain rfl : _ = _ := Definition.record.inj
            (Option.some.inj (hd.symm.trans hd'))
          exact hfields
      | enum e => exact .lacking _ fun h => by cases h; simp_all
      | fixed f => exact .lacking _ fun h => by cases h; simp_all

/-! ## A run -/

/-- What is said last is said by one of the steps. -/
theorem exists_of_latest {α : Type} {say : SinkStep → Option α}
    {steps : List SinkStep} {a : α} (h : latest say steps = some a) :
    ∃ step ∈ steps, say step = some a := by
  obtain ⟨step, hstep, hsay⟩ := List.exists_of_findSome?_eq_some h
  exact ⟨step, List.mem_reverse.mp hstep, hsay⟩

/-- What a part receives is smaller than the steps among which it is opened. -/
theorem sizeOf_inner {part : Opening} {steps inner : List SinkStep}
    (h : .within part inner ∈ steps) : sizeOf inner < sizeOf steps := by
  have hlt := List.sizeOf_lt_of_mem h
  rw [SinkStep.within.sizeOf_spec] at hlt
  omega

/-- An item is opened by one of the steps. -/
theorem within_of_item {steps inner : List SinkStep}
    (h : inner ∈ steps.filterMap SinkStep.item?) :
    .within .item inner ∈ steps := by
  obtain ⟨step, hstep, hitem⟩ := List.mem_filterMap.mp h
  cases step with
  | within part steps' =>
    cases part with
    | item => exact Option.some.inj hitem ▸ hstep
    | _ => cases hitem
  | _ => cases hitem

/-- An entry is opened by one of the steps. -/
theorem within_of_entry {steps : List SinkStep} {x : String × List SinkStep}
    (h : x ∈ steps.filterMap SinkStep.entry?) :
    .within (.entry x.1) x.2 ∈ steps := by
  obtain ⟨step, hstep, hentry⟩ := List.mem_filterMap.mp h
  cases step with
  | within part steps' =>
    cases part with
    | entry key => exact Option.some.inj hentry ▸ hstep
    | _ => cases hentry
  | _ => cases hentry

/-- A field is opened by one of the steps. -/
theorem within_of_filling {index : Nat} {steps inner : List SinkStep}
    (h : latest (SinkStep.filling? index) steps = some (.opened inner)) :
    .within (.field index) inner ∈ steps := by
  obtain ⟨step, hstep, hfilling⟩ := exists_of_latest h
  cases step with
  | within part steps' =>
    cases part with
    | field i =>
      rw [SinkStep.filling?, Option.ite_none_right_eq_some] at hfilling
      obtain ⟨rfl, hopened⟩ := hfilling
      cases hopened
      exact hstep
    | _ => cases hfilling
  | setDefault i =>
    rw [SinkStep.filling?, Option.ite_none_right_eq_some] at hfilling
    cases hfilling.2
  | _ => cases hfilling

/-- A branch is opened by one of the steps. -/
theorem within_of_selection {index : Nat} {steps inner : List SinkStep}
    (h : latest SinkStep.selection? steps = some (index, some inner)) :
    .within (.field index) inner ∈ steps := by
  obtain ⟨step, hstep, hselection⟩ := exists_of_latest h
  cases step with
  | set x => cases x <;> cases hselection
  | within part steps' =>
    cases part with
    | field i =>
      cases hselection
      exact hstep
    | _ => cases hselection
  | _ => cases hselection

variable {steps : List SinkStep} {t : TypeExpr}

/-- A leaf that starts empty reports whether a scalar was delivered. -/
theorem reports_leaf (hfresh : fresh s t = leaf (s.shape? t) none)
    (h : Accepts s t steps) :
    Reports (latest SinkStep.scalar? steps).isSome
      ((run s t steps).2.value? s) := by
  obtain ⟨after, hrun, hafter⟩ := run_leaf hfresh h
  rw [hrun]
  cases after with
  | none =>
    rw [value?]
    exact .lacking _ fun hlatest =>
      Bool.false_ne_true (hafter.mpr (.inr hlatest))
  | some v =>
    rw [value?]
    exact .complete v ((hafter.mp rfl).resolve_left Bool.false_ne_true)

/-- A name without definition takes nothing. -/
theorem run_unresolved (ht : s.shape? t = none) (h : Accepts s t steps) :
    (run s t steps).2 = leaf none none := by
  induction steps using List.reverseRecOn with
  | nil =>
    change fresh s t = _
    rw [fresh, ht]
  | append_singleton steps step ih =>
    obtain ⟨hsteps, htakes⟩ := h.concat
    rw [ih hsteps] at htakes
    generalize (run s t (steps ++ [step])).2 = b at htakes ⊢
    cases htakes with
    | idle => rfl
    | scalar hv => cases hv

/-- **The parts report** whether something is left unpopulated in them. -/
def PartsReport (s : Schema) (steps : List SinkStep) : Prop :=
  ∀ {part : Opening} {inner : List SinkStep} {type : TypeExpr},
    .within part inner ∈ steps → Accepts s type inner →
    Reports (Populated s s.NeedsNothing type inner)
      ((run s type inner).2.value? s)

theorem reports_array {type : TypeExpr} (ih : PartsReport s steps)
    (h : Accepts s (.array type) steps) :
    Reports (Populated s s.NeedsNothing (.array type) steps)
      ((run s (.array type) steps).2.value? s) := by
  obtain ⟨hrun, hinner⟩ := run_array h
  have hitems : Reports (∀ inner ∈ (steps.filterMap SinkStep.item?).reverse,
        Populated s s.NeedsNothing type inner)
      (itemValues s ((steps.filterMap SinkStep.item?).reverse.map
        fun inner => (run s type inner).2)) :=
    reports_itemValues fun inner hmem =>
      have hmem := List.mem_reverse.mp hmem
      ih (within_of_item hmem) (hinner inner hmem)
  rw [hrun, value?, ← List.map_reverse]
  refine (hitems.congr ?_).map _
  simp only [List.mem_reverse, Populated.array_iff]

theorem reports_map {type : TypeExpr} (ih : PartsReport s steps)
    (h : Accepts s (.map type) steps) :
    Reports (Populated s s.NeedsNothing (.map type) steps)
      ((run s (.map type) steps).2.value? s) := by
  obtain ⟨hrun, hinner⟩ := run_map h
  have hentries : Reports (∀ x ∈ (steps.filterMap SinkStep.entry?).reverse,
        Populated s s.NeedsNothing type x.2)
      (itemValues s ((steps.filterMap SinkStep.entry?).reverse.map
        fun x => (run s type x.2).2)) :=
    reports_itemValues fun x hmem =>
      have hmem := List.mem_reverse.mp hmem
      ih (within_of_entry hmem) (hinner x hmem)
  rw [hrun, value?, entryValues_eq, ← List.map_reverse]
  simp only [List.map_map, Function.comp_def]
  refine ((hentries.congr ?_).map _).map _
  simp only [List.mem_reverse, Populated.map_iff]

theorem reports_union {branches : List TypeExpr} (ih : PartsReport s steps)
    (h : Accepts s (.union branches) steps) :
    Reports (Populated s s.NeedsNothing (.union branches) steps)
      ((run s (.union branches) steps).2.value? s) := by
  obtain ⟨choice, hrun, hchoice⟩ := run_union h
  rw [hrun]
  generalize hlatest : latest SinkStep.selection? steps = selection at hchoice
  cases hchoice with
  | unselected =>
    rw [value?]
    exact .lacking _ (Populated.not_unselected hlatest)
  | @selected index type htype =>
    rw [value?, htype]
    exact ((reports_untouched type).congr
      (Populated.selected_iff htype hlatest).symm).map _
  | opened htype hinner =>
    rw [value?]
    exact ((ih (within_of_selection hlatest) hinner).congr
      (Populated.opened_iff htype hlatest).symm).map _

theorem reports_record {name : FullName} {r : RecordType}
    (hd : s.definition? name = some (.record r)) (ih : PartsReport s steps)
    (h : Accepts s (.named name) steps) :
    Reports (Populated s s.NeedsNothing (.named name) steps)
      ((run s (.named name) steps).2.value? s) := by
  obtain ⟨slots, hrun, hlength, hslots⟩ := run_record hd h
  have hiff : Populated s s.NeedsNothing (.named name) steps
      ↔ ∀ index field, r.fields[index]? = some field →
        PopulatedField s s.NeedsNothing field
          (latest (SinkStep.filling? index) steps) := by
    rw [Populated.named_iff, hd]
  rw [hrun, value?]
  refine Reports.map ?_ _
  refine (reports_fieldValues r hlength fun i field slot hfield hslot => ?_).congr
    hiff.symm
  have hslot := hslots i field slot hfield hslot
  generalize hlatest : latest (SinkStep.filling? i) steps = filling at hslot ⊢
  cases hslot with
  | untouched => exact PopulatedField.untouched_iff
  | default v =>
    change Reports _ (value? s (filled v))
    rw [value?]
    exact .complete v .default
  | opened hinner =>
    exact (ih (within_of_filling hlatest) hinner).congr
      PopulatedField.opened_iff.symm

/-- **A builder reports whether something is left unpopulated**, after steps of
which none is refused. -/
theorem reports_run {steps : List SinkStep} {t : TypeExpr}
    (h : Accepts s t steps) :
    Reports (Populated s s.NeedsNothing t steps)
      ((run s t steps).2.value? s) := by
  have ih : PartsReport s steps := fun hmem hinner =>
    have := sizeOf_inner hmem
    reports_run hinner
  cases t with
  | primitive p =>
    by_cases hp : p = .null
    · subst hp
      obtain ⟨after, hrun, hafter⟩ := run_leaf rfl h
      obtain ⟨v, rfl⟩ := Option.isSome_iff_exists.mp (hafter.mpr (.inl rfl))
      rw [hrun, value?]
      exact .complete v .null
    · have hfresh : fresh s (.primitive p)
          = leaf (s.shape? (.primitive p)) none := by
        cases p <;> first | rfl | exact absurd rfl hp
      exact (reports_leaf hfresh h).congr (Populated.primitive_iff hp).symm
  | array type => exact reports_array ih h
  | map type => exact reports_map ih h
  | union branches => exact reports_union ih h
  | named name =>
    cases hd : s.definition? name with
    | none =>
      have hshape : s.shape? (.named name) = none := by
        rw [Schema.shape?_eq, hd, Option.map_none]
      rw [run_unresolved hshape h, value?]
      refine .lacking _ fun hall => ?_
      rw [Populated.named_iff, hd] at hall
      exact hall
    | some d =>
      cases d with
      | record r => exact reports_record hd ih h
      | enum e =>
        have hfresh : fresh s (.named name)
            = leaf (s.shape? (.named name)) none := by
          simp only [fresh, Schema.shape?, hd]
        refine (reports_leaf hfresh h).congr ?_
        rw [Populated.named_iff, hd]
      | fixed f =>
        have hfresh : fresh s (.named name)
            = leaf (s.shape? (.named name)) none := by
          simp only [fresh, Schema.shape?, hd]
        refine (reports_leaf hfresh h).congr ?_
        rw [Populated.named_iff, hd]
termination_by sizeOf steps

/-- **A builder has a value if nothing is left unpopulated**, and otherwise
reports something that is missing: whatever a script does, and with refused
calls without effect. -/
theorem run_reports (s : Schema) (t : TypeExpr) (script : List SinkStep) :
    Reports (Populated s s.NeedsNothing t
        (SinkStep.succeeded script (run s t script).1))
      ((run s t script).2.value? s) := by
  have hleads : (sink s).Leads (SinkStep.succeeded script (run s t script).1)
      (fresh s t) (run s t script).2 :=
    (careful s).leads_succeeded script (fresh s t)
  rw [← hleads.ends]
  exact reports_run hleads.accepted

end Builder

/-! ## A branch that nobody opens

A script selects the array of a union and delivers nothing else. The builder
reads an empty array into that. -/

namespace Hollow

/-- The document. -/
def text : String :=
  "[\"null\",\x7b\"type\":\"array\",\"items\":\"int\"\x7d]"

/-- The schema. -/
def schema : Schema where
  root := .union [.primitive .null, .array (.primitive .int)]
  definitions := []
  source := text

/-- The script. -/
def script : List SinkStep := [.set (.long 1)]

theorem parse_text : Schema.parse text = .ok schema := by
  have hchars : text.toList = _ := String.toList_ofList
  rw [Schema.parse, Json.parse, hchars]
  cbv

/-- The step is accepted, and there is a value although the selected branch is
not null and was not opened. -/
theorem unnoticed :
    Schema.parse text = .ok schema
    ∧ SinkStep.succeeded script (Builder.run schema schema.root script).1
      = script
    ∧ (Builder.run schema schema.root script).2.value? schema
      = .ok (.union 1 (.array []))
    ∧ ¬Populated schema (· = .primitive .null) schema.root script := by
  have hiff : Populated schema (· = .primitive .null) schema.root script
      ↔ TypeExpr.array (.primitive .int) = .primitive .null :=
    Populated.selected_iff rfl rfl
  refine ⟨parse_text, by cbv, by cbv, fun h => ?_⟩
  cases hiff.mp h

end Hollow

end Avro
