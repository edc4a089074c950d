import Avro.Proofs.Sink.Building

/-!
# What a builder is after a script

An accepted step does one of eight things to a builder (`Builder.Takes`): it
changes nothing, or it replaces what the builder keeps in one place by what was
delivered there. So after a script of which no step was refused, a builder can
be written down: a slot of a record is what the last step for its field left, the
items of an array are what each opened item became, and so on. A part is what a
script of its own leaves of a fresh builder, since it is opened afresh.
-/

namespace Avro

open SinkStep (latest latest_concat_of_none latest_concat_of_some
  filterMap_concat_of_none filterMap_concat_of_some)

namespace SinkStep

/-- The branch that a step selects, and what it receives if it is opened. -/
def selection? : SinkStep → Option (Nat × Option (List SinkStep))
  | .set (.long n) => some (n.toInt.toNat, none)
  | .within (.field i) steps => some (i, some steps)
  | _ => none

/-- An idle step selects no branch. -/
theorem Idle.selection {step : SinkStep} (h : step.Idle) :
    step.selection? = none := by
  have hbranch := h.branch
  cases step with
  | set x => cases x <;> first | rfl | cases hbranch
  | within part steps => cases part <;> first | rfl | cases hbranch
  | _ => rfl

end SinkStep

namespace Builder

variable {s : Schema}

/-- **No step of a script is refused** by the builder of a type. -/
def Accepts (s : Schema) (t : TypeExpr) (steps : List SinkStep) : Prop :=
  StepOutcome.AllAccepted (run s t steps).1

/-! ## One step -/

/-- **What an accepted step does to a builder.** -/
inductive Takes (s : Schema) : Builder → SinkStep → Builder → Prop
  /-- Nothing. -/
  | idle {b : Builder} {step : SinkStep} (hidle : step.Idle) : Takes s b step b
  /-- A scalar that the type takes replaces what was received. -/
  | scalar {shape : Option Shape} {received : Option Value} {x : Scalar}
    {v : Value} (hv : leafValue shape x = .ok v) :
    Takes s (leaf shape received) (.set x) (leaf shape (some v))
  /-- A field takes its default. -/
  | default {r : RecordType} {slots : List (Option Builder)} {index : Nat}
    {field : Field} (v : Value) (hfield : r.fields[index]? = some field) :
    Takes s (record r slots) (.setDefault index)
      (record r (slots.set index (some (filled v))))
  /-- A field is opened afresh. -/
  | field {r : RecordType} {slots : List (Option Builder)} {index : Nat}
    {field : Field} {inner : List SinkStep}
    (hfield : r.fields[index]? = some field)
    (hinner : Accepts s field.type inner) :
    Takes s (record r slots) (.within (.field index) inner)
      (record r (slots.set index (some (run s field.type inner).2)))
  /-- An item is opened behind those before it. -/
  | item {type : TypeExpr} {items : List Builder} {inner : List SinkStep}
    (hinner : Accepts s type inner) :
    Takes s (array type items) (.within .item inner)
      (array type ((run s type inner).2 :: items))
  /-- An entry is opened behind those before it. -/
  | entry {type : TypeExpr} {entries : List (String × Builder)}
    {key : String} {inner : List SinkStep} (hinner : Accepts s type inner) :
    Takes s (map type entries) (.within (.entry key) inner)
      (map type ((key, (run s type inner).2) :: entries))
  /-- A branch is selected, and nothing is received for it. -/
  | select {branches : List TypeExpr}
    {selected : Option (Nat × Option Builder)} {n : Int64}
    (hlt : n.toInt.toNat < branches.length) :
    Takes s (union branches selected) (.set (.long n))
      (union branches (some (n.toInt.toNat, none)))
  /-- A branch is opened afresh. -/
  | branch {branches : List TypeExpr}
    {selected : Option (Nat × Option Builder)} {index : Nat}
    {type : TypeExpr} {inner : List SinkStep}
    (htype : branches[index]? = some type) (hinner : Accepts s type inner) :
    Takes s (union branches selected) (.within (.field index) inner)
      (union branches (some (index, some (run s type inner).2)))

/-- A scalar that is accepted. -/
theorem Takes.of_set {x : Scalar} {b b' : Builder}
    (h : Builder.set x b = .ok () b') : Takes s b (.set x) b' := by
  cases b with
  | leaf shape received =>
    simp only [Builder.set] at h
    split at h
    · rename_i v hv
      obtain ⟨-, rfl⟩ := EStateM.Result.ok.inj h
      exact .scalar hv
    · cases h
  | union branches selected =>
    cases x with
    | long n =>
      simp only [Builder.set] at h
      split at h
      · rename_i index hindex
        obtain ⟨-, rfl⟩ := EStateM.Result.ok.inj h
        obtain ⟨-, rfl, hlt⟩ := position?_eq_some hindex
        exact .select hlt
      · cases h
    | _ => cases h
  | _ => cases h

/-- A default that is accepted. -/
theorem Takes.of_setDefault {index : Nat} {b b' : Builder}
    (h : Builder.setDefault s index b = .ok () b') :
    Takes s b (.setDefault index) b' := by
  cases b with
  | record r slots =>
    simp only [Builder.setDefault] at h
    split at h
    · cases h
    · rename_i field hfield
      split at h
      · cases h
      · split at h
        · cases h
        · rename_i v _
          obtain ⟨-, rfl⟩ := EStateM.Result.ok.inj h
          exact .default v hfield
  | _ => cases h

/-- A part that is opened, with a script that it accepts. -/
theorem Takes.of_enter {part : Opening} {inner : List SinkStep}
    {b child : Builder} {close : Builder → Builder}
    (h : Builder.enter s part b = .ok close child)
    (hinner : StepOutcome.AllAccepted ((sink s).performAll inner child).1) :
    Takes s b (.within part inner)
      (close ((sink s).performAll inner child).2) := by
  unfold Builder.enter at h
  split at h
  · split at h
    · cases h
    · rename_i field hfield
      obtain ⟨rfl, rfl⟩ := EStateM.Result.ok.inj h
      exact .field hfield hinner
  · split at h
    · cases h
    · rename_i type htype
      obtain ⟨rfl, rfl⟩ := EStateM.Result.ok.inj h
      exact .branch htype hinner
  · obtain ⟨rfl, rfl⟩ := EStateM.Result.ok.inj h
    exact .item hinner
  · obtain ⟨rfl, rfl⟩ := EStateM.Result.ok.inj h
    exact .entry hinner
  · cases h

/-- **A step that is accepted is taken.** -/
theorem takes_of_accepted {step : SinkStep} {b : Builder}
    (h : ((sink s).perform step b).1.Accepted) :
    Takes s b step ((sink s).perform step b).2 := by
  cases step with
  | set x =>
    rw [Sink.perform] at h ⊢
    cases hset : (sink s).set x b with
    | ok a b' => exact .of_set hset
    | error e b' =>
      rw [hset] at h
      exact h.elim
  | setDefault index =>
    rw [Sink.perform] at h ⊢
    cases hset : (sink s).setDefault index b with
    | ok a b' => exact .of_setDefault hset
    | error e b' =>
      rw [hset] at h
      exact h.elim
  | finalize =>
    rw [Sink.perform]
    exact .idle SinkStep.idle_finalize
  | typeName =>
    rw [Sink.perform]
    exact .idle SinkStep.idle_typeName
  | within part inner =>
    rw [Sink.perform] at h ⊢
    cases henter : (sink s).enter part b with
    | ok close child =>
      rw [henter] at h
      exact .of_enter henter h
    | error e b' =>
      rw [henter] at h
      exact h.elim

/-- **One more step**: the script before it is accepted, and the builder takes
the step. -/
theorem Accepts.concat {t : TypeExpr} {steps : List SinkStep}
    {step : SinkStep} (h : Accepts s t (steps ++ [step])) :
    Accepts s t steps
      ∧ Takes s (run s t steps).2 step (run s t (steps ++ [step])).2 := by
  unfold Accepts run at h ⊢
  rw [Sink.performAll_append, Sink.performAll_cons,
    StepOutcome.allAccepted_append] at h
  rw [Sink.performAll_append, Sink.performAll_cons]
  exact ⟨h.1, takes_of_accepted h.2.1⟩

/-! ## A whole script -/

variable {steps : List SinkStep}

/-- **An array** has the items that were opened. -/
theorem run_array {type : TypeExpr} (h : Accepts s (.array type) steps) :
    (run s (.array type) steps).2
        = array type (((steps.filterMap SinkStep.item?).map
          fun inner => (run s type inner).2).reverse)
      ∧ ∀ inner ∈ steps.filterMap SinkStep.item?, Accepts s type inner := by
  induction steps using List.reverseRecOn with
  | nil => exact ⟨rfl, fun _ h => absurd h List.not_mem_nil⟩
  | append_singleton steps step ih =>
    obtain ⟨hsteps, htakes⟩ := h.concat
    obtain ⟨hrun, haccepts⟩ := ih hsteps
    rw [hrun] at htakes
    generalize (run s (.array type) (steps ++ [step])).2 = after at htakes ⊢
    cases htakes with
    | idle hidle =>
      rw [filterMap_concat_of_none hidle.item]
      exact ⟨rfl, haccepts⟩
    | @item _ _ inner hinner =>
      have hopened : (steps ++ [SinkStep.within .item inner]).filterMap
            SinkStep.item?
          = steps.filterMap SinkStep.item? ++ [inner] :=
        filterMap_concat_of_some rfl
      rw [hopened]
      refine ⟨by simp, fun inner' h => ?_⟩
      rcases List.mem_append.mp h with h | h
      · exact haccepts inner' h
      · exact List.mem_singleton.mp h ▸ hinner

/-- **A map** has the entries that were opened. -/
theorem run_map {type : TypeExpr} (h : Accepts s (.map type) steps) :
    (run s (.map type) steps).2
        = map type (((steps.filterMap SinkStep.entry?).map
          fun x => (x.1, (run s type x.2).2)).reverse)
      ∧ ∀ x ∈ steps.filterMap SinkStep.entry?, Accepts s type x.2 := by
  induction steps using List.reverseRecOn with
  | nil => exact ⟨rfl, fun _ h => absurd h List.not_mem_nil⟩
  | append_singleton steps step ih =>
    obtain ⟨hsteps, htakes⟩ := h.concat
    obtain ⟨hrun, haccepts⟩ := ih hsteps
    rw [hrun] at htakes
    generalize (run s (.map type) (steps ++ [step])).2 = after at htakes ⊢
    cases htakes with
    | idle hidle =>
      rw [filterMap_concat_of_none hidle.entry]
      exact ⟨rfl, haccepts⟩
    | @entry _ _ key inner hinner =>
      have hopened : (steps ++ [SinkStep.within (.entry key) inner]).filterMap
            SinkStep.entry?
          = steps.filterMap SinkStep.entry? ++ [(key, inner)] :=
        filterMap_concat_of_some rfl
      rw [hopened]
      refine ⟨by simp, fun x h => ?_⟩
      rcases List.mem_append.mp h with h | h
      · exact haccepts x h
      · exact List.mem_singleton.mp h ▸ hinner

/-- **A leaf** has received something if it had in the beginning, or a scalar
was delivered. -/
theorem run_leaf {t : TypeExpr} {shape : Option Shape}
    {received : Option Value} (hfresh : fresh s t = leaf shape received)
    (h : Accepts s t steps) :
    ∃ after, (run s t steps).2 = leaf shape after ∧ (after.isSome
      ↔ received.isSome ∨ (latest SinkStep.scalar? steps).isSome) := by
  induction steps using List.reverseRecOn with
  | nil => exact ⟨received, hfresh, (or_iff_left nofun).symm⟩
  | append_singleton steps step ih =>
    obtain ⟨hsteps, htakes⟩ := h.concat
    obtain ⟨after, hrun, hafter⟩ := ih hsteps
    rw [hrun] at htakes
    generalize (run s t (steps ++ [step])).2 = b at htakes ⊢
    cases htakes with
    | idle hidle =>
      rw [latest_concat_of_none hidle.scalar]
      exact ⟨after, rfl, hafter⟩
    | @scalar _ _ x v _ =>
      have hlatest : latest SinkStep.scalar? (steps ++ [.set x]) = some x :=
        latest_concat_of_some rfl
      exact ⟨some v, rfl, by simp [hlatest]⟩

/-- **What the slot of a field is**, by what the field is given. -/
inductive SlotOf (s : Schema) (field : Field) :
    Option Filling → Option Builder → Prop
  /-- Empty. -/
  | untouched : SlotOf s field none none
  /-- The default. -/
  | default (v : Value) : SlotOf s field (some .default) (some (filled v))
  /-- What a fresh builder becomes. -/
  | opened {inner : List SinkStep} (hinner : Accepts s field.type inner) :
    SlotOf s field (some (.opened inner)) (some (run s field.type inner).2)

/-- **A record** has in each slot what the field was given last. -/
theorem run_record {name : FullName} {r : RecordType}
    (hd : s.definition? name = some (.record r))
    (h : Accepts s (.named name) steps) :
    ∃ slots, (run s (.named name) steps).2 = record r slots
      ∧ slots.length = r.fields.length
      ∧ ∀ index field slot, r.fields[index]? = some field →
        slots[index]? = some slot →
        SlotOf s field (latest (SinkStep.filling? index) steps) slot := by
  induction steps using List.reverseRecOn with
  | nil =>
    refine ⟨r.fields.map fun _ => none, ?_, List.length_map .., ?_⟩
    · change fresh s (.named name) = _
      simp only [fresh, Schema.shape?, hd]
    · intro index field slot _ hslot
      rw [List.getElem?_map] at hslot
      obtain ⟨_, -, rfl⟩ := Option.map_eq_some_iff.mp hslot
      exact .untouched
  | append_singleton steps step ih =>
    obtain ⟨hsteps, htakes⟩ := h.concat
    obtain ⟨slots, hrun, hlength, hslots⟩ := ih hsteps
    rw [hrun] at htakes
    generalize (run s (.named name) (steps ++ [step])).2 = b at htakes ⊢
    cases htakes with
    | idle hidle =>
      refine ⟨slots, rfl, hlength, fun index field slot hfield hslot => ?_⟩
      rw [latest_concat_of_none (hidle.filling index)]
      exact hslots index field slot hfield hslot
    | @default _ _ index field v hfield =>
      exact ⟨_, rfl, List.length_set.trans hlength,
        slots_set .default hslots (fun _ => rfl) fun _ _ => .default v⟩
    | @field _ _ index field inner hfield hinner =>
      refine ⟨_, rfl, List.length_set.trans hlength,
        slots_set (.opened inner) hslots (fun _ => rfl) fun f hf => ?_⟩
      obtain rfl := Option.some.inj (hfield.symm.trans hf)
      exact .opened hinner

/-- **What a union keeps**, by the branch that was selected last. -/
inductive ChoiceOf (s : Schema) (branches : List TypeExpr) :
    Option (Nat × Option (List SinkStep)) → Option (Nat × Option Builder) → Prop
  /-- No branch. -/
  | unselected : ChoiceOf s branches none none
  /-- A branch that received nothing. -/
  | selected {index : Nat} {type : TypeExpr}
    (htype : branches[index]? = some type) :
    ChoiceOf s branches (some (index, none)) (some (index, none))
  /-- A branch, with what a fresh builder becomes. -/
  | opened {index : Nat} {type : TypeExpr} {inner : List SinkStep}
    (htype : branches[index]? = some type) (hinner : Accepts s type inner) :
    ChoiceOf s branches (some (index, some inner))
      (some (index, some (run s type inner).2))

/-- **A union** keeps the branch that was selected last. -/
theorem run_union {branches : List TypeExpr}
    (h : Accepts s (.union branches) steps) :
    ∃ choice, (run s (.union branches) steps).2 = union branches choice
      ∧ ChoiceOf s branches (latest SinkStep.selection? steps) choice := by
  induction steps using List.reverseRecOn with
  | nil => exact ⟨none, rfl, .unselected⟩
  | append_singleton steps step ih =>
    obtain ⟨hsteps, htakes⟩ := h.concat
    obtain ⟨choice, hrun, hchoice⟩ := ih hsteps
    rw [hrun] at htakes
    generalize (run s (.union branches) (steps ++ [step])).2 = b at htakes ⊢
    cases htakes with
    | idle hidle =>
      rw [latest_concat_of_none hidle.selection]
      exact ⟨choice, rfl, hchoice⟩
    | @select _ _ n hlt =>
      have hlatest : latest SinkStep.selection? (steps ++ [.set (.long n)])
          = some (n.toInt.toNat, none) := latest_concat_of_some rfl
      rw [hlatest]
      exact ⟨_, rfl, .selected (List.getElem?_eq_getElem hlt)⟩
    | @branch _ _ index type inner htype hinner =>
      have hlatest : latest SinkStep.selection?
            (steps ++ [.within (.field index) inner])
          = some (index, some inner) := latest_concat_of_some rfl
      rw [hlatest]
      exact ⟨_, rfl, .opened htype hinner⟩

end Builder

end Avro
