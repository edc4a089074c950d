import Avro.Proofs.Decoding.Delivering

/-!
# Records that are delivered

The method of a record delivers the written fields in their order and then
the defaults of the others. Its builder has a slot per field, and the slots
are what is followed: at every point a slot holds the value received last for
its field (`Builder.SlotsHold`), and in the end the value of the builder is
the record that is assembled (`Builder.SlotsHold.value?`).

A null field is never opened, so an empty slot holds null there.
-/

namespace Avro

/-! ## What is received last -/

/-- Later values come before earlier ones. -/
theorem lastReceived_append (index : Nat) :
    ∀ first second : List (Nat × Value),
      lastReceived index (first ++ second)
        = (lastReceived index second).or (lastReceived index first)
  | [], second => by rw [List.nil_append, lastReceived, Option.or_none]
  | (i, v) :: rest, second => by
    rw [List.cons_append, lastReceived, lastReceived_append index rest second,
      lastReceived, Option.or_assoc]

/-- Something is received for the positions received, and for no others. -/
theorem lastReceived_isSome (index : Nat) :
    ∀ received : List (Nat × Value),
      (lastReceived index received).isSome = true
        ↔ index ∈ received.map (·.1)
  | [] => by simp [lastReceived]
  | (i, v) :: rest => by
    rw [lastReceived, Option.isSome_or, Bool.or_eq_true,
      lastReceived_isSome index rest, List.map_cons, List.mem_cons]
    by_cases h : i = index
    · simp [h]
    · simp [h, Ne.symm h]

namespace Builder

/-! ## Slots -/

/-- **What a slot holds** of a field: nothing yet, or a value. -/
def SlotHolds (reader : Schema) (field : Field) (slot : Option Builder) :
    Option Value → Prop
  | none => slot = none
  | some v => (field.type.isNull = true → v = .null)
    ∧ ((∃ b, slot = some b ∧ b.value? reader = .ok v)
      ∨ (slot = none ∧ field.type.isNull = true))

/-- **What the slots of a record hold**, position by position. -/
def SlotsHold (reader : Schema) (rd : RecordType)
    (slots : List (Option Builder)) (held : Nat → Option Value) : Prop :=
  ∀ index field, rd.fields[index]? = some field →
    ∃ slot, slots[index]? = some slot
      ∧ SlotHolds reader field slot (held index)

namespace SlotsHold

variable {reader : Schema} {rd : RecordType} {slots : List (Option Builder)}
  {held : Nat → Option Value}

/-- The slots of a record that has received nothing. -/
theorem fresh : SlotsHold reader rd (rd.fields.map fun _ => none)
    (fun index => lastReceived index []) := by
  intro index field hfield
  refine ⟨none, ?_, rfl⟩
  rw [List.getElem?_map, hfield]
  rfl

/-- Slots are held as they are. -/
theorem congr {held' : Nat → Option Value}
    (h : SlotsHold reader rd slots held)
    (heq : ∀ index, index < rd.fields.length → held' index = held index) :
    SlotsHold reader rd slots held' := by
  intro index field hfield
  obtain ⟨hlt, _⟩ := List.getElem?_eq_some_iff.mp hfield
  rw [heq index hlt]
  exact h index field hfield

/-- **A slot is filled**, and the others are as before. -/
theorem set (h : SlotsHold reader rd slots held) {index : Nat} {b : Builder}
    {v : Value} (hb : b.value? reader = .ok v)
    (hnull : ∀ field, rd.fields[index]? = some field →
      field.type.isNull = true → v = .null) :
    SlotsHold reader rd (slots.set index (some b))
      (fun i => if i = index then some v else held i) := by
  intro i field hfield
  obtain ⟨slot, hslot, hholds⟩ := h i field hfield
  dsimp only
  by_cases hi : i = index
  · subst hi
    obtain ⟨hlt, _⟩ := List.getElem?_eq_some_iff.mp hslot
    rw [if_pos rfl]
    exact ⟨some b, List.getElem?_set_self hlt, hnull field hfield,
      .inl ⟨b, rfl, hb⟩⟩
  · rw [if_neg hi, List.getElem?_set_ne (Ne.symm hi)]
    exact ⟨slot, hslot, hholds⟩

/-- **A null field is received** without a call. -/
theorem setNull (h : SlotsHold reader rd slots held) {index : Nat}
    {field : Field} (hfield : rd.fields[index]? = some field)
    (hnull : field.type.isNull = true) :
    SlotsHold reader rd slots
      (fun i => if i = index then some .null else held i) := by
  intro i field' hfield'
  obtain ⟨slot, hslot, hholds⟩ := h i field' hfield'
  dsimp only
  by_cases hi : i = index
  · subst hi
    obtain rfl := Option.some.inj (hfield.symm.trans hfield')
    refine ⟨slot, hslot, ?_⟩
    rw [if_pos rfl]
    cases hheld : held i with
    | none =>
      rw [hheld] at hholds
      exact ⟨fun _ => rfl, .inr ⟨hholds, hnull⟩⟩
    | some v =>
      rw [hheld] at hholds
      obtain ⟨hv, hholds⟩ := hholds
      rw [hv hnull] at hholds
      exact ⟨fun _ => rfl, hholds⟩
  · rw [if_neg hi]
    exact ⟨slot, hslot, hholds⟩

/-- The values of fields whose slots hold all of them. -/
theorem fieldValues {received : List (Nat × Value)} :
    ∀ {fields : List Field} {slots : List (Option Builder)} {first : Nat},
      (∀ index field, fields[index]? = some field →
        ∃ slot v, slots[index]? = some slot
          ∧ (lastReceived (first + index) received).or
            (field.defaultValue? reader) = some v
          ∧ SlotHolds reader field slot (some v)) →
      ∃ values, RecordType.assembledFrom? reader received first fields
          = some values
        ∧ Builder.fieldValues reader rd fields slots = .ok values
  | [], _, _, _ => by
    refine ⟨[], rfl, ?_⟩
    rw [Builder.fieldValues]
  | field :: fields, [], _, h => by
    obtain ⟨slot, v, hslot, _⟩ := h 0 field rfl
    exact absurd hslot (by simp)
  | field :: fields, slot :: slots, first, h => by
    obtain ⟨values, hassembled, hvalues⟩ :
        ∃ values, RecordType.assembledFrom? reader received (first + 1) fields
            = some values
          ∧ Builder.fieldValues reader rd fields slots = .ok values := by
      refine fieldValues fun index f hf => ?_
      have hindex := h (index + 1) f hf
      rwa [show first + (index + 1) = first + 1 + index by omega] at hindex
    obtain ⟨slot', v, hslot, hv, hnull, hholds⟩ := h 0 field rfl
    obtain rfl : slot = slot' := by simpa using hslot
    rw [Nat.add_zero] at hv
    refine ⟨(field.name, v) :: values, ?_, ?_⟩
    · rw [RecordType.assembledFrom?, hv, hassembled]
      rfl
    · rcases hholds with ⟨b, rfl, hb⟩ | ⟨rfl, hfield⟩
      · rw [Builder.fieldValues, hb, hvalues]
        rfl
      · rw [Builder.fieldValues, if_pos hfield, hvalues, hnull hfield]
        rfl

/-- **The value of a record whose slots hold all its fields.** -/
theorem value? {received : List (Nat × Value)}
    (h : SlotsHold reader rd slots held)
    (hheld : ∀ index field, rd.fields[index]? = some field →
      ∃ v, (lastReceived index received).or (field.defaultValue? reader)
          = some v ∧ held index = some v) :
    ∃ values, rd.assembled? reader received = some values
      ∧ (Builder.record rd slots).value? reader = .ok (.record values) := by
  obtain ⟨values, hassembled, hvalues⟩ :
      ∃ values, RecordType.assembledFrom? reader received 0 rd.fields
          = some values
        ∧ Builder.fieldValues reader rd rd.fields slots = .ok values := by
    refine fieldValues fun index field hfield => ?_
    obtain ⟨v, hv, hindex⟩ := hheld index field hfield
    obtain ⟨slot, hslot, hholds⟩ := h index field hfield
    rw [hindex] at hholds
    exact ⟨slot, v, hslot, by rw [Nat.zero_add]; exact hv, hholds⟩
  refine ⟨values, hassembled, ?_⟩
  rw [Builder.value?, hvalues]
  rfl

end SlotsHold

end Builder

/-- The default of a null field is null. -/
theorem Value.ofDefault_isNull {s : Schema} {t : TypeExpr} {j : Json}
    {v : Value} (h : Value.ofDefault s t j = .ok v) (ht : t.isNull = true) :
    v = .null := by
  obtain rfl := TypeExpr.isNull_iff.mp ht
  have hscalar : Value.ofDefault s (.primitive .null) j
      = Value.ofScalarDefault s j (.primitive .null) := by
    unfold Value.ofDefault
    cases j <;> rfl
  rw [hscalar, Value.ofScalarDefault, Schema.shape?] at h
  cases j <;> simp only [Value.primitiveOfJson?, Value.mismatch] at h
  · exact (Except.ok.inj h).symm
  all_goals exact absurd h (by simp)

namespace Plan

variable {reader writer : Schema} {limit levels : Nat} {body : Demand → Plan}
  {R : Demand → Prop}

/-! ## One plan after another -/

/-- A sequence runs its first plan first. -/
theorem eval_sequence_cons {σ : Type} {k : Sink σ} (first : Plan)
    (rest : List Plan) (frame : Frame) :
    eval k limit body levels (Code.sequence (first :: rest)) frame
      = (do
        let frame ← eval k limit body levels first frame
        eval k limit body levels (Code.sequence rest) frame) := by
  cases rest with
  | nil =>
    have hnothing : ∀ frame, eval k limit body levels
        (Code.sequence ([] : List Plan)) frame = pure frame := by
      intro frame
      rw [eval_eq, Code.sequence, evalWith]
    simp only [hnothing, bind_pure]
    rfl
  | cons second rest =>
    simp only [eval_eq]
    rw [Code.sequence, evalWith]
    nofun

/-- A sequence is accepted if its plans are. -/
theorem accepted_sequence_cons {first : Plan} {rest : List Plan}
    (h : Accepted R (Code.sequence (first :: rest))) :
    Accepted R first ∧ Accepted R (Code.sequence rest) := by
  cases rest with
  | nil => exact ⟨h, trivial⟩
  | cons second rest => exact h

theorem accepted_sequence_append {rest : List Plan} :
    ∀ {plans : List Plan}, Accepted R (Code.sequence (plans ++ rest)) →
      Accepted R (Code.sequence rest)
  | [], h => h
  | _ :: _, h => accepted_sequence_append (accepted_sequence_cons h).2

/-! ## Written fields -/

variable {wd rd : RecordType} {decode : TypeExpr → TypeExpr → Decoding Value}
  {skip : TypeExpr → Decoding Unit}

variable (reader writer limit levels body R decode) in
/-- What is meant for the types of fields. -/
def DeliversTypes : Prop :=
  ∀ w r label, r.Fits → Accepted R (deliver writer w reader r label) →
    ∀ l, l ≤ levels →
      Delivers reader limit l body (deliver writer w reader r label) r
        (decode w r)

variable (reader writer limit levels body R skip) in
/-- What is meant for the types of fields that are dropped. -/
def SkipsTypes : Prop :=
  ∀ t label, Accepted R (discard writer t label) →
    Skips (Builder.sink reader) limit levels body (discard writer t label)
      (skip t)

/-- **A field is delivered** into its slot. -/
theorem delivers_field {index : Nat} {rf : Field} {plan : Plan}
    {m : Decoding Value}
    (h : ∀ l, l ≤ levels → Delivers reader limit l body plan rf.type m)
    (hindex : index < 0x8000000000000000)
    (hfield : rd.fields[index]? = some rf) {slots : List (Option Builder)}
    {held : Nat → Option Value}
    (hslots : Builder.SlotsHold reader rd slots held) (label : String)
    (frame : Frame) (input : Input) :
    Decoding.Gives (Decoding.entered limit rf.type m levels input)
      (fun v left => ∃ frame' slots',
        eval (Builder.sink reader) limit body levels
          (entering rf.type index label plan) frame (input, .record rd slots)
          = .ok frame' (left, .record rd slots')
        ∧ Builder.SlotsHold reader rd slots'
          (fun i => if i = index then some v else held i))
      (fun cause left => ∃ s',
        eval (Builder.sink reader) limit body levels
          (entering rf.type index label plan) frame (input, .record rd slots)
          = .error cause (left, s')) := by
  have hopen : rf.type.isNull = false →
      Builder.enter reader (.field index) (.record rd slots)
        = .ok (fun child => .record rd (slots.set index (some child)))
          (Builder.fresh reader rf.type) := fun _ => by
    simp only [Builder.enter, hfield, Sink.accept]
  refine (Delivers.entering h hindex hopen label frame input).imp
    (fun v left hd => ?_) fun _ _ hd => hd
  obtain ⟨frame', s', hd, hv⟩ := hd
  cases hnull : rf.type.isNull with
  | true =>
    rw [hnull, if_pos rfl] at hv
    obtain ⟨rfl, rfl⟩ := hv
    exact ⟨frame', slots, hd, hslots.setNull hfield hnull⟩
  | false =>
    rw [hnull, if_neg Bool.false_ne_true] at hv
    obtain ⟨b, rfl, hb⟩ := hv
    refine ⟨frame', _, hd, hslots.set hb fun field hfield' h => ?_⟩
    obtain rfl := Option.some.inj (hfield.symm.trans hfield')
    rw [hnull] at h
    exact absurd h Bool.false_ne_true

/-- What is received last after one more value. -/
theorem lastReceived_snoc (before : List (Nat × Value)) (index : Nat)
    (v : Value) :
    (fun i => if i = index then some v else lastReceived i before)
      = fun i => lastReceived i (before ++ [(index, v)]) := by
  funext i
  rw [lastReceived_append, lastReceived, lastReceived, Option.none_or]
  by_cases hi : i = index
  · rw [if_pos hi, if_pos hi.symm, Option.some_or]
  · rw [if_neg hi, if_neg (Ne.symm hi), Option.none_or]

/-- **The written fields are delivered**, and what comes after them goes
on. -/
theorem delivers_writtenFields (hfits : (Definition.record rd).Fits)
    (hdeliver : DeliversTypes reader writer limit levels body R decode)
    (hskip : SkipsTypes reader writer limit levels body R skip)
    (more : List Plan) :
    ∀ (fields : List Field) (before : List (Nat × Value))
      (slots : List (Option Builder)) (frame : Frame) (input : Input),
      Accepted R (Code.sequence
        (writtenFields writer wd reader rd fields ++ more)) →
      Builder.SlotsHold reader rd slots (fun i => lastReceived i before) →
      Decoding.Gives (decodeFields limit decode skip rd fields levels input)
        (fun received left => ∃ frame' slots',
          eval (Builder.sink reader) limit body levels (Code.sequence
            (writtenFields writer wd reader rd fields ++ more)) frame
            (input, .record rd slots)
            = eval (Builder.sink reader) limit body levels
              (Code.sequence more) frame' (left, .record rd slots')
          ∧ Builder.SlotsHold reader rd slots'
            (fun i => lastReceived i (before ++ received)))
        (fun cause left => ∃ s',
          eval (Builder.sink reader) limit body levels (Code.sequence
            (writtenFields writer wd reader rd fields ++ more)) frame
            (input, .record rd slots)
            = .error cause (left, s'))
  | [], before, slots, frame, input, _, hslots => by
    rw [decodeFields, writtenFields]
    exact ⟨frame, slots, rfl, by rw [List.append_nil]; exact hslots⟩
  | wf :: rest, before, slots, frame, input, h, hslots => by
    rw [writtenFields, List.cons_append] at h ⊢
    obtain ⟨hfirst, hrest⟩ := accepted_sequence_cons h
    rw [eval_sequence_cons, decodeFields]
    cases hindex : rd.receivingIndex? wf.name with
    | none =>
      simp only [hindex] at hfirst ⊢
      refine (hskip _ _ hfirst frame input (.record rd slots)).bind
        (fun _ left hs => ?_) fun _ _ hs => ⟨_, Running.bind_error hs⟩
      obtain ⟨frame', hs⟩ := hs
      rw [Running.bind_ok hs]
      exact delivers_writtenFields hfits hdeliver hskip more rest before slots
        frame' left hrest hslots
    | some index =>
      simp only [hindex] at hfirst ⊢
      cases hfield : rd.fields[index]? with
      | none =>
        simp only
        have hnothing : eval (Builder.sink reader) limit body levels .nothing
            frame (input, .record rd slots)
            = .ok frame (input, .record rd slots) := by
          rw [eval_eq, evalWith]
          rfl
        rw [Running.bind_ok hnothing]
        exact delivers_writtenFields hfits hdeliver hskip more rest before
          slots frame input hrest hslots
      | some rf =>
        simp only [hfield] at hfirst ⊢
        obtain ⟨hlt, hget⟩ := List.getElem?_eq_some_iff.mp hfield
        have hrf : rf.type.Fits :=
          hfits.2 rf (hget ▸ List.getElem_mem hlt)
        refine (delivers_field
          (hdeliver wf.type rf.type _ hrf (accepted_entering.mp hfirst))
          (Nat.lt_trans hlt hfits.1) hfield hslots
          (fieldLabel rd.name rf.name) frame input).bind (fun v left hd => ?_)
          fun _ _ hd => hd.imp fun _ hd => Running.bind_error hd
        obtain ⟨frame', slots', hd, hslots'⟩ := hd
        rw [lastReceived_snoc] at hslots'
        rw [Running.bind_ok hd]
        have ih := delivers_writtenFields hfits hdeliver hskip more rest
          (before ++ [(index, v)]) slots' frame' left hrest hslots'
        refine ih.bind (fun received left' ih => ?_) fun _ _ ih => ih
        obtain ⟨frame'', slots'', ih, hslots''⟩ := ih
        rw [List.append_assoc] at hslots''
        exact ⟨frame'', slots'', ih, hslots''⟩

/-! ## Defaults -/

/-- Filling a field with its default. -/
theorem eval_setDefault {index : Nat} (hindex : index < 0x8000000000000000)
    {field : Field} (hfield : rd.fields[index]? = some field) {j : Json}
    (hj : field.default = some j) {v : Value}
    (hv : Value.ofDefault reader field.type j = .ok v) (label : String)
    (slots : List (Option Builder)) (frame : Frame) (input : Input) :
    eval (Builder.sink reader) limit body levels
        (.op ⟨.setDefault, Int64.ofNat index, label⟩) frame
        (input, .record rd slots)
      = .ok frame (input, .record rd (slots.set index (some (.filled v)))) := by
  have haddress : address? (Int64.ofNat index) = some index :=
    address?_target hindex
  rw [eval_eq, evalWith]
  simp only [perform, step, haddress, Builder.sink, Builder.setDefault, hfield,
    hj, hv, Sink.accept, afterCall]

variable (reader rd) in
/-- What is held when the fields from a position on have their defaults. -/
def completedFrom (first : Nat) (held : Nat → Option Value) (index : Nat) :
    Option Value :=
  if index < first then held index
  else (held index).or (rd.fields[index]?.bind (Field.defaultValue? reader))

/-- Nothing is missing for a field that holds a value. -/
theorem completedFrom_isSome {first : Nat} {held : Nat → Option Value}
    (h : (held first).isSome = true) :
    completedFrom reader rd (first + 1) held
      = completedFrom reader rd first held := by
  obtain ⟨v, hv⟩ := Option.isSome_iff_exists.mp h
  funext index
  unfold completedFrom
  by_cases hindex : index = first
  · subst hindex
    rw [if_pos (Nat.lt_succ_self index), if_neg (Nat.lt_irrefl index), hv]
    rfl
  · by_cases hlt : index < first
    · rw [if_pos hlt, if_pos (by omega)]
    · rw [if_neg hlt, if_neg (by omega)]

/-- The default of a field completes what is held. -/
theorem completedFrom_default {first : Nat} {held : Nat → Option Value}
    {field : Field} (hfield : rd.fields[first]? = some field) {v : Value}
    (hv : field.defaultValue? reader = some v) (h : held first = none) :
    completedFrom reader rd (first + 1)
        (fun i => if i = first then some v else held i)
      = completedFrom reader rd first held := by
  funext index
  unfold completedFrom
  dsimp only
  by_cases hindex : index = first
  · subst hindex
    rw [if_pos (Nat.lt_succ_self index), if_neg (Nat.lt_irrefl index), hfield,
      h, if_pos rfl, Option.bind_some, hv]
    rfl
  · rw [if_neg hindex]
    by_cases hlt : index < first
    · rw [if_pos hlt, if_pos (by omega)]
    · rw [if_neg hlt, if_neg (by omega)]

/-- The default that an accepted plan fills in. -/
theorem accepted_defaulted {index : Nat} {field : Field}
    (h : Accepted R (defaulted reader rd index field)) :
    ∃ j v, field.default = some j
      ∧ Value.ofDefault reader field.type j = .ok v
      ∧ field.defaultValue? reader = some v
      ∧ defaulted reader rd index field
        = .op ⟨.setDefault, Int64.ofNat index,
          fieldLabel rd.name field.name⟩ := by
  unfold defaulted at h
  unfold defaulted Field.defaultValue?
  cases hj : field.default with
  | none => simp only [hj] at h; exact h.elim
  | some j =>
    simp only [hj] at h
    cases hv : Value.ofDefault reader field.type j with
    | error e => simp only [hv] at h; exact h.elim
    | ok v =>
      refine ⟨j, v, rfl, hv, ?_, by simp only [hv]⟩
      rw [Option.bind_some, hv]
      rfl

/-- **The fields that are not written take their defaults**, and then every
field has a value. -/
theorem delivers_defaultedFields (hcount : Countable rd.fields)
    {written : List Nat} :
    ∀ (fields : List Field) (first : Nat) (slots : List (Option Builder))
      (held : Nat → Option Value) (frame : Frame) (input : Input),
      Accepted R (Code.sequence
        (defaultedFields reader rd written first fields)) →
      rd.fields.drop first = fields →
      Builder.SlotsHold reader rd slots held →
      (∀ index, index < first → index < rd.fields.length →
        (held index).isSome = true) →
      (∀ index, first ≤ index → index < rd.fields.length →
        written.contains index = (held index).isSome) →
      ∃ frame' slots', eval (Builder.sink reader) limit body levels
          (Code.sequence (defaultedFields reader rd written first fields))
          frame (input, .record rd slots)
          = .ok frame' (input, .record rd slots')
        ∧ Builder.SlotsHold reader rd slots'
          (completedFrom reader rd first held)
        ∧ ∀ index, index < rd.fields.length →
          (completedFrom reader rd first held index).isSome = true
  | [], first, slots, held, frame, input, _, hdrop, hslots, hheld, _ => by
    have hle := List.drop_eq_nil_iff.mp hdrop
    have hsame : ∀ index, index < rd.fields.length →
        completedFrom reader rd first held index = held index :=
      fun index hlt => if_pos (Nat.lt_of_lt_of_le hlt hle)
    rw [defaultedFields, eval_eq, Code.sequence, evalWith]
    refine ⟨frame, slots, rfl, hslots.congr hsame, fun index hlt => ?_⟩
    rw [hsame index hlt]
    exact hheld index (Nat.lt_of_lt_of_le hlt hle) hlt
  | rf :: rest, first, slots, held, frame, input, h, hdrop, hslots, hheld,
      hwritten => by
    have hrf : rd.fields[first]? = some rf := by
      rw [← Nat.add_zero first, ← List.getElem?_drop, hdrop]
      rfl
    obtain ⟨hlt, _⟩ := List.getElem?_eq_some_iff.mp hrf
    have hrest : rd.fields.drop (first + 1) = rest := by
      rw [← List.drop_drop, hdrop]
      rfl
    have hfirst := hwritten first (Nat.le_refl _) hlt
    rw [defaultedFields] at h ⊢
    cases hc : written.contains first with
    | true =>
      rw [hc] at hfirst
      simp only [hc, if_true] at h ⊢
      rw [← completedFrom_isSome hfirst.symm]
      refine delivers_defaultedFields hcount rest (first + 1) slots held frame
        input h hrest hslots (fun index hindex hlt => ?_)
        (fun index hle => hwritten index (by omega))
      rcases Nat.lt_succ_iff_lt_or_eq.mp hindex with hindex | rfl
      · exact hheld index hindex hlt
      · exact hfirst.symm
    | false =>
      rw [hc] at hfirst
      simp only [hc, Bool.false_eq_true, if_false] at h ⊢
      obtain ⟨hdefaulted, h⟩ := accepted_sequence_cons h
      obtain ⟨j, v, hj, hv, hdefault, hplan⟩ := accepted_defaulted hdefaulted
      have hnone : held first = none :=
        Option.isSome_eq_false_iff.mp hfirst.symm
          |> Option.isNone_iff_eq_none.mp
      have hfilled : (Builder.filled v).value? reader = .ok v := by
        rw [Builder.value?]
      rw [← completedFrom_default hrf hdefault hnone, eval_sequence_cons,
        hplan, Running.bind_ok (eval_setDefault (Nat.lt_trans hlt hcount) hrf
          hj hv _ slots frame input)]
      refine delivers_defaultedFields hcount rest (first + 1) _ _ frame input
        h hrest (hslots.set hfilled fun field hfield hnull => ?_)
        (fun index hindex hlt => ?_) (fun index hle hlt => ?_)
      · obtain rfl := Option.some.inj (hrf.symm.trans hfield)
        exact Value.ofDefault_isNull hv hnull
      · by_cases heq : index = first
        · rw [if_pos heq]
          rfl
        · rw [if_neg heq]
          exact hheld index (by omega) hlt
      · rw [if_neg (by omega)]
        exact hwritten index (by omega) hlt

/-! ## Bodies -/

/-- **What is received** is received for the written positions. -/
theorem decodeFields_positions {input left : Input}
    {received : List (Nat × Value)} :
    ∀ {fields : List Field},
      decodeFields limit decode skip rd fields levels input
        = .ok received left →
      received.map (·.1)
        = fields.filterMap fun wf => rd.receivingIndex? wf.name
  | [], h => by
    rw [decodeFields] at h
    obtain ⟨rfl, -⟩ := EStateM.Result.ok.inj h
    rfl
  | wf :: rest, h => by
    rw [decodeFields] at h
    rw [List.filterMap_cons]
    cases hindex : rd.receivingIndex? wf.name with
    | none =>
      simp only [hindex] at h
      obtain ⟨_, _, _, h⟩ := Decoding.bind_eq_ok h
      exact decodeFields_positions h
    | some index =>
      obtain ⟨rf, hrf⟩ : ∃ rf, rd.fields[index]? = some rf :=
        ⟨_, List.getElem?_eq_getElem (RecordType.receivingIndex?_lt hindex)⟩
      simp only [hindex, hrf] at h
      obtain ⟨v, _, _, h⟩ := Decoding.bind_eq_ok h
      obtain ⟨others, _, hothers, h⟩ := Decoding.bind_eq_ok h
      obtain ⟨rfl, rfl⟩ := EStateM.Result.ok.inj h
      rw [List.map_cons, decodeFields_positions hothers]

/-- **A record is delivered** by the body of its method. -/
theorem delivers_recordBody (hfits : (Definition.record rd).Fits)
    (hdeliver : DeliversTypes reader writer limit levels body R decode)
    (hskip : SkipsTypes reader writer limit levels body R skip)
    (h : Accepted R (recordBody writer wd reader rd)) {name : FullName}
    (hname : reader.shape? (.named name) = some (.record rd)) :
    Delivers reader limit levels body (recordBody writer wd reader rd)
      (.named name) (decodeRecord limit reader decode skip wd rd) := by
  intro frame input s hs
  obtain rfl := hs rfl
  have hfresh : Builder.fresh reader (.named name)
      = .record rd (rd.fields.map fun _ => none) := by
    rw [Builder.fresh, hname]
  unfold recordBody at h ⊢
  have hd := delivers_writtenFields hfits hdeliver hskip
    (defaultedFields reader rd
      (wd.fields.filterMap fun wf => rd.receivingIndex? wf.name) 0 rd.fields)
    wd.fields [] _ frame input h Builder.SlotsHold.fresh
  rw [hfresh]
  unfold decodeRecord
  refine hd.self.bind (fun received left hd => ?_) fun _ _ hd => hd
  obtain ⟨hr, frame', slots, heval, hslots⟩ := hd
  rw [List.nil_append] at hslots
  obtain ⟨frame'', slots', heval', hslots', hall⟩ := delivers_defaultedFields
    hfits.1 rd.fields 0 slots _ frame' left (accepted_sequence_append h)
    rfl hslots (fun index hlt => absurd hlt (Nat.not_lt_zero index))
    (fun index _ _ => by
      rw [← decodeFields_positions hr, Bool.eq_iff_iff,
        List.contains_iff_mem, lastReceived_isSome])
  obtain ⟨values, hassembled, hvalue⟩ := hslots'.value?
    fun index field hfield => by
      obtain ⟨hlt, _⟩ := List.getElem?_eq_some_iff.mp hfield
      obtain ⟨v, hv⟩ := Option.isSome_iff_exists.mp (hall index hlt)
      refine ⟨v, ?_, hv⟩
      rwa [completedFrom, if_neg (Nat.not_lt_zero index), hfield] at hv
  rw [hassembled]
  refine ⟨frame'', _, heval.trans heval', ?_⟩
  rw [Builder.Received, if_neg (by simp [TypeExpr.isNull])]
  exact hvalue

end Plan

end Avro
