import Mathlib
import Avro.Proofs.Decoding.Entries
import Avro.Proofs.Schema.Parsing
import Avro.Proofs.Sink.Assembling
import Avro.Proofs.Sink.Scripts

/-!
# Values that are built

Whoever drives the sink of a type may call it in any order and may go on after a
refusal. A refused call changes nothing (`Builder.careful`), and what succeeded
assembles the value that is built in the end, which is one of the type.

Between two steps, a builder holds what was delivered to it (`Builder.Holds`):
a value that it, or a part of it, would have now is the one that the steps up to
now assemble. Every step that succeeds keeps that (`Builder.Holds.perform`).
-/

namespace Avro

open SinkStep (latest latestEntry)

namespace Builder

variable {s : Schema}

/-! ## Refusals -/

/-- **A builder is left as it is** by a call that it refuses. -/
theorem careful (s : Schema) : (sink s).Careful where
  set {x b e after} h := by
    unfold sink set at h
    dsimp only at h
    repeat' split at h
    all_goals first | (cases h; rfl) | cases h
  setDefault {index b e after} h := by
    unfold sink setDefault at h
    dsimp only at h
    repeat' split at h
    all_goals first | (cases h; rfl) | cases h
  enter {part b e after} h := by
    unfold sink enter at h
    dsimp only at h
    repeat' split at h
    all_goals first | (cases h; rfl) | cases h
  finalize h := by cases h

/-! ## Values of parts -/

/-- The values of fields none of which was opened. -/
theorem fieldValues_untouched (s : Schema) (r : RecordType) :
    ∀ fields : List Field,
      fieldValues s r fields (fields.map fun _ => none) = untouchedFields r fields
  | [] => rfl
  | field :: rest => by
    rw [List.map_cons, fieldValues, untouchedFields, fieldValues_untouched s r]

/-- **A fresh builder** has the value of a type that received nothing. -/
theorem value?_fresh (s : Schema) (t : TypeExpr) :
    (fresh s t).value? s = untouched s t := by
  unfold fresh untouched
  cases s.shape? t with
  | none => rfl
  | some shape =>
    cases shape with
    | primitive p => cases p <;> rfl
    | record r =>
      dsimp only
      rw [value?, fieldValues_untouched]
    | _ => rfl

/-- **The value of a union** is that of the branch selected last. -/
theorem value?_union {branches : List TypeExpr} {type : TypeExpr} {index : Nat}
    (h : branches[index]? = some type) (part : Option Builder) :
    (union branches (some (index, part))).value? s
      = ((part.getD (fresh s type)).value? s).map (.union index) := by
  cases part with
  | none =>
    rw [value?, h, Option.getD_none, value?_fresh]
  | some b => rw [value?, Option.getD_some]

/-- The values of items are those of the builders. -/
theorem forall₂_of_itemValues : ∀ {items : List Builder} {values : List Value},
    itemValues s items = .ok values →
    List.Forall₂ (fun b v => b.value? s = .ok v) items values
  | [], values, h => by
    rw [itemValues] at h
    rw [← Except.ok.inj h]
    exact .nil
  | item :: earlier, values, h => by
    rw [itemValues] at h
    cases he : itemValues s earlier with
    | error e => rw [he] at h; cases h
    | ok values' =>
      rw [he] at h
      obtain ⟨v, hv, rfl⟩ := exists_of_map_ok h
      exact .cons hv (forall₂_of_itemValues he)

/-- The value of a field whose slot is given: null if it is empty. -/
def SlotValue (s : Schema) (field : Field) : Option Builder → Value → Prop
  | some part, v => part.value? s = .ok v
  | none, v => field.type = .primitive .null ∧ v = .null

/-- **The values of fields** are in the order of the fields, and each is that of
its slot. -/
theorem getElem?_of_fieldValues {r : RecordType} : ∀ {fields : List Field}
    {slots : List (Option Builder)} {values : List (String × Value)},
    slots.length = fields.length →
    fieldValues s r fields slots = .ok values →
    values.map (·.1) = fields.map (·.name)
      ∧ ∀ (index : Nat) (field : Field) (x : String × Value),
        fields[index]? = some field → values[index]? = some x →
        ∃ slot, slots[index]? = some slot ∧ SlotValue s field slot x.2
  | [], [], values, _, h => by
    rw [fieldValues] at h
    rw [← Except.ok.inj h]
    exact ⟨rfl, fun index field x hfield => absurd hfield nofun⟩
  | field :: fields, some part :: slots, values, hlength, h => by
    rw [fieldValues] at h
    cases hv : part.value? s with
    | error e => rw [hv] at h; cases h
    | ok v =>
      rw [hv] at h
      obtain ⟨others, hothers, rfl⟩ := exists_of_map_ok h
      obtain ⟨hnames, hvalues⟩ :=
        getElem?_of_fieldValues (Nat.succ.inj hlength) hothers
      refine ⟨by rw [List.map_cons, hnames, List.map_cons], ?_⟩
      rintro (_ | index) f x hfield hx
      · obtain rfl := Option.some.inj hx
        exact ⟨some part, rfl, hv⟩
      · exact hvalues index f x hfield hx
  | field :: fields, none :: slots, values, hlength, h => by
    rw [fieldValues] at h
    split at h
    · rename_i hnull
      obtain ⟨others, hothers, rfl⟩ := exists_of_map_ok h
      obtain ⟨hnames, hvalues⟩ :=
        getElem?_of_fieldValues (Nat.succ.inj hlength) hothers
      refine ⟨by rw [List.map_cons, hnames, List.map_cons], ?_⟩
      rintro (_ | index) f x hfield hx
      · obtain rfl := Option.some.inj hx
        obtain rfl := Option.some.inj hfield
        exact ⟨none, rfl, TypeExpr.isNull_iff.mp hnull, rfl⟩
      · exact hvalues index f x hfield hx
    · cases h

/-! ## What a builder holds -/

/-- **A builder yields what steps assemble**: its value, if it has one. -/
def Yields (s : Schema) (t : TypeExpr) (steps : List SinkStep) (b : Builder) :
    Prop :=
  ∀ v, b.value? s = .ok v → Assembles s t steps v

/-- A slot holds what was given to a field. -/
def SlotYields (s : Schema) (field : Field) (filling : Option Filling) :
    Option Builder → Prop
  | none => filling = none
  | some part => ∀ v, part.value? s = .ok v → AssemblesField s field filling v

/-- **A builder of a type holds what steps delivered** to it. Of its parts only
the values matter that they yield, since a part cannot be changed once its
parent is used again. -/
inductive Holds (s : Schema) (steps : List SinkStep) : TypeExpr → Builder → Prop
  /-- What was received. -/
  | leaf {t : TypeExpr} {received : Option Value} :
    (∀ v, received = some v → Assembles s t steps v) →
    Holds s steps t (leaf (s.shape? t) received)
  /-- A slot for each field. -/
  | record {name : FullName} {r : RecordType} {slots : List (Option Builder)} :
    s.definition? name = some (.record r) → slots.length = r.fields.length →
    (∀ index field slot, r.fields[index]? = some field →
      slots[index]? = some slot →
      SlotYields s field (latest (SinkStep.filling? index) steps) slot) →
    Holds s steps (.named name) (record r slots)
  /-- The items. -/
  | array {type : TypeExpr} {items : List Builder} :
    List.Forall₂ (Yields s type) (steps.filterMap SinkStep.item?)
      items.reverse →
    Holds s steps (.array type) (array type items)
  /-- The entries. -/
  | map {type : TypeExpr} {entries : List (String × Builder)} :
    List.Forall₂ (fun x y => x.1 = y.1 ∧ Yields s type x.2 y.2)
      (steps.filterMap SinkStep.entry?) entries.reverse →
    Holds s steps (.map type) (map type entries)
  /-- The branch that is selected. -/
  | union {branches : List TypeExpr} {selected : Option (Nat × Option Builder)} :
    (∀ index part, selected = some (index, part) → ∃ type inner,
      branches[index]? = some type
        ∧ latest SinkStep.branch? steps = some (index, inner)
        ∧ Yields s type inner (part.getD (fresh s type))) →
    Holds s steps (.union branches) (union branches selected)

/-- **A fresh builder holds nothing.** -/
theorem holds_fresh (s : Schema) (t : TypeExpr) : Holds s [] t (fresh s t) := by
  cases t with
  | primitive p =>
    have hleaf : fresh s (.primitive p) = leaf (s.shape? (.primitive p))
        (if p = .null then some .null else none) := by cases p <;> rfl
    rw [hleaf]
    refine .leaf fun v hv => ?_
    split at hv
    · rename_i hnull
      rw [hnull, ← Option.some.inj hv]
      exact .null
    · cases hv
  | array items => exact .array .nil
  | map values => exact .map .nil
  | union branches => exact .union nofun
  | named name =>
    cases hd : s.definition? name with
    | none =>
      have hleaf : fresh s (.named name) = leaf (s.shape? (.named name)) none := by
        simp only [fresh, Schema.shape?, hd]
      exact hleaf ▸ .leaf nofun
    | some d =>
      cases d with
      | record r =>
        have hrecord : fresh s (.named name)
            = record r (r.fields.map fun _ => none) := by
          simp only [fresh, Schema.shape?, hd]
        rw [hrecord]
        refine .record hd (by simp) fun index field slot _ hslot => ?_
        rw [List.getElem?_map] at hslot
        obtain ⟨_, -, rfl⟩ := Option.map_eq_some_iff.mp hslot
        rfl
      | enum e =>
        have hleaf : fresh s (.named name)
            = leaf (s.shape? (.named name)) none := by
          simp only [fresh, Schema.shape?, hd]
        exact hleaf ▸ .leaf nofun
      | fixed f =>
        have hleaf : fresh s (.named name)
            = leaf (s.shape? (.named name)) none := by
          simp only [fresh, Schema.shape?, hd]
        exact hleaf ▸ .leaf nofun

variable {t : TypeExpr} {steps : List SinkStep} {b : Builder}

/-- Relations between lists are composed. -/
theorem forall₂_trans {α β γ : Type} {R : α → β → Prop} {S : β → γ → Prop}
    {T : α → γ → Prop} (h : ∀ a b c, R a b → S b c → T a c) :
    ∀ {as : List α} {bs : List β} {cs : List γ},
      List.Forall₂ R as bs → List.Forall₂ S bs cs → List.Forall₂ T as cs
  | [], [], [], .nil, .nil => .nil
  | _ :: _, _ :: _, _ :: _, .cons hR hRs, .cons hS hSs =>
    .cons (h _ _ _ hR hS) (forall₂_trans h hRs hSs)

/-- What is found under a key is related if the entries are. -/
theorem find?_of_forall₂ {α β : Type} {R : α → β → Prop} (key : String) :
    ∀ {opened : List (String × α)} {pairs : List (String × β)},
      List.Forall₂ (fun x y => x.1 = y.1 ∧ R x.2 y.2) opened pairs →
      Option.Rel R (Entries.find? key opened) (Entries.find? key pairs)
  | [], [], .nil => .none
  | (k, a) :: opened, (_, b) :: pairs, .cons ⟨rfl, hR⟩ hrest => by
    rw [Entries.find?, Entries.find?]
    split
    · exact .some hR
    · exact find?_of_forall₂ key hrest

theorem isSome_of_rel {α β : Type} {R : α → β → Prop} :
    ∀ {a : Option α} {b : Option β}, Option.Rel R a b → b.isSome = a.isSome
  | _, _, .none | _, _, .some _ => rfl

/-- **What a builder holds it yields.** -/
theorem Holds.yields (h : Holds s steps t b) : Yields s t steps b := by
  intro v hv
  cases h with
  | @leaf _ received hreceived =>
    cases received with
    | none =>
      rw [value?] at hv
      cases hv
    | some v' =>
      rw [value?] at hv
      exact hreceived v (congrArg some (Except.ok.inj hv))
  | record hd hlength hslots =>
    rw [value?] at hv
    obtain ⟨fields, hfields, rfl⟩ := exists_of_map_ok hv
    obtain ⟨hnames, hvalues⟩ := getElem?_of_fieldValues hlength hfields
    refine .record hd hnames fun index field x hfield hx => ?_
    obtain ⟨slot, hslot, hvalue⟩ := hvalues index field x hfield hx
    have hslot := hslots index field slot hfield hslot
    -- A slot that stays empty has a value only where null is enough.
    cases slot with
    | none =>
      obtain ⟨htype, hnull⟩ := hvalue
      rw [show latest _ steps = none from hslot, hnull]
      exact .untouched htype
    | some part => exact hslot x.2 hvalue
  | @array type items hitems =>
    rw [value?] at hv
    obtain ⟨values, hvalues, rfl⟩ := exists_of_map_ok hv
    have hassembled : List.Forall₂ (Assembles s type)
        (steps.filterMap SinkStep.item?) values.reverse :=
      forall₂_trans (fun _ _ _ hyields => hyields _) hitems
        (List.rel_reverse (forall₂_of_itemValues hvalues))
    exact .array hassembled.length_eq.symm fun x hx =>
      List.forall₂_zip hassembled hx
  | @map type entries hentries =>
    obtain ⟨pairs, hpairs, rfl⟩ := value?_map hv
    have hassembled : List.Forall₂
        (fun x y => x.1 = y.1 ∧ Assembles s type x.2 y.2)
        (steps.filterMap SinkStep.entry?).reverse pairs := by
      have hvalues := List.rel_reverse (forall₂_of_entryValues hpairs)
      rw [← List.reverse_reverse pairs]
      refine List.rel_reverse (forall₂_trans ?_ hentries hvalues)
      exact fun _ _ _ hyields hvalue =>
        ⟨hyields.1.trans hvalue.1, hyields.2 _ hvalue.2⟩
    -- The entries are kept with the last in front, and an entry replaces those
    -- of its key that come before it.
    have hfound : ∀ key, Option.Rel (Assembles s type) (latestEntry key steps)
        (Entries.find? key (Entries.ofList pairs.reverse)) := by
      intro key
      rw [Entries.find?_ofList, List.reverse_reverse]
      exact find?_of_forall₂ key hassembled
    refine .map (Entries.sorted_ofList _)
      (fun key => isSome_of_rel (hfound key)) fun key inner v hinner hv => ?_
    have hrel := hfound key
    rw [hinner, hv] at hrel
    cases hrel with
    | some h => exact h
  | @union branches selected hselected =>
    cases selected with
    | none =>
      rw [value?] at hv
      cases hv
    | some choice =>
      obtain ⟨index, part⟩ := choice
      obtain ⟨type, inner, htype, hlatest, hyields⟩ :=
        hselected index part rfl
      rw [value?_union htype] at hv
      obtain ⟨v', hv', rfl⟩ := exists_of_map_ok hv
      exact .union htype hlatest (hyields v' hv')

/-! ## Steps that succeed -/

open SinkStep (latest_concat_of_none latest_concat_of_some
  filterMap_concat_of_none filterMap_concat_of_some)

/-- An idle step changes nothing in what is held. -/
theorem Holds.concat_idle (h : Holds s steps t b) {step : SinkStep}
    (hidle : step.Idle) : Holds s (steps ++ [step]) t b := by
  cases h with
  | leaf hreceived =>
    exact .leaf fun v hv => (hreceived v hv).concat_idle hidle
  | record hd hlength hslots =>
    refine .record hd hlength fun index field slot hfield hslot => ?_
    rw [latest_concat_of_none (hidle.filling index)]
    exact hslots index field slot hfield hslot
  | array hitems =>
    exact .array ((filterMap_concat_of_none hidle.item).symm ▸ hitems)
  | map hentries =>
    exact .map ((filterMap_concat_of_none hidle.entry).symm ▸ hentries)
  | union hselected =>
    refine .union fun index part hpart => ?_
    rw [latest_concat_of_none hidle.branch]
    exact hselected index part hpart

/-- A position that is found is below its bound. -/
theorem position?_eq_some {n : Int64} {bound index : Nat}
    (h : position? n bound = some index) :
    n.toInt = index ∧ n.toInt.toNat = index ∧ index < bound := by
  unfold position? at h
  split at h
  · rename_i hn
    obtain rfl := Option.some.inj h
    exact ⟨(Int.toNat_of_nonneg hn.1).symm, rfl, hn.2⟩
  · cases h

/-- **A scalar that is taken is a value** of the type. -/
theorem assembles_of_leafValue {x : Scalar} {v : Value}
    (h : leafValue (s.shape? t) x = .ok v) :
    Assembles s t (steps ++ [.set x]) v := by
  have hlatest : latest SinkStep.scalar? (steps ++ [.set x]) = some x :=
    latest_concat_of_some rfl
  cases t with
  | primitive p =>
    rw [Schema.shape?, leafValue] at h
    split at h
    · rename_i hp
      rw [← Except.ok.inj h, ← hp]
      exact .primitive hlatest
    · cases h
  | named name =>
    rw [Schema.shape?_eq] at h
    cases hd : s.definition? name with
    | none =>
      rw [hd] at h
      cases x <;> cases h
    | some d =>
      rw [hd, Option.map_some] at h
      cases d with
      | record r => cases x <;> cases h
      | enum e =>
        cases x with
        | long n =>
          rw [Definition.shape, leafValue] at h
          split at h
          · rename_i index hindex
            obtain ⟨hn, -, hlt⟩ := position?_eq_some hindex
            have hsymbol := List.getElem?_eq_getElem hlt
            rw [← Except.ok.inj h, List.getD_eq_getElem?_getD, hsymbol]
            exact .enum hd hlatest hn hsymbol
          · cases h
        | _ => cases h
      | fixed f =>
        cases x with
        | bytes bytes =>
          rw [Definition.shape, leafValue] at h
          split at h
          · rename_i hsize
            rw [← Except.ok.inj h]
            exact .fixed hd hlatest hsize
          · cases h
        | _ => cases h
  | array items => cases x <;> cases h
  | map values => cases x <;> cases h
  | union branches => cases x <;> cases h

variable {b' : Builder}

/-- **A scalar that is delivered** is held. -/
theorem Holds.set {x : Scalar} (h : Holds s steps t b)
    (hset : Builder.set x b = .ok () b') :
    Holds s (steps ++ [.set x]) t b' := by
  cases h with
  | leaf hreceived =>
    unfold Builder.set at hset
    dsimp only at hset
    split at hset
    · rename_i v hv
      obtain ⟨-, rfl⟩ := EStateM.Result.ok.inj hset
      refine .leaf fun v' hv' => ?_
      obtain rfl := Option.some.inj hv'
      exact assembles_of_leafValue hv
    · cases hset
  | @union branches selected hselected =>
    cases x with
    | long n =>
      unfold Builder.set at hset
      dsimp only at hset
      split at hset
      · rename_i index hindex
        obtain ⟨-, rfl⟩ := EStateM.Result.ok.inj hset
        obtain ⟨-, hnat, hlt⟩ := position?_eq_some hindex
        refine .union fun i part hpart => ?_
        obtain ⟨rfl, rfl⟩ := Prod.mk.inj (Option.some.inj hpart)
        refine ⟨_, [], List.getElem?_eq_getElem hlt, ?_, ?_⟩
        · exact latest_concat_of_some (by rw [SinkStep.branch?, hnat])
        · exact (holds_fresh s _).yields
      · cases hset
    | _ => cases hset
  | _ => cases hset

/-- **A slot that is filled** is related to what its field is given, and the
others are left as they are. -/
theorem slots_set {R : Field → Option Filling → Option Builder → Prop}
    {fields : List Field} {slots : List (Option Builder)} {step : SinkStep}
    {index : Nat} (filling : Filling) {part : Builder}
    (hslots : ∀ i field slot, fields[i]? = some field → slots[i]? = some slot →
      R field (latest (SinkStep.filling? i) steps) slot)
    (hstep : ∀ i, step.filling? i = if index = i then some filling else none)
    (hpart : ∀ field, fields[index]? = some field →
      R field (some filling) (some part)) :
    ∀ i field slot, fields[i]? = some field →
      (slots.set index (some part))[i]? = some slot →
      R field (latest (SinkStep.filling? i) (steps ++ [step])) slot := by
  intro i field slot hfield hslot
  by_cases hi : index = i
  · subst hi
    rw [latest_concat_of_some ((hstep index).trans (if_pos rfl))]
    obtain rfl : some part = slot := by
      rw [List.getElem?_set_self'] at hslot
      obtain ⟨_, -, hpart⟩ := Option.map_eq_some_iff.mp hslot
      exact hpart
    exact hpart field hfield
  · rw [latest_concat_of_none ((hstep i).trans (if_neg hi))]
    rw [List.getElem?_set_ne hi] at hslot
    exact hslots i field slot hfield hslot

/-- **A default that is taken** is held. -/
theorem Holds.setDefault {index : Nat} (h : Holds s steps t b)
    (hset : Builder.setDefault s index b = .ok () b') :
    Holds s (steps ++ [.setDefault index]) t b' := by
  cases h with
  | @record name r slots hd hlength hslots =>
    unfold Builder.setDefault at hset
    dsimp only at hset
    split at hset
    · cases hset
    · rename_i field hfield
      split at hset
      · cases hset
      · rename_i j hj
        split at hset
        · cases hset
        · rename_i v hv
          obtain ⟨-, rfl⟩ := EStateM.Result.ok.inj hset
          refine .record hd (by rw [List.length_set, hlength]) ?_
          refine slots_set .default hslots (fun i => rfl) ?_
          intro f hf
          obtain rfl := Option.some.inj (hfield.symm.trans hf)
          intro v' hv'
          rw [value?] at hv'
          exact Except.ok.inj hv' ▸ .default hj hv
  | _ => cases hset

/-- **A part that is opened** starts afresh, and what it yields is held once it
is put back. -/
theorem Holds.enter {part : Opening} {close : Builder → Builder}
    {child : Builder} (h : Holds s steps t b)
    (henter : Builder.enter s part b = .ok close child) :
    ∃ type, child = fresh s type ∧ ∀ inner child',
      Yields s type inner child' →
      Holds s (steps ++ [.within part inner]) t (close child') := by
  cases h with
  | leaf hreceived => cases part <;> cases henter
  | @record name r slots hd hlength hslots =>
    cases part with
    | field index =>
      unfold Builder.enter at henter
      dsimp only at henter
      split at henter
      · cases henter
      · rename_i field hfield
        obtain ⟨rfl, rfl⟩ := EStateM.Result.ok.inj henter
        refine ⟨field.type, rfl, fun inner child' hyields => ?_⟩
        refine .record hd (by rw [List.length_set, hlength]) ?_
        refine slots_set (.opened inner) hslots (fun i => rfl) ?_
        intro f hf
        obtain rfl := Option.some.inj (hfield.symm.trans hf)
        exact fun v hv => .opened (hyields v hv)
    | _ => cases henter
  | @array type items hitems =>
    cases part with
    | item =>
      obtain ⟨rfl, rfl⟩ := EStateM.Result.ok.inj henter
      refine ⟨type, rfl, fun inner child' hyields => .array ?_⟩
      have hopened : (steps ++ [SinkStep.within .item inner]).filterMap
            SinkStep.item?
          = steps.filterMap SinkStep.item? ++ [inner] :=
        filterMap_concat_of_some rfl
      rw [hopened, List.reverse_cons]
      exact List.rel_append hitems (.cons hyields .nil)
    | _ => cases henter
  | @map type entries hentries =>
    cases part with
    | entry key =>
      obtain ⟨rfl, rfl⟩ := EStateM.Result.ok.inj henter
      refine ⟨type, rfl, fun inner child' hyields => .map ?_⟩
      have hopened : (steps ++ [SinkStep.within (.entry key) inner]).filterMap
            SinkStep.entry?
          = steps.filterMap SinkStep.entry? ++ [(key, inner)] :=
        filterMap_concat_of_some rfl
      rw [hopened, List.reverse_cons]
      exact List.rel_append hentries (.cons ⟨rfl, hyields⟩ .nil)
    | _ => cases henter
  | @union branches selected hselected =>
    cases part with
    | field index =>
      unfold Builder.enter at henter
      dsimp only at henter
      split at henter
      · cases henter
      · rename_i type htype
        obtain ⟨rfl, rfl⟩ := EStateM.Result.ok.inj henter
        refine ⟨type, rfl, fun inner child' hyields => .union ?_⟩
        intro i part hpart
        obtain ⟨rfl, rfl⟩ := Prod.mk.inj (Option.some.inj hpart)
        exact ⟨type, inner, htype, latest_concat_of_some rfl, hyields⟩
    | _ => cases henter

mutual

/-- **A step that succeeds is held**, from what is held before it. -/
theorem Holds.perform : ∀ (step : SinkStep) {t : TypeExpr}
    {steps : List SinkStep} {b : Builder}, Holds s steps t b →
    ((sink s).perform step b).1.Accepted →
    Holds s (steps ++ [step]) t ((sink s).perform step b).2
  | .set x, t, steps, b, h, haccepted => by
    rw [Sink.perform] at haccepted ⊢
    cases hset : (sink s).set x b with
    | ok a b' => exact h.set hset
    | error e b' =>
      rw [hset] at haccepted
      exact haccepted.elim
  | .setDefault index, t, steps, b, h, haccepted => by
    rw [Sink.perform] at haccepted ⊢
    cases hset : (sink s).setDefault index b with
    | ok a b' => exact h.setDefault hset
    | error e b' =>
      rw [hset] at haccepted
      exact haccepted.elim
  | .finalize, t, steps, b, h, haccepted => by
    rw [Sink.perform]
    exact h.concat_idle SinkStep.idle_finalize
  | .typeName, t, steps, b, h, haccepted => by
    rw [Sink.perform]
    exact h.concat_idle SinkStep.idle_typeName
  | .within part inner, t, steps, b, h, haccepted => by
    rw [Sink.perform] at haccepted ⊢
    cases henter : (sink s).enter part b with
    | error e b' =>
      rw [henter] at haccepted
      exact haccepted.elim
    | ok close child =>
      rw [henter] at haccepted
      obtain ⟨type, rfl, hclose⟩ := h.enter henter
      -- The child is fresh: it holds what `inner` delivers and nothing else.
      exact hclose inner _
        (Holds.performAll inner (holds_fresh s type) haccepted).yields

/-- **Steps that succeed are held**, from what is held before them. -/
theorem Holds.performAll : ∀ (others : List SinkStep) {t : TypeExpr}
    {steps : List SinkStep} {b : Builder}, Holds s steps t b →
    StepOutcome.AllAccepted ((sink s).performAll others b).1 →
    Holds s (steps ++ others) t ((sink s).performAll others b).2
  | [], t, steps, b, h, _ => (List.append_nil steps).symm ▸ h
  | step :: rest, t, steps, b, h, haccepted => by
    rw [Sink.performAll_cons] at haccepted ⊢
    rw [← List.singleton_append, ← List.append_assoc]
    exact Holds.performAll rest (Holds.perform step h haccepted.1) haccepted.2

end

/-- **A run of a script** on the builder of a type: the outcomes of the steps
and the builder in the end. -/
def run (s : Schema) (t : TypeExpr) (steps : List SinkStep) :
    List StepOutcome × Builder :=
  (sink s).performAll steps (fresh s t)

/-- **What a builder builds**: the steps of a script that succeeded are by
themselves all accepted and lead to the same builder, so that refused calls have
no effect. What is then built is a value of the type, and is the one that these
steps assemble. -/
theorem run_builds {source : String} (h : Schema.parse source = .ok s)
    (t : TypeExpr) (script : List SinkStep) {succeeded : List SinkStep}
    (hsucceeded : SinkStep.succeeded script (run s t script).1 = succeeded) :
    (run s t succeeded).2 = (run s t script).2
    ∧ StepOutcome.AllAccepted (run s t succeeded).1
    ∧ ∀ v, (run s t script).2.value? s = .ok v → v.Conforms s t
      ∧ Assembles s t succeeded v
      ∧ ∀ v', Assembles s t succeeded v' → v' = v := by
  have hleads : (sink s).Leads succeeded (fresh s t) (run s t script).2 :=
    hsucceeded ▸ (careful s).leads_succeeded script (fresh s t)
  refine ⟨hleads.ends, hleads.accepted, fun v hv => ?_⟩
  have hholds := (holds_fresh s t).performAll succeeded hleads.accepted
  rw [hleads.ends] at hholds
  have hassembles := hholds.yields v hv
  exact ⟨hassembles.conforms (Schema.parse_wellFormed h).ordered, hassembles,
    fun v' h' => h'.unique hassembles⟩

end Builder

/-! ## A record that is built

A script on the builder of a record opens one key twice, selects two branches
one after the other, and goes on after three refusals. -/

namespace Ledger

/-- The document. -/
def text : String :=
  "\x7b\"type\":\"record\",\"name\":\"R\",\"fields\":[" ++
    "\x7b\"name\":\"m\",\"type\":\x7b\"type\":\"map\"," ++
    "\"values\":\"int\"\x7d\x7d," ++
    "\x7b\"name\":\"u\",\"type\":[\"null\",\"long\"]\x7d," ++
    "\x7b\"name\":\"d\",\"type\":\"int\",\"default\":3\x7d]\x7d"

/-- The schema. -/
def schema : Schema where
  root := .named ⟨"R", ""⟩
  definitions :=
    [.record ⟨⟨"R", ""⟩, [],
      [⟨"m", .map (.primitive .int), [], none, none⟩,
        ⟨"u", .union [.primitive .null, .primitive .long], [], none, none⟩,
        ⟨"d", .primitive .int, [], some (.integer 3), none⟩], none⟩]
  source := text

/-- The script. -/
def script : List SinkStep :=
  [.set (.int 1),
    .within (.field 0)
      [.within (.entry "k") [.set (.int 1)],
        .within (.entry "k") [.set (.string "x"), .set (.int 2)]],
    .within (.field 1) [.within (.field 1) [.set (.long 5)], .set (.long 0)],
    .setDefault 2,
    .setDefault 0]

/-- What succeeds of the script. -/
def succeeded : List SinkStep :=
  [.within (.field 0)
      [.within (.entry "k") [.set (.int 1)],
        .within (.entry "k") [.set (.int 2)]],
    .within (.field 1) [.within (.field 1) [.set (.long 5)], .set (.long 0)],
    .setDefault 2]

/-- What is built. -/
def value : Value :=
  .record [("m", .map [("k", .int 2)]), ("u", .union 0 .null), ("d", .int 3)]

theorem parse_text : Schema.parse text = .ok schema := by
  have hchars : text.toList = _ :=
    toList_append_eq (toList_append_eq (toList_append_eq (toList_append_eq
      String.toList_ofList String.toList_ofList) String.toList_ofList)
      String.toList_ofList) String.toList_ofList
  rw [Schema.parse, Json.parse, hchars]
  cbv

/-- The builder takes what succeeds and refuses the rest. -/
theorem succeeded_script :
    SinkStep.succeeded script (Builder.run schema schema.root script).1
      = succeeded := by
  cbv

theorem value?_script :
    (Builder.run schema schema.root script).2.value? schema = .ok value := by
  cbv

end Ledger

/-- The script builds the value that its last deliveries assemble. -/
theorem Builder.run_builds_ledger :
    Schema.parse Ledger.text = .ok Ledger.schema
    ∧ SinkStep.succeeded Ledger.script
      (Builder.run Ledger.schema Ledger.schema.root Ledger.script).1
        = Ledger.succeeded
    ∧ (Builder.run Ledger.schema Ledger.schema.root Ledger.script).2.value?
      Ledger.schema = .ok Ledger.value
    ∧ Ledger.value.Conforms Ledger.schema Ledger.schema.root
    ∧ Assembles Ledger.schema Ledger.schema.root Ledger.succeeded
      Ledger.value
    ∧ ∀ v, Assembles Ledger.schema Ledger.schema.root Ledger.succeeded v →
      v = Ledger.value := by
  obtain ⟨-, -, hbuilt⟩ := Builder.run_builds Ledger.parse_text
    Ledger.schema.root Ledger.script Ledger.succeeded_script
  exact ⟨Ledger.parse_text, Ledger.succeeded_script, Ledger.value?_script,
    hbuilt _ Ledger.value?_script⟩

end Avro
