import Avro.Proofs.Decoding.Discarding
import Avro.Sink.Builder

/-!
# What is delivered

A plan that delivers data as a type, run on a builder of the type that has
received nothing, leaves a builder that has received the value that is decoded
(`Plan.Delivers`). No call is refused on the way, so the plan fails only where
decoding fails.

What is null receives nothing, and nothing is opened for it. Such a plan is
run on the builder around it, which it leaves as it is; `Builder.Received`
says both.

Here are the rules for the kinds of plans that are not records.
-/

namespace Avro

namespace Builder

/-- **What a builder has received** for a type: null is not delivered, and
anything else is the builder's value. -/
def Received (reader : Schema) (r : TypeExpr) (s s' : Builder) (v : Value) :
    Prop :=
  if r.isNull then s' = s ∧ v = .null else s'.value? reader = .ok v

/-- The builder of null has received null. -/
theorem value?_fresh_null (reader : Schema) :
    (fresh reader (.primitive .null)).value? reader = .ok .null := by
  rw [fresh, Schema.shape?]
  dsimp only
  rw [value?]

/-- What a fresh builder has received is its value. -/
theorem Received.value? {reader : Schema} {r : TypeExpr} {s' : Builder}
    {v : Value} (h : Received reader r (fresh reader r) s' v) :
    s'.value? reader = .ok v := by
  unfold Received at h
  split at h
  · rename_i hnull
    obtain ⟨rfl, rfl⟩ := h
    rw [TypeExpr.isNull_iff.mp hnull]
    exact value?_fresh_null reader
  · exact h

/-- A number below a bound is found again in its long. -/
theorem position?_ofNat {index bound : Nat} (h : index < bound)
    (hbound : bound ≤ 0x8000000000000000) :
    position? (Int64.ofNat index) bound = some index := by
  have hn : (Int64.ofNat index).toInt = index :=
    Int64.toInt_ofNat_of_lt (by omega)
  rw [position?, hn, if_pos ⟨by omega, by omega⟩, Int.toNat_natCast]

end Builder

namespace Plan

variable {reader : Schema} {limit levels : Nat} {body : Demand → Plan}

variable (reader limit levels body) in
/-- **A plan delivers** what is decoded, as a type. -/
def Delivers (plan : Plan) (r : TypeExpr) (m : Decoding Value) : Prop :=
  ∀ frame input s, (r.isNull = false → s = Builder.fresh reader r) →
    Decoding.Gives (m levels input)
      (fun v left => ∃ frame' s',
        eval (Builder.sink reader) limit body levels plan frame (input, s)
          = .ok frame' (left, s') ∧ Builder.Received reader r s s' v)
      (fun cause left => ∃ s',
        eval (Builder.sink reader) limit body levels plan frame (input, s)
          = .error cause (left, s'))

/-! ## Levels below -/

/-- What is said of a plan that starts with blank registers is said of the
level below on which it runs. -/
theorem beneath_gives {α : Type} {plan : Plan} {m : Decoding α}
    {P : α → Builder → Prop} {input : Input} {s : Builder}
    (h : ∀ l, levels = l + 1 → Decoding.Gives (m l input)
      (fun a left => ∃ frame' s',
        eval (Builder.sink reader) limit body l plan .blank (input, s)
          = .ok frame' (left, s') ∧ P a s')
      (fun cause left => ∃ s',
        eval (Builder.sink reader) limit body l plan .blank (input, s)
          = .error cause (left, s'))) :
    Decoding.Gives (Decoding.deeper limit m levels input)
      (fun a left => ∃ s', beneath limit
        (evalBelow (Builder.sink reader) limit body levels) plan (input, s)
          = .ok () (left, s') ∧ P a s')
      (fun cause left => ∃ s', beneath limit
        (evalBelow (Builder.sink reader) limit body levels) plan (input, s)
          = .error cause (left, s')) := by
  cases levels with
  | zero => exact ⟨s, rfl⟩
  | succ l =>
    have hbeneath : beneath limit
        (evalBelow (Builder.sink reader) limit body (l + 1)) plan
        = (do let _ ← eval (Builder.sink reader) limit body l plan .blank) :=
      rfl
    rw [show Decoding.deeper limit m (l + 1) input = m l input from rfl,
      hbeneath]
    exact (h l rfl).imp
      (fun _ _ ⟨_, s', hm, hv⟩ => ⟨s', Running.bind_ok hm, hv⟩)
      fun _ _ ⟨s', hm⟩ => ⟨s', Running.bind_error hm⟩

/-- A level below that delivers. -/
theorem Delivers.beneath {plan : Plan} {r : TypeExpr} {m : Decoding Value}
    (h : ∀ l, levels = l + 1 → Delivers reader limit l body plan r m)
    (input : Input) (s : Builder)
    (hs : r.isNull = false → s = Builder.fresh reader r) :
    Decoding.Gives (Decoding.deeper limit m levels input)
      (fun v left => ∃ s', Plan.beneath limit
        (evalBelow (Builder.sink reader) limit body levels) plan (input, s)
          = .ok () (left, s') ∧ Builder.Received reader r s s' v)
      (fun cause left => ∃ s', Plan.beneath limit
        (evalBelow (Builder.sink reader) limit body levels) plan (input, s)
          = .error cause (left, s')) :=
  beneath_gives fun l hl => h l hl .blank input s hs

/-- A call of a method that delivers. -/
theorem Delivers.call {demand : Demand} {r : TypeExpr} {m : Decoding Value}
    (h : ∀ l, levels = l + 1 →
      Delivers reader limit l body (body demand) r m) :
    Delivers reader limit levels body (.call demand) r
      (Decoding.deeper limit m) := by
  intro frame input s hs
  rw [eval_eq, evalWith]
  exact (Delivers.beneath h input s hs).imp
    (fun _ _ ⟨s', hb, hv⟩ => ⟨frame, s', Running.bind_ok hb, hv⟩)
    fun _ _ ⟨s', hb⟩ => ⟨s', Running.bind_error hb⟩

/-- **An opened part receives what is delivered into it.** -/
theorem Delivers.opened {plan : Plan} {r : TypeExpr} {m : Decoding Value}
    (h : ∀ l, levels = l + 1 → Delivers reader limit l body plan r m)
    {opening : Instruction} {frame frame' : Frame} {input : Input}
    {s : Builder} {put : Builder → Builder}
    (hopen : step [] (Builder.sink reader) opening 0 frame input s
      = .descend 1 (Builder.fresh reader r) put (· + 1) frame' input)
    (label : String) :
    Decoding.Gives (Decoding.deeper limit m levels input)
      (fun v left => ∃ b, eval (Builder.sink reader) limit body levels
          (.within opening label plan) frame (input, s)
          = .ok frame' (left, put b) ∧ b.value? reader = .ok v)
      (fun cause left => ∃ s', eval (Builder.sink reader) limit body levels
          (.within opening label plan) frame (input, s)
          = .error cause (left, s')) := by
  rw [eval_eq, evalWith, Plan.opened]
  simp only [hopen, beneathPart]
  refine (Delivers.beneath h input (Builder.fresh reader r)
    (fun _ => rfl)).imp (fun v left hb => ?_) fun cause left hb => ?_
  · obtain ⟨s', hb, hv⟩ := hb
    rw [Running.bind_ok hb]
    exact ⟨s', rfl, hv.value?⟩
  · obtain ⟨s', hb⟩ := hb
    rw [Running.bind_error hb]
    exact ⟨put s', rfl⟩

/-- **A part that is entered**: a field of a record or a branch of a union.
What is null is not opened. -/
theorem Delivers.entering {plan : Plan} {r : TypeExpr} {m : Decoding Value}
    (h : ∀ l, l ≤ levels → Delivers reader limit l body plan r m)
    {index : Nat} (hindex : index < 0x8000000000000000) {s : Builder}
    {put : Builder → Builder}
    (hopen : r.isNull = false → Builder.enter reader (.field index) s
      = .ok put (Builder.fresh reader r))
    (label : String) (frame : Frame) (input : Input) :
    Decoding.Gives (Decoding.entered limit r m levels input)
      (fun v left => ∃ frame' s',
        eval (Builder.sink reader) limit body levels
          (Plan.entering r index label plan) frame (input, s)
          = .ok frame' (left, s')
        ∧ if r.isNull then s' = s ∧ v = .null
          else ∃ b, s' = put b ∧ b.value? reader = .ok v)
      (fun cause left => ∃ s',
        eval (Builder.sink reader) limit body levels
          (Plan.entering r index label plan) frame (input, s)
          = .error cause (left, s')) := by
  unfold Decoding.entered Plan.entering
  cases hnull : r.isNull with
  | true =>
    simp only [if_true]
    refine (h levels (Nat.le_refl _) frame input s (by simp [hnull])).imp
      (fun v left hd => ?_) fun _ _ hd => hd
    obtain ⟨frame', s', hd, hv⟩ := hd
    rw [Builder.Received, hnull, if_pos rfl] at hv
    exact ⟨frame', s', hd, hv⟩
  | false =>
    have hstep : step [] (Builder.sink reader)
        ⟨.enter, Int64.ofNat index, label⟩ 0 frame input s
        = .descend 1 (Builder.fresh reader r) put (· + 1) frame input := by
      have haddress : address? (Int64.ofNat index) = some index :=
        address?_target hindex
      simp only [step, haddress, Builder.sink, hopen hnull, afterOpening]
    simp only [Bool.false_eq_true, if_false]
    refine (Delivers.opened (fun l (hl : levels = l + 1) => h l (by omega))
      hstep label).imp (fun v left hd => ?_) fun _ _ hd => hd
    obtain ⟨b, hd, hv⟩ := hd
    exact ⟨frame, put b, hd, b, rfl, hv⟩

/-! ## Selecting a branch -/

/-- **Selecting a branch**: the number is made in the long register and
delivered, and what comes after goes on. -/
theorem eval_selected {σ : Type} (k : Sink σ) (index : Nat) (label : String)
    (rest : Plan) (frame : Frame) (input : Input) (s : σ) :
    eval k limit body levels
        (Code.sequence [.op ⟨.multLong, 0, label⟩,
          .op ⟨.addLong, Int64.ofNat index, label⟩, set .long label, rest])
        frame (input, s)
      = match k.set (.long (Int64.ofNat index)) s with
        | .ok () s' => eval k limit body levels rest
          { frame with long := Int64.ofNat index } (input, s')
        | .error e s' => .error (.sink e) (input, s') := by
  have hlong : frame.long * 0 + Int64.ofNat index = Int64.ofNat index := by
    rw [Int64.mul_zero, Int64.zero_add]
  have hmult : perform k ⟨.multLong, 0, label⟩ frame (input, s)
      = .ok { frame with long := frame.long * 0 } (input, s) := rfl
  have hadd : perform k ⟨.addLong, Int64.ofNat index, label⟩
      { frame with long := frame.long * 0 } (input, s)
      = .ok { frame with long := Int64.ofNat index } (input, s) := by
    conv_rhs => rw [← hlong]
    rfl
  have hset := @perform_set σ k .long rfl label
    { frame with long := Int64.ofNat index } _ rfl input s
  have hsequence : Code.sequence [.op ⟨.multLong, 0, label⟩,
      .op ⟨.addLong, Int64.ofNat index, label⟩, set .long label, rest]
      = (.seq (.op ⟨.multLong, 0, label⟩)
        (.seq (.op ⟨.addLong, Int64.ofNat index, label⟩)
          (.seq (set .long label) rest)) : Plan) := rfl
  rw [hsequence, eval_eq, evalWith, evalWith, Running.bind_ok hmult, evalWith,
    evalWith, Running.bind_ok hadd, evalWith, Plan.set, evalWith]
  cases hk : k.set (.long (Int64.ofNat index)) s with
  | error e s' =>
    rw [hk] at hset
    exact Running.bind_error hset
  | ok u s' =>
    rw [hk] at hset
    exact Running.bind_ok hset

/-- The value of a union whose selected branch received a value. -/
theorem value?_selected {branches : List TypeExpr} {index : Nat}
    {t : TypeExpr} (ht : branches[index]? = some t) {s' : Builder} {v : Value}
    (h : if t.isNull then
        s' = .union branches (some (index, none)) ∧ v = .null
      else ∃ b, s' = .union branches (some (index, some b))
        ∧ b.value? reader = .ok v) :
    s'.value? reader = .ok (.union index v) := by
  split at h
  · rename_i hnull
    obtain ⟨rfl, rfl⟩ := h
    obtain rfl := TypeExpr.isNull_iff.mp hnull
    rw [Builder.value?, ht]
    rfl
  · obtain ⟨b, rfl, hb⟩ := h
    rw [Builder.value?, hb]
    rfl

section Choosing

variable {R : Demand → Prop} {w : TypeExpr} {label : String}
  {pick : List TypeExpr → Option Nat} {leaf : TypeExpr → Plan}
  {decodeLeaf : TypeExpr → Decoding Value} {most : Nat}

/-- A type that is no union is left to `leaf`. -/
theorem choosing_leaf {r : TypeExpr} (h : r.isUnion = false) :
    choosing w label pick leaf r = leaf r := by
  cases r with
  | union branches => exact absurd h (by simp [TypeExpr.isUnion])
  | primitive p => rw [choosing]; simp
  | array items => rw [choosing]; simp
  | map values => rw [choosing]; simp
  | named name => rw [choosing]; simp

variable (reader limit body R leaf decodeLeaf most) in
/-- What is meant for types that are no unions. -/
def DeliversLeaves : Prop :=
  ∀ t, t.isUnion = false → t.Fits → Accepted R (leaf t) →
    ∀ l, l ≤ most → Delivers reader limit l body (leaf t) t (decodeLeaf t)

mutual

/-- **Deciding a reader's union** delivers what selecting decodes. -/
theorem delivers_choosing
    (hpick : ∀ branches index, pick branches = some index →
      index < branches.length)
    (hleaf : DeliversLeaves reader limit body R leaf decodeLeaf most) :
    ∀ r : TypeExpr, r.Fits → Accepted R (choosing w label pick leaf r) →
      ∀ l, l ≤ most → Delivers reader limit l body
        (choosing w label pick leaf r) r
        (r.select .rejected (Decoding.entered limit) pick decodeLeaf)
  | .union branches, hfits, h, l, hl => by
    intro frame input s hs
    obtain rfl := hs rfl
    rw [choosing] at h ⊢
    rw [TypeExpr.select]
    cases hp : pick branches with
    | none => simp only [hp] at h; exact h.elim
    | some index =>
      simp only [hp] at h ⊢
      have hlt := hpick branches index hp
      obtain ⟨hcount, hall⟩ := hfits
      obtain ⟨t, ht⟩ : ∃ t, branches[index]? = some t :=
        ⟨_, List.getElem?_eq_getElem hlt⟩
      have hset : (Builder.sink reader).set (.long (Int64.ofNat index))
          (Builder.fresh reader (.union branches))
          = .ok () (.union branches (some (index, none))) := by
        simp only [Builder.sink, Builder.fresh, Schema.shape?, Builder.set,
          Builder.position?_ofNat hlt (Nat.le_of_lt hcount), Sink.accept]
      have hd := delivers_choosingBranch hpick hleaf branches index t ht hall
        h.2.2.2 l hl branches ht (Nat.lt_trans hlt hcount)
        { frame with long := Int64.ofNat index } input
      simp only [eval_selected, hset]
      exact hd
  | .primitive p, hfits, h, l, hl => by
    rw [choosing_leaf rfl] at h ⊢
    rw [TypeExpr.select_leaf _ _ _ _ rfl]
    exact hleaf _ rfl hfits h l hl
  | .array items, hfits, h, l, hl => by
    rw [choosing_leaf rfl] at h ⊢
    rw [TypeExpr.select_leaf _ _ _ _ rfl]
    exact hleaf _ rfl hfits h l hl
  | .map values, hfits, h, l, hl => by
    rw [choosing_leaf rfl] at h ⊢
    rw [TypeExpr.select_leaf _ _ _ _ rfl]
    exact hleaf _ rfl hfits h l hl
  | .named name, hfits, h, l, hl => by
    rw [choosing_leaf rfl] at h ⊢
    rw [TypeExpr.select_leaf _ _ _ _ rfl]
    exact hleaf _ rfl hfits h l hl

/-- Going on with a branch, from a union in which it is selected. -/
theorem delivers_choosingBranch
    (hpick : ∀ branches index, pick branches = some index →
      index < branches.length)
    (hleaf : DeliversLeaves reader limit body R leaf decodeLeaf most)
    {index : Nat} :
    ∀ (branches : List TypeExpr) (position : Nat) (t : TypeExpr),
      branches[position]? = some t → TypeExpr.AllFit branches →
      Accepted R (choosingBranch w label pick leaf index position branches) →
      ∀ l, l ≤ most → ∀ all : List TypeExpr, all[index]? = some t →
      index < 0x8000000000000000 → ∀ frame input,
      Decoding.Gives
        (TypeExpr.selectFrom .rejected (Decoding.entered limit) pick decodeLeaf
          index position branches l input)
        (fun v left => ∃ frame' s',
          eval (Builder.sink reader) limit body l
            (choosingBranch w label pick leaf index position branches) frame
            (input, .union all (some (index, none))) = .ok frame' (left, s')
          ∧ s'.value? reader = .ok v)
        (fun cause left => ∃ s',
          eval (Builder.sink reader) limit body l
            (choosingBranch w label pick leaf index position branches) frame
            (input, .union all (some (index, none))) = .error cause (left, s'))
  | [], _, _, h, _, _, _, _, _, _, _, _, _ => absurd h (by simp)
  | branch :: rest, 0, t, ht, hfits, h, l, hl, all, hall, hindex, frame,
      input => by
    obtain rfl : branch = t := by simpa using ht
    rw [choosingBranch] at h ⊢
    rw [TypeExpr.selectFrom]
    have hopen : branch.isNull = false →
        Builder.enter reader (.field index) (.union all (some (index, none)))
          = .ok (fun child => .union all (some (index, some child)))
            (Builder.fresh reader branch) := fun _ => by
      simp only [Builder.enter, hall, Sink.accept]
    have hd := Delivers.entering
      (fun l' (hl' : l' ≤ l) => delivers_choosing hpick hleaf branch hfits.1
        (accepted_entering.mp h) l' (Nat.le_trans hl' hl)) hindex hopen label
      frame input
    exact hd.bind (fun _ _ ⟨frame', s', hd, hv⟩ =>
      ⟨frame', s', hd, value?_selected hall hv⟩) fun _ _ hd => hd
  | branch :: rest, position + 1, t, ht, hfits, h, l, hl, all, hall, hindex,
      frame, input => by
    rw [choosingBranch] at h ⊢
    rw [TypeExpr.selectFrom]
    exact delivers_choosingBranch hpick hleaf rest position t (by simpa using ht)
      hfits.2 h l hl all hall hindex frame input

end

end Choosing

/-! ## Types without parts -/

section Leaves

variable {R : Demand → Prop}

/-- A kind that is promoted to a primitive reads a scalar of it, and the
register of the primitive holds the scalar then. -/
theorem promoted_delivery {w r : Primitive} {kind : Kind}
    (hkind : promotion? w r = some kind) (hnull : ¬ (w = .null ∧ r = .null))
    {input left : Input} {v : Value}
    (h : kind.readValue input = .ok v left) (frame : Frame) :
    ∃ x : Scalar, (frame.after kind v).delivery (.ofPrimitive r) = .scalar x
      ∧ x.value = v ∧ x.primitive = r := by
  cases w <;> cases r <;> simp only [promotion?] at hkind <;>
    first
    | exact absurd ⟨rfl, rfl⟩ hnull
    | (obtain rfl := Option.some.inj hkind
       simp only [Kind.readValue, Kind.ofPrimitive, bind, EStateM.bind, pure,
         EStateM.pure] at h
       split at h
       · obtain ⟨rfl, rfl⟩ := EStateM.Result.ok.inj h
         exact ⟨_, rfl, rfl, rfl⟩
       · exact absurd h (by simp))
    | (simp at hkind)

/-- What a promotion reads is found again in its operand. -/
theorem promotion?_operand {w r : Primitive} {kind : Kind}
    (h : promotion? w r = some kind) :
    Kind.ofOperand? kind.operand = some kind := by
  cases w <;> cases r <;> simp only [promotion?] at h <;>
    first
    | (obtain rfl := Option.some.inj h; rfl)
    | (simp at h)

/-- A scalar is delivered into a builder without parts. -/
theorem eval_set_leaf {kind : Kind}
    (hkind : Kind.ofOperand? kind.operand = some kind) (label : String)
    {frame : Frame} {x : Scalar} (hx : frame.delivery kind = .scalar x)
    {shape : Option Shape} {received : Option Value} {v : Value}
    (hv : Builder.leafValue shape x = .ok v) (input : Input) :
    eval (Builder.sink reader) limit body levels (set kind label) frame
        (input, .leaf shape received)
      = .ok (frame.delivered kind) (input, .leaf shape (some v)) := by
  have hset : (Builder.sink reader).set x (.leaf shape received)
      = .ok () (.leaf shape (some v)) := by
    simp only [Builder.sink]
    rw [Builder.set]
    simp only [hv, Sink.accept]
  rw [eval_eq, set, evalWith, perform_set hkind label hx]
  simp only [hset]

/-- The builder of a primitive other than null. -/
theorem fresh_primitive {p : Primitive} (h : p ≠ .null) :
    Builder.fresh reader (.primitive p)
      = .leaf (some (.primitive p)) none := by
  cases p <;> first | rfl | exact absurd rfl h

/-- **A primitive is delivered as another.** -/
theorem delivers_primitive (w r : Primitive) (label : String)
    (h : Accepted R (deliverPrimitive w r label)) :
    Delivers reader limit levels body (deliverPrimitive w r label)
      (.primitive r) (w.decode r) := by
  intro frame input s hs
  unfold deliverPrimitive at h ⊢
  unfold Primitive.decode
  by_cases hnull : w = .null ∧ r = .null
  · rw [if_pos hnull, if_pos hnull]
    refine ⟨frame, s, by rw [eval_eq, evalWith]; rfl, ?_⟩
    obtain ⟨-, rfl⟩ := hnull
    exact ⟨rfl, rfl⟩
  · rw [if_neg hnull] at h
    rw [if_neg hnull, if_neg hnull]
    cases hkind : promotion? w r with
    | none => simp only [hkind] at h; exact h.elim
    | some kind =>
      have hr : r ≠ .null := by
        rintro rfl
        cases w <;> simp [promotion?] at hkind
        exact hnull ⟨rfl, rfl⟩
      dsimp only
      rw [eval_read_seq (promotion?_operand hkind)]
      unfold Decoding.reading
      cases hread : kind.readValue input with
      | error e left => exact ⟨s, rfl⟩
      | ok v left =>
        obtain ⟨x, hx, hv, hprimitive⟩ :=
          promoted_delivery hkind hnull hread frame
        have hs : s = .leaf (some (.primitive r)) none := by
          rw [← fresh_primitive hr]
          refine hs ?_
          cases r <;> first | rfl | exact absurd rfl hr
        have hvalue : Builder.leafValue (some (.primitive r)) x = .ok v := by
          rw [← hv, ← hprimitive]
          cases x <;> rfl
        have hoperand : Kind.ofOperand? (Kind.ofPrimitive r).operand
            = some (.ofPrimitive r) := by
          cases r <;> rfl
        subst hs
        refine ⟨_, _, eval_set_leaf hoperand label hx hvalue left, ?_⟩
        rw [Builder.Received, if_neg (by cases r <;> simp_all [TypeExpr.isNull]),
          Builder.value?]

/-- Renumbering delivers the number of a case. -/
theorem renumbered_some {σ : Type} (k : Sink σ) (index : Nat) (frame : Frame)
    (input : Input) (s : σ) :
    renumbered k (some index) frame (input, s)
      = match k.set (.long (Int64.ofNat index)) s with
        | .ok () s' =>
          .ok { frame with long := Int64.ofNat index } (input, s')
        | .error e s' => .error (.sink e) (input, s') := by
  simp only [renumbered, Running.calling, bind, EStateM.bind]
  cases k.set (.long (Int64.ofNat index)) s <;> rfl

/-- A symbol that stands for a written one is the reader's. -/
theorem symbolIndex?_lt {r : EnumType} {symbol : String} {index : Nat}
    (h : (r.symbolIndex? symbol).or (r.default.bind r.symbolIndex?)
      = some index) : index < r.symbols.length := by
  have hlt : ∀ {x : String}, r.symbolIndex? x = some index →
      index < r.symbols.length := by
    intro x hx
    obtain ⟨hlt, _⟩ := List.findIdx?_eq_some_iff_getElem.mp hx
    exact hlt
  rcases Option.or_eq_some_iff.mp h with h | ⟨-, h⟩
  · exact hlt h
  · obtain ⟨x, _, hx⟩ := Option.bind_eq_some_iff.mp h
    exact hlt hx

/-- The cases of an enum deliver the symbol of the number. -/
theorem delivers_symbols {r : EnumType}
    (hfits : Countable r.symbols) (message : String) :
    ∀ (symbols : List String) (tag : Nat) (frame : Frame) (input : Input),
      Decoding.Gives
        (r.decodeSymbol message frame.long tag symbols levels input)
        (fun v left => ∃ frame', evalCases (Builder.sink reader) limit body
          (evalBelow (Builder.sink reader) limit body levels) message
          (symbolCases r (r.default.bind r.symbolIndex?) tag symbols) frame
          (input, .leaf (some (.enum r)) none)
          = .ok frame' (left, .leaf (some (.enum r)) (some v)))
        (fun cause left => evalCases (Builder.sink reader) limit body
          (evalBelow (Builder.sink reader) limit body levels) message
          (symbolCases r (r.default.bind r.symbolIndex?) tag symbols) frame
          (input, .leaf (some (.enum r)) none)
          = .error cause (left, .leaf (some (.enum r)) none))
  | [], tag, frame, input => by
    rw [symbolCases, EnumType.decodeSymbol, evalCases]
    rfl
  | symbol :: rest, tag, frame, input => by
    have ih := delivers_symbols hfits message rest (tag + 1) frame input
    rw [symbolCases, EnumType.decodeSymbol]
    cases hindex : (r.symbolIndex? symbol).or
        (r.default.bind r.symbolIndex?) with
    | none => exact ih
    | some index =>
      dsimp only
      rw [evalCases]
      split
      · have hset : (Builder.sink reader).set (.long (Int64.ofNat index))
            (.leaf (some (.enum r)) none)
            = .ok () (.leaf (some (.enum r))
              (some (.enum index (r.symbols.getD index "")))) := by
          simp only [Builder.sink, Builder.set, Builder.leafValue,
            Builder.position?_ofNat (symbolIndex?_lt hindex)
              (Nat.le_of_lt hfits),
            Sink.accept]
        have hrun := renumbered_some (Builder.sink reader) index
          { frame with condition := true } input
          (.leaf (some (.enum r)) none)
        rw [hset] at hrun
        rw [Running.bind_ok hrun, evalWith]
        exact ⟨_, rfl⟩
      · exact ih

/-- **An enum is delivered.** -/
theorem delivers_enum {r : EnumType} {name : FullName}
    (hr : reader.shape? (.named name) = some (.enum r))
    (hfits : Countable r.symbols) (w : EnumType) (label : String) :
    Delivers reader limit levels body (deliverEnum w r label) (.named name)
      (w.decode r) := by
  intro frame input s hs
  obtain rfl := hs rfl
  have hfresh : Builder.fresh reader (.named name)
      = .leaf (some (.enum r)) none := by
    rw [Builder.fresh, hr]
  unfold deliverEnum EnumType.decode
  dsimp only
  rw [hfresh, eval_int_switch]
  cases hread : Wire.readInt input with
  | error e left =>
    rw [Decoding.bind_error (Decoding.reading_error hread levels)]
    exact ⟨_, rfl⟩
  | ok n left =>
    rw [Decoding.bind_ok (Decoding.reading_ok hread levels)]
    have hd := @delivers_symbols reader limit levels body r hfits
      s!"symbol of `{w.name.text}` is not declared by `{r.name.text}`"
      w.symbols 0 { frame with long := Int64.ofInt n.toInt } left
    refine hd.imp (fun _ _ ⟨frame', hd⟩ => ⟨frame', _, hd, ?_⟩)
      fun _ _ hd => ⟨_, hd⟩
    rw [Builder.Received, if_neg (by simp [TypeExpr.isNull]), Builder.value?]

/-- **A fixed is delivered.** -/
theorem delivers_fixed {w r : FixedType} {name : FullName}
    (hr : reader.shape? (.named name) = some (.fixed r))
    (hkind : Kind.ofOperand? (Kind.fixed w.size).operand
      = some (.fixed w.size)) (label : String)
    (h : Accepted R (deliverFixed w r label)) :
    Delivers reader limit levels body (deliverFixed w r label) (.named name)
      (w.decode r) := by
  intro frame input s hs
  obtain rfl := hs rfl
  have hfresh : Builder.fresh reader (.named name)
      = .leaf (some (.fixed r)) none := by
    rw [Builder.fresh, hr]
  unfold deliverFixed at h ⊢
  unfold FixedType.decode
  by_cases hsize : w.size = r.size
  · rw [if_pos hsize, if_pos hsize, hfresh, eval_read_seq hkind]
    unfold Decoding.reading
    simp only [Kind.readValue, bind, EStateM.bind]
    cases htake : Wire.take w.size input with
    | error e left => exact ⟨_, rfl⟩
    | ok b left =>
      have hlength : b.length = r.size := by
        unfold Wire.take at htake
        dsimp only at htake
        split at htake
        · rename_i hlength
          obtain ⟨rfl, -⟩ := EStateM.Result.ok.inj htake
          exact hlength.trans hsize
        · exact absurd htake (by simp)
      have hvalue : Builder.leafValue (some (.fixed r)) (.bytes b)
          = .ok (.fixed b) := by
        simp only [Builder.leafValue, hlength, if_true]
      refine ⟨_, _, eval_set_leaf rfl label rfl hvalue left, ?_⟩
      rw [Builder.Received, if_neg (by simp [TypeExpr.isNull]),
        Builder.value?]
  · rw [if_neg hsize] at h
    exact h.elim

end Leaves

/-! ## Arrays and maps -/

section Loops

variable {items values : TypeExpr} {plan : Plan} {m : Decoding Value}

/-- The builder of an array that holds items, both the latest first. -/
def HoldsItems (reader : Schema) (items : TypeExpr) (s : Builder)
    (its : List Value) : Prop :=
  ∃ latest, s = .array items latest ∧ Builder.itemValues reader latest = .ok its

/-- The builder of a map that holds entries, both the latest first. -/
def HoldsEntries (reader : Schema) (values : TypeExpr) (s : Builder)
    (pairs : List (String × Value)) : Prop :=
  ∃ latest, s = .map values latest
    ∧ Builder.entryValues reader latest = .ok pairs

/-- An item is appended to an array. -/
theorem delivers_item
    (h : ∀ l, l < levels → Delivers reader limit l body plan items m)
    (label : String) (input : Input) (s : Builder) (its : List Value)
    (hs : HoldsItems reader items s its) :
    Decoding.Gives
      (Decoding.deeper limit (Decoding.deeper limit m) levels input)
      (fun v left => ∃ s', beneath limit
        (evalBelow (Builder.sink reader) limit body levels)
        (.within ⟨.appendArray, 0, label⟩ label plan) (input, s)
          = .ok () (left, s') ∧ HoldsItems reader items s' (v :: its))
      (fun cause left => ∃ s', beneath limit
        (evalBelow (Builder.sink reader) limit body levels)
        (.within ⟨.appendArray, 0, label⟩ label plan) (input, s)
          = .error cause (left, s') ∧ True) := by
  obtain ⟨latest, rfl, hits⟩ := hs
  simp only [and_true]
  refine beneath_gives fun l hl => ?_
  have hopen : step [] (Builder.sink reader) ⟨.appendArray, 0, label⟩ 0 .blank
      input (.array items latest)
      = .descend 1 (Builder.fresh reader items)
        (fun child => .array items (child :: latest)) (· + 1) .blank input :=
    rfl
  have hd := Delivers.opened
    (fun l' (hl' : l = l' + 1) => h l' (by omega)) hopen label
  refine hd.imp (fun _ _ ⟨b, hd, hv⟩ => ⟨_, _, hd, b :: latest, rfl, ?_⟩)
    fun _ _ hd => hd
  rw [Builder.itemValues, hits]
  dsimp only
  rw [hv]
  rfl

/-- **An array is delivered** item by item. -/
theorem delivers_array
    (h : ∀ l, l < levels → Delivers reader limit l body plan items m)
    (label : String) :
    Delivers reader limit levels body
      (.blocks label (.within ⟨.appendArray, 0, label⟩ label plan))
      (.array items)
      (do
        let values ← Decoding.blocks limit (Decoding.deeper limit m)
        return .array values) := by
  intro frame input s hs
  obtain rfl := hs rfl
  have hloop := Decoding.blocks_follow _ (Decoding.deeper limit m)
    (HoldsItems reader items) (fun _ => True) (fun _ _ _ => trivial)
    (delivers_item h label) input ⟨[], rfl, rfl⟩
  rw [eval_eq, evalWith]
  refine hloop.bind (fun its left hloop => ?_)
    fun _ _ ⟨s', hloop, _⟩ => ⟨s', Running.bind_error hloop⟩
  obtain ⟨s', hloop, latest, rfl, hits⟩ := hloop
  refine ⟨_, _, Running.bind_ok hloop, ?_⟩
  rw [Builder.Received, if_neg (by simp [TypeExpr.isNull]), Builder.value?,
    hits]
  show Except.ok (Value.array its.reverse.reverse) = _
  rw [List.reverse_reverse]

/-- An entry is appended to a map. -/
theorem delivers_entry
    (h : ∀ l, l < levels → Delivers reader limit l body plan values m)
    (keyLabel label : String) (input : Input) (s : Builder)
    (pairs : List (String × Value)) (hs : HoldsEntries reader values s pairs) :
    Decoding.Gives
      (Decoding.deeper limit (do
        let key ← Decoding.reading Wire.readString
        let v ← Decoding.deeper limit m
        return (key, v)) levels input)
      (fun p left => ∃ s', beneath limit
        (evalBelow (Builder.sink reader) limit body levels)
        (.seq (read .string keyLabel)
          (.within ⟨.appendMap, 0, label⟩ label plan)) (input, s)
          = .ok () (left, s') ∧ HoldsEntries reader values s' (p :: pairs))
      (fun cause left => ∃ s', beneath limit
        (evalBelow (Builder.sink reader) limit body levels)
        (.seq (read .string keyLabel)
          (.within ⟨.appendMap, 0, label⟩ label plan)) (input, s)
          = .error cause (left, s') ∧ True) := by
  obtain ⟨latest, rfl, hpairs⟩ := hs
  simp only [and_true]
  refine beneath_gives fun l hl => ?_
  rw [eval_string_seq]
  cases hkey : Wire.readString input with
  | error e left =>
    rw [Decoding.bind_error (Decoding.reading_error hkey l)]
    exact ⟨_, rfl⟩
  | ok key left =>
    rw [Decoding.bind_ok (Decoding.reading_ok hkey l)]
    have hopen : step [] (Builder.sink reader) ⟨.appendMap, 0, label⟩ 0
        { Frame.blank with string := key } left (.map values latest)
        = .descend 1 (Builder.fresh reader values)
          (fun child => .map values ((key, child) :: latest)) (· + 1)
          .blank left := rfl
    have hd := Delivers.opened
      (fun l' (hl' : l = l' + 1) => h l' (by omega)) hopen label
    refine hd.bind (fun _ _ ⟨b, hd, hv⟩ =>
      ⟨_, _, hd, (key, b) :: latest, rfl, ?_⟩) fun _ _ hd => hd
    rw [Builder.entryValues, hpairs]
    dsimp only
    rw [hv]
    rfl

/-- **A map is delivered** entry by entry. Of entries with the same key the
last one stays. -/
theorem delivers_map
    (h : ∀ l, l < levels → Delivers reader limit l body plan values m)
    (keyLabel label : String) :
    Delivers reader limit levels body
      (.blocks label (.seq (read .string keyLabel)
        (.within ⟨.appendMap, 0, label⟩ label plan)))
      (.map values)
      (do
        let pairs ← Decoding.blocks limit (do
          let key ← Decoding.reading Wire.readString
          let v ← Decoding.deeper limit m
          return (key, v))
        return .map (Entries.ofList pairs)) := by
  intro frame input s hs
  obtain rfl := hs rfl
  have hloop := Decoding.blocks_follow _ _
    (HoldsEntries reader values) (fun _ => True) (fun _ _ _ => trivial)
    (delivers_entry h keyLabel label) input ⟨[], rfl, rfl⟩
  rw [eval_eq, evalWith]
  refine hloop.bind (fun pairs left hloop => ?_)
    fun _ _ ⟨s', hloop, _⟩ => ⟨s', Running.bind_error hloop⟩
  obtain ⟨s', hloop, latest, rfl, hpairs⟩ := hloop
  refine ⟨_, _, Running.bind_ok hloop, ?_⟩
  rw [Builder.Received, if_neg (by simp [TypeExpr.isNull]), Builder.value?,
    hpairs]
  show Except.ok (Value.map (Entries.ofList pairs.reverse.reverse)) = _
  rw [List.reverse_reverse]

end Loops

end Plan

end Avro
