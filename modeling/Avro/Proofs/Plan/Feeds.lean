import Avro.Proofs.Decoding.Records
import Avro.Proofs.Plan.Demands

/-!
# What the method of a record feeds

Code feeds a field of the record that it works on by opening it, with code for
the field, or by giving it its default. `Code.feeds` reads both off the tree,
in their order.

The method that reads a record into another is a sequence of such feeds and of
plans that are quiet: they read, and the sink does not hear of it
(`Plan.Quiet`). Dropping a written field is quiet, and so is reading one as
null. A field is fed by every written field that it receives, and by its
default if there is none (`Plan.feedsAt_recordBody`).
-/

namespace Avro

/-! ## Feeds -/

namespace Code

variable {χ μ ε : Type}

mutual

/-- **What code feeds to the fields of the record that it works on**: every
field that is opened, with the code for it, and every field that is given its
default. Code on a part of the record is not code on the record, and calls are
not followed. -/
def feeds : Code χ μ ε → List (Nat × Option (Code χ μ ε))
  | nothing | call _ | reject _ => []
  | seq first second => feeds first ++ feeds second
  | op i =>
    if i.op = .setDefault then (address? i.operand).toList.map (·, none) else []
  | within opening _ body =>
    if opening.op = .enter then
      (address? opening.operand).toList.map (·, some body)
    else []
  | blocks _ body => feeds body
  | switch _ _ cases => feedsIn cases

/-- What the code in cases feeds. -/
def feedsIn : Cases χ μ ε → List (Nat × Option (Code χ μ ε))
  | .none => []
  | .case _ _ body rest => feeds body ++ feedsIn rest

end

/-- **What code feeds to one field**: the code for the field or, for a default,
nothing. -/
def feedsAt (code : Code χ μ ε) (index : Nat) : List (Option (Code χ μ ε)) :=
  code.feeds.filterMap fun feed => if feed.1 = index then some feed.2 else none

/-- Codes feed one after the other. -/
theorem feeds_sequence : ∀ codes : List (Code χ μ ε),
    (sequence codes).feeds = codes.flatMap feeds
  | [] => rfl
  | [code] => (List.append_nil _).symm
  | code :: second :: rest => by
    show feeds code ++ (sequence (second :: rest)).feeds = _
    rw [feeds_sequence (second :: rest)]
    rfl

/-- Codes feed a field one after the other. -/
theorem feedsAt_sequence (codes : List (Code χ μ ε)) (index : Nat) :
    (sequence codes).feedsAt index
      = codes.flatMap fun code => code.feedsAt index := by
  rw [feedsAt, feeds_sequence, List.filterMap_flatMap]
  rfl

end Code

/-! ## The fields that a field receives -/

/-- **The written fields that a field of a record receives.** -/
def RecordType.receivedBy (rd : RecordType) (index : Nat)
    (written : List Field) : List Field :=
  written.filter fun wf => rd.receivingIndex? wf.name = some index

namespace Plan

variable {writer reader : Schema}

/-! ## Quiet plans -/

mutual

/-- **A plan is quiet**: it reads and calls methods that drop records, and
delivers nothing. -/
def Quiet : Plan → Prop
  | .nothing | .reject _ => True
  | .seq first second => Quiet first ∧ Quiet second
  | .op i => i.op = .read
  | .within _ _ _ => False
  | .blocks _ inner => Quiet inner
  | .switch _ _ cases => AllQuiet cases
  | .call demand => ∃ w, demand = .discard w

/-- No case delivers a number, and the plans in the cases are quiet. -/
def AllQuiet : PlanCases → Prop
  | .none => True
  | .case _ delivered inner rest =>
    delivered = none ∧ Quiet inner ∧ AllQuiet rest

end

mutual

/-- **A quiet plan feeds nothing.** -/
theorem Quiet.feeds_eq : ∀ {plan : Plan}, Quiet plan → plan.feeds = []
  | .nothing, _ | .reject _, _ | .call _, _ => rfl
  | .seq _ _, h => by rw [Code.feeds, h.1.feeds_eq, h.2.feeds_eq]; rfl
  | .op i, h => if_neg (by rw [show i.op = .read from h]; simp)
  | .within _ _ _, h => h.elim
  | .blocks _ inner, h => (show Quiet inner from h).feeds_eq
  | .switch _ _ cases, h => (show AllQuiet cases from h).feedsIn_eq

theorem AllQuiet.feedsIn_eq : ∀ {cases : PlanCases}, AllQuiet cases →
    Code.feedsIn cases = []
  | .none, _ => rfl
  | .case _ _ _ _, h => by
    rw [Code.feedsIn, h.2.1.feeds_eq, h.2.2.feedsIn_eq]
    rfl

end

theorem discardClosed_quiet :
    DiscardClosed writer (fun _ => True) Quiet (fun _ => AllQuiet) where
  items _ := trivial
  values _ := trivial
  branches _ _ _ := trivial
  nothing := trivial
  seq h h' := ⟨h, h'⟩
  read _ _ := rfl
  blocks _ h := h
  switch _ _ h := h
  noCase _ := trivial
  case h h' := ⟨rfl, h, h'⟩
  discards _ := ⟨_, rfl⟩
  undefined _ _ := trivial

/-- **Dropping data is quiet.** -/
theorem quiet_discard (t : TypeExpr) (label : String) :
    Quiet (discard writer t label) :=
  discardClosed_quiet.discard t label trivial

mutual

/-- **Reading data as null is quiet.** -/
theorem quiet_deliver_null : ∀ (t : TypeExpr) (label : String),
    Quiet (deliver writer t reader (.primitive .null) label)
  | .primitive p, label => by
    rw [deliver, choosing_leaf rfl]
    cases p <;> trivial
  | .array items, label => by
    rw [deliver, choosing_leaf rfl]
    trivial
  | .map values, label => by
    rw [deliver, choosing_leaf rfl]
    trivial
  | .named name, label => by
    rw [deliver]
    split
    · trivial
    · rw [choosing_leaf rfl]
      unfold deliverNamed
      split <;> first | trivial | (rename_i hr; cases hr)
  | .union branches, label => by
    rw [deliver]
    simp only [Schema.shape?]
    split
    · trivial
    · exact ⟨rfl, quiet_branchCases_null label 0 branches⟩

theorem quiet_branchCases_null (label : String) :
    ∀ (tag : Nat) (branches : List TypeExpr), AllQuiet
      (branchCases writer label tag branches reader (.primitive .null))
  | _, [] => by rw [branchCases]; trivial
  | tag, branch :: rest => by
    have hrest := quiet_branchCases_null label (tag + 1) rest
    rw [branchCases_cons rfl]
    split
    · exact ⟨rfl, quiet_deliver_null branch label, hrest⟩
    · exact hrest

end

/-! ## The method of a record -/

/-- A field that is opened is fed, and what is null is not opened. -/
theorem feedsAt_entering {r : TypeExpr} {n : Nat}
    (hn : n < 0x8000000000000000) {label : String} {plan : Plan}
    (hnull : r.isNull = true → plan.Quiet) (index : Nat) :
    (entering r n label plan).feedsAt index
      = if r.isNull = false ∧ n = index then [some plan] else [] := by
  unfold entering
  cases hr : r.isNull with
  | true =>
    rw [if_pos rfl, if_neg (by simp), Code.feedsAt, (hnull hr).feeds_eq]
    rfl
  | false =>
    have haddress : address? (Int64.ofNat n) = some n := address?_target hn
    rw [if_neg Bool.false_ne_true, Code.feedsAt, Code.feeds, if_pos rfl,
      haddress]
    by_cases h : n = index <;> simp [h]

section Record

variable {wd rd : RecordType} {index : Nat} {rf : Field}
  (hcount : Countable rd.fields) (hrf : rd.fields[index]? = some rf)

include hcount hrf

/-- **A field is fed by the written fields that it receives**, in their
order. -/
theorem feedsAt_writtenFields : ∀ fields : List Field,
    (writtenFields writer wd reader rd fields).flatMap
        (fun plan => plan.feedsAt index)
      = if rf.type.isNull then []
        else (rd.receivedBy index fields).map fun wf =>
          some (deliver writer wf.type reader rf.type
            (fieldLabel rd.name rf.name))
  | [] => by
    rw [writtenFields]
    split <;> rfl
  | wf :: rest => by
    rw [writtenFields, List.flatMap_cons, feedsAt_writtenFields rest,
      RecordType.receivedBy, RecordType.receivedBy, List.filter_cons]
    cases hreceived : rd.receivingIndex? wf.name with
    | none =>
      have hquiet : (discard writer wf.type
          (fieldLabel wd.name wf.name)).feedsAt index = [] := by
        rw [Code.feedsAt, (quiet_discard _ _).feeds_eq]
        rfl
      simp only [hquiet, List.nil_append]
      rfl
    | some n =>
      obtain ⟨rf', hrf'⟩ : ∃ rf', rd.fields[n]? = some rf' :=
        ⟨_, List.getElem?_eq_getElem (RecordType.receivingIndex?_lt hreceived)⟩
      have hn : n < 0x8000000000000000 :=
        Nat.lt_trans (RecordType.receivingIndex?_lt hreceived) hcount
      simp only [hrf']
      rw [feedsAt_entering hn fun hnull => by
        rw [TypeExpr.isNull_iff.mp hnull]
        exact quiet_deliver_null _ _]
      by_cases hsame : n = index
      · subst hsame
        obtain rfl := Option.some.inj (hrf.symm.trans hrf')
        cases rf.type.isNull <;> simp
      · have hother : ¬ some n = some index := fun h =>
          hsame (Option.some.inj h)
        rw [if_neg fun h => hsame h.2, List.nil_append, decide_eq_false hother]
        rfl

/-- **A field takes its default if no written field is received.** -/
theorem feedsAt_defaultedFields {R : Demand → Prop} {written : List Nat} :
    ∀ (fields : List Field) (first : Nat),
      Accepted R (Code.sequence
        (defaultedFields reader rd written first fields)) →
      rd.fields.drop first = fields →
      (defaultedFields reader rd written first fields).flatMap
          (fun plan => plan.feedsAt index)
        = if first ≤ index ∧ index ∉ written then [none] else []
  | [], first, _, hdrop => by
    obtain ⟨hlt, -⟩ := List.getElem?_eq_some_iff.mp hrf
    have hle := List.drop_eq_nil_iff.mp hdrop
    rw [defaultedFields, if_neg (by omega)]
    rfl
  | field :: rest, first, h, hdrop => by
    have hrest : rd.fields.drop (first + 1) = rest := by
      rw [← List.drop_drop, hdrop]
      rfl
    have hfield : rd.fields[first]? = some field := by
      rw [← Nat.add_zero first, ← List.getElem?_drop, hdrop]
      rfl
    obtain ⟨hlt, -⟩ := List.getElem?_eq_some_iff.mp hfield
    rw [defaultedFields] at h ⊢
    cases hc : written.contains first with
    | true =>
      have hmem : first ∈ written := List.contains_iff_mem.mp hc
      simp only [hc, if_true] at h ⊢
      rw [feedsAt_defaultedFields rest _ h hrest]
      refine if_congr ⟨fun hi => ⟨by omega, hi.2⟩, fun hi => ⟨?_, hi.2⟩⟩ rfl rfl
      refine Nat.lt_of_le_of_ne hi.1 ?_
      rintro rfl
      exact hi.2 hmem
    | false =>
      have hnot : first ∉ written := fun hmem => by
        rw [List.contains_iff_mem.mpr hmem] at hc
        cases hc
      simp only [hc, Bool.false_eq_true, if_false] at h ⊢
      obtain ⟨hdefaulted, h⟩ := accepted_sequence_cons h
      obtain ⟨-, -, -, -, -, hplan⟩ := accepted_defaulted hdefaulted
      have haddress : address? (Int64.ofNat first) = some first :=
        address?_target (Nat.lt_trans hlt hcount)
      rw [List.flatMap_cons, feedsAt_defaultedFields rest _ h hrest, hplan,
        Code.feedsAt, Code.feeds, if_pos rfl, haddress]
      by_cases hsame : first = index
      · subst hsame
        simp [hnot]
      · have hiff : (first + 1 ≤ index ∧ index ∉ written)
            ↔ (first ≤ index ∧ index ∉ written) := by
          rw [Nat.succ_le_iff, Nat.lt_iff_le_and_ne]
          exact ⟨fun hi => ⟨hi.1.1, hi.2⟩, fun hi => ⟨⟨hi.1, hsame⟩, hi.2⟩⟩
        rw [if_congr hiff rfl rfl]
        refine Eq.trans (congrArg (· ++ _) ?_) (List.nil_append _)
        simp [hsame]

/-- **What the method of a record feeds to a field**: its default if no written
field is received, and else what is received, but for a field that is null. -/
theorem feedsAt_recordBody {R : Demand → Prop}
    (h : Accepted R (recordBody writer wd reader rd)) :
    (recordBody writer wd reader rd).feedsAt index
      = if rd.receivedBy index wd.fields = [] then [none]
        else if rf.type.isNull then []
        else (rd.receivedBy index wd.fields).map fun wf =>
          some (deliver writer wf.type reader rf.type
            (fieldLabel rd.name rf.name)) := by
  have hmem : index ∉ wd.fields.filterMap
      (fun wf => rd.receivingIndex? wf.name)
      ↔ rd.receivedBy index wd.fields = [] := by
    simp [RecordType.receivedBy, List.filter_eq_nil_iff]
  unfold recordBody at h ⊢
  rw [Code.feedsAt_sequence, List.flatMap_append,
    feedsAt_writtenFields hcount hrf, feedsAt_defaultedFields hcount hrf _ 0
      (accepted_sequence_append h) rfl]
  simp only [Nat.zero_le, true_and, hmem]
  by_cases hnone : rd.receivedBy index wd.fields = []
  · rw [if_pos hnone, if_pos hnone, hnone]
    cases rf.type.isNull <;> rfl
  · rw [if_neg hnone, if_neg hnone, List.append_nil]

end Record

end Plan

end Avro
