import Avro.Compile.Plan
import Avro.Proofs.Schema.Shapes

/-!
# The parts of the plans of two schemas

Much of what is true of the plans of a pair of schemas is true because of what
they are made of. `Plan.DiscardClosed` lists the parts of plans that discard,
and `Plan.DeliverClosed` what is added by plans that deliver, each with what is
known where it is written down: a position is that of a branch or of a field, a
size is that of a fixed, a call is for records, and a rejection blames the
schemas unless a type has no definition.

A property that the parts have is one of the plans (`DiscardClosed.discard`,
`DeliverClosed.deliver`) and of the methods that they call
(`DeliverClosed.body`). The recursion over types is followed here, and those who
show such a property go through the parts only.
-/

namespace Avro

/-- Whether a full name is a record's. -/
def Schema.HasRecord (s : Schema) (name : FullName) : Prop :=
  ∃ r, s.definition? name = some (.record r)

/-- What has the shape of a record is a record's name. -/
theorem Schema.hasRecord_of_shape? {s : Schema} {t : TypeExpr} {r : RecordType}
    (h : s.shape? t = some (.record r)) : s.HasRecord r.name :=
  ⟨r, (shape?_named (d := .record r) h).2⟩

/-- **The kinds that plans read** for a schema: a size is that of a fixed. -/
def Schema.ReadsKind (s : Schema) : Kind → Prop
  | .fixed size => ∃ t f, s.shape? t = some (.fixed f) ∧ f.size = size
  | _ => True

/-- **The demands that records of a pair of schemas make possible.** -/
def Demand.OfRecords (writer reader : Schema) : Demand → Prop
  | deliver w r => writer.HasRecord w ∧ reader.HasRecord r
  | discard w => writer.HasRecord w

/-- **Whether an error blames the compiler** and not the schemas: a type without
definition, a method that was never compiled, or a defect of the compiler. -/
def CompileError.isDefect : CompileError → Bool
  | unresolvedReference _ | unknownMethod _ | internal _ => true
  | _ => false

/-- What holds of codes one after another: what holds of each of them, if it
holds of no code and of one code after another. -/
theorem Code.sequence_induction {χ μ ε : Type} {P : Code χ μ ε → Prop}
    (hnothing : P .nothing)
    (hseq : ∀ {first second}, P first → P second → P (.seq first second)) :
    ∀ {codes : List (Code χ μ ε)}, (∀ code ∈ codes, P code) →
      P (sequence codes)
  | [], _ => hnothing
  | [_], h => h _ List.mem_cons_self
  | _ :: _ :: _, h => hseq (h _ List.mem_cons_self)
      (sequence_induction hnothing hseq fun code hcode =>
        h code (List.mem_cons_of_mem _ hcode))

namespace Plan

variable {writer reader : Schema} {W R : TypeExpr → Prop} {P : Plan → Prop}
  {Q : Nat → PlanCases → Prop} {I : Nat → Prop}

/-! ## Discarding -/

/-- **A property that plans have which discard** data of the writer's types of a
class. Cases have theirs from a tag on. -/
structure DiscardClosed (writer : Schema) (W : TypeExpr → Prop)
    (P : Plan → Prop) (Q : Nat → PlanCases → Prop) : Prop where
  /-- The items of an array are of the class. -/
  items : ∀ {t : TypeExpr}, W (.array t) → W t
  /-- The values of a map are. -/
  values : ∀ {t : TypeExpr}, W (.map t) → W t
  /-- The branches of a union are. -/
  branches : ∀ {ts : List TypeExpr}, W (.union ts) → ∀ t ∈ ts, W t
  /-- Doing nothing has the property. -/
  nothing : P .nothing
  /-- One plan after another has it. -/
  seq : ∀ {first second : Plan}, P first → P second → P (.seq first second)
  /-- Reading has it. -/
  read : ∀ {kind : Kind} (label : String), writer.ReadsKind kind →
    P (read kind label)
  /-- A loop has it. -/
  blocks : ∀ {inner : Plan} (label : String), P inner →
    P (.blocks label inner)
  /-- A switch has it. -/
  switch : ∀ {cases : PlanCases} (label message : String), Q 0 cases →
    P (.switch label message cases)
  /-- No case has it. -/
  noCase : ∀ tag, Q tag .none
  /-- A case that delivers no number has it. -/
  case : ∀ {tag : Nat} {inner : Plan} {rest : PlanCases}, P inner →
    Q (tag + 1) rest → Q tag (.case tag Option.none inner rest)
  /-- A call that discards a record has it. -/
  discards : ∀ {name : FullName}, writer.HasRecord name →
    P (.call (.discard name))
  /-- A type of the class that has no definition has it. -/
  undefined : ∀ {t : TypeExpr}, W t → writer.shape? t = Option.none →
    P (unresolved t)

namespace DiscardClosed

variable (hP : DiscardClosed writer W P Q)

include hP

theorem sequence {plans : List Plan} (h : ∀ plan ∈ plans, P plan) :
    P (Code.sequence plans) :=
  Code.sequence_induction hP.nothing hP.seq h

mutual

/-- **Plans that discard have it.** -/
theorem discard : ∀ (t : TypeExpr) (label : String), W t →
    P (discard writer t label)
  | .primitive p, label, _ => by
    cases p with
    | null => exact hP.nothing
    | boolean | int | long | float | double | bytes | string =>
      exact hP.read label (by trivial)
  | .array items, label, h => by
    rw [Plan.discard]
    exact hP.blocks label (discard items _ (hP.items h))
  | .map values, label, h => by
    rw [Plan.discard]
    exact hP.blocks label
      (hP.seq (hP.read _ (by trivial)) (discard values _ (hP.values h)))
  | .union branches, label, h => by
    rw [Plan.discard]
    exact hP.seq (hP.read label (by trivial))
      (hP.switch _ _ (discardCases label 0 branches (hP.branches h)))
  | .named name, label, h => by
    have hshape := writer.shape?_eq name
    rw [Plan.discard]
    cases hd : writer.definition? name with
    | none =>
      rw [hd] at hshape
      rw [hshape]
      exact hP.undefined h hshape
    | some d =>
      rw [hd] at hshape
      rw [hshape]
      cases d with
      | record r => exact hP.discards (Schema.hasRecord_of_shape? hshape)
      | enum e => exact hP.read label (by trivial)
      | fixed f => exact hP.read label ⟨_, f, hshape, rfl⟩

theorem discardCases (label : String) :
    ∀ (tag : Nat) (branches : List TypeExpr), (∀ t ∈ branches, W t) →
      Q tag (discardCases writer label tag branches)
  | tag, [], _ => by
    rw [Plan.discardCases]
    exact hP.noCase tag
  | tag, branch :: rest, h => by
    rw [Plan.discardCases]
    obtain ⟨hbranch, hrest⟩ := List.forall_mem_cons.mp h
    exact hP.case (discard branch label hbranch)
      (discardCases label (tag + 1) rest hrest)

end

/-- The method that discards a record has it. -/
theorem discardBody {wd : RecordType} (h : ∀ wf ∈ wd.fields, W wf.type) :
    P (discardBody writer wd) := by
  refine hP.sequence fun plan hplan => ?_
  obtain ⟨wf, hwf, rfl⟩ := List.mem_map.mp hplan
  exact hP.discard _ _ (h wf hwf)

end DiscardClosed

/-! ## Delivering -/

/-- The cases of a written union that is read as a type that is none. -/
theorem branchCases_cons {r : TypeExpr} (hr : r.isUnion = false)
    (label : String) (tag : Nat) (branch : TypeExpr) (rest : List TypeExpr) :
    branchCases writer label tag (branch :: rest) reader r
      = if writer.readable branch reader r then
          .case tag none (deliver writer branch reader r label)
            (branchCases writer label (tag + 1) rest reader r)
        else branchCases writer label (tag + 1) rest reader r := by
  cases r with
  | union readers => exact absurd hr (by simp [TypeExpr.isUnion])
  | primitive p => rw [branchCases]; rintro _ ⟨⟩
  | array items => rw [branchCases]; rintro _ ⟨⟩
  | map values => rw [branchCases]; rintro _ ⟨⟩
  | named name => rw [branchCases]; rintro _ ⟨⟩

/-- No promotion has a size. -/
theorem readsKind_of_promotion? {s : Schema} {w r : Primitive} {kind : Kind}
    (h : promotion? w r = some kind) : s.ReadsKind kind := by
  cases kind with
  | fixed n => cases w <;> cases r <;> simp [promotion?, Kind.ofPrimitive] at h
  | _ => trivial

/-- **A property that the plans of a pair of schemas have**, for types of two
classes and positions of a third. -/
structure DeliverClosed (writer reader : Schema) (W R : TypeExpr → Prop)
    (I : Nat → Prop) (P : Plan → Prop) (Q : Nat → PlanCases → Prop) : Prop
    extends DiscardClosed writer W P Q where
  /-- The items of an array of the reader are of the class. -/
  readItems : ∀ {t : TypeExpr}, R (.array t) → R t
  /-- The values of a map of the reader are. -/
  readValues : ∀ {t : TypeExpr}, R (.map t) → R t
  /-- The branches of a union of the reader are. -/
  readBranches : ∀ {ts : List TypeExpr}, R (.union ts) → ∀ t ∈ ts, R t
  /-- Branches have positions. -/
  branch : ∀ {ts : List TypeExpr} {index : Nat}, R (.union ts) →
    index < ts.length → I index
  /-- The types of written fields are of the class. -/
  writtenField : ∀ {name : FullName} {wd : RecordType},
    writer.definition? name = some (.record wd) → ∀ wf ∈ wd.fields, W wf.type
  /-- The types of the fields of the reader are. -/
  readField : ∀ {name : FullName} {rd : RecordType},
    reader.definition? name = some (.record rd) → ∀ rf ∈ rd.fields, R rf.type
  /-- Fields have positions. -/
  field : ∀ {name : FullName} {rd : RecordType} {index : Nat},
    reader.definition? name = some (.record rd) → index < rd.fields.length →
      I index
  /-- Delivering a primitive has the property. -/
  set : ∀ (p : Primitive) (label : String), P (set (.ofPrimitive p) label)
  /-- Clearing the long register has it. -/
  clear : ∀ label : String, P (.op ⟨.multLong, 0, label⟩)
  /-- Adding a position to it has it. -/
  number : ∀ (index : Nat) (label : String),
    P (.op ⟨.addLong, Int64.ofNat index, label⟩)
  /-- The default of a field has it. -/
  default : ∀ {index : Nat} (label : String), I index →
    P (.op ⟨.setDefault, Int64.ofNat index, label⟩)
  /-- What is done in a field or branch has it. -/
  opened : ∀ {index : Nat} {inner : Plan} (label : String), I index → P inner →
    P (.within ⟨.enter, Int64.ofNat index, label⟩ label inner)
  /-- What is done in an item has it. -/
  item : ∀ {inner : Plan} (label : String), P inner →
    P (.within ⟨.appendArray, 0, label⟩ label inner)
  /-- What is done in an entry has it. -/
  entry : ∀ {inner : Plan} (label : String), P inner →
    P (.within ⟨.appendMap, 0, label⟩ label inner)
  /-- A case that delivers a number has it. -/
  numbered : ∀ {tag index : Nat} {inner : Plan} {rest : PlanCases}, P inner →
    Q (tag + 1) rest → Q tag (.case tag (some index) inner rest)
  /-- A tag without a case has it. -/
  skip : ∀ {tag : Nat} {cases : PlanCases}, Q (tag + 1) cases → Q tag cases
  /-- A call that delivers a record has it. -/
  delivers : ∀ {w r : FullName}, writer.HasRecord w → reader.HasRecord r →
    P (.call (.deliver w r))
  /-- A rejection that blames the schemas has it. -/
  rejects : ∀ {e : CompileError}, e.isDefect = false → P (.reject e)
  /-- A type of the reader that has no definition has it. -/
  undefinedRead : ∀ {t : TypeExpr}, R t → reader.shape? t = Option.none →
    P (unresolved t)

namespace DeliverClosed

variable (hP : DeliverClosed writer reader W R I P Q)

include hP

theorem entering (r : TypeExpr) {index : Nat} (hindex : I index)
    (label : String) {plan : Plan} (h : P plan) :
    P (entering r index label plan) := by
  unfold Plan.entering
  split
  · exact h
  · exact hP.opened label hindex h

theorem deliverPrimitive (w r : Primitive) (label : String) :
    P (deliverPrimitive w r label) := by
  unfold Plan.deliverPrimitive
  split
  · exact hP.nothing
  · split
    · exact hP.seq (hP.read label (readsKind_of_promotion? ‹_›))
        (hP.set r label)
    · exact hP.rejects rfl

theorem symbolCases (r : EnumType) (fallback : Option Nat) :
    ∀ (tag : Nat) (symbols : List String),
      Q tag (symbolCases r fallback tag symbols)
  | tag, [] => hP.noCase tag
  | tag, symbol :: rest => by
    have h := symbolCases r fallback (tag + 1) rest
    unfold Plan.symbolCases
    dsimp only
    split
    · exact hP.numbered hP.nothing h
    · exact hP.skip h

theorem deliverEnum (w r : EnumType) (label : String) :
    P (deliverEnum w r label) :=
  hP.seq (hP.read label (by trivial))
    (hP.switch _ _ (hP.symbolCases r _ 0 w.symbols))

theorem deliverFixed {w : FixedType} (hw : writer.ReadsKind (.fixed w.size))
    (r : FixedType) (label : String) : P (deliverFixed w r label) := by
  unfold Plan.deliverFixed
  split
  · exact hP.seq (hP.read label hw) (hP.set .bytes label)
  · exact hP.rejects rfl

theorem mismatched (w : TypeExpr) {r : TypeExpr} (hr : R r) (label : String) :
    P (mismatched w reader r label) := by
  unfold Plan.mismatched
  split
  · exact hP.undefinedRead hr ‹_›
  · exact hP.rejects rfl

theorem deliverNamed {w : FullName} (hw : W (.named w)) {r : TypeExpr}
    (hr : R r) (label : String) :
    P (deliverNamed writer w reader r label) := by
  unfold Plan.deliverNamed
  split
  · exact hP.undefined hw ‹_›
  · exact hP.undefinedRead hr ‹_›
  · rename_i hwd hrd
    split
    · exact hP.delivers (Schema.hasRecord_of_shape? hwd)
        (Schema.hasRecord_of_shape? hrd)
    · exact hP.rejects rfl
  · split
    · exact hP.deliverEnum _ _ _
    · exact hP.rejects rfl
  · rename_i wd _ hwd _
    split
    · exact hP.deliverFixed ⟨_, wd, hwd, rfl⟩ _ _
    · exact hP.rejects rfl
  · exact hP.rejects rfl

section

variable {w : TypeExpr} {label : String}
  {pick : List TypeExpr → Option Nat} {leaf : TypeExpr → Plan}

mutual

/-- Deciding a reader's union has it if what comes after it does. -/
theorem choosing (h : ∀ t, R t → P (leaf t)) :
    ∀ t : TypeExpr, R t → P (choosing w label pick leaf t)
  | .union branches, ht => by
    rw [Plan.choosing]
    split
    · exact hP.rejects rfl
    · exact hP.seq (hP.clear label) (hP.seq (hP.number _ label)
        (hP.seq (hP.set .long label) (choosingBranch h _ _ branches
          (fun hlt => hP.branch ht hlt) (hP.readBranches ht))))
  | .primitive p, ht => by rw [Plan.choosing]; exact h _ ht; nofun
  | .array items, ht => by rw [Plan.choosing]; exact h _ ht; nofun
  | .map values, ht => by rw [Plan.choosing]; exact h _ ht; nofun
  | .named name, ht => by rw [Plan.choosing]; exact h _ ht; nofun

theorem choosingBranch (h : ∀ t, R t → P (leaf t)) (index : Nat) :
    ∀ (position : Nat) (branches : List TypeExpr),
      (position < branches.length → I index) → (∀ t ∈ branches, R t) →
      P (choosingBranch w label pick leaf index position branches)
  | _, [], _, _ => by
    rw [Plan.choosingBranch]
    exact hP.nothing
  | 0, branch :: _, hindex, hbranches => by
    rw [Plan.choosingBranch]
    exact hP.entering _ (hindex (Nat.succ_pos _)) _
      (choosing h branch (hbranches _ List.mem_cons_self))
  | position + 1, _ :: rest, hindex, hbranches => by
    rw [Plan.choosingBranch]
    exact choosingBranch h index position rest
      (fun hlt => hindex (Nat.succ_lt_succ hlt))
      (List.forall_mem_cons.mp hbranches).2

end

end

mutual

/-- **Plans that deliver have it.** -/
theorem deliver : ∀ (t r : TypeExpr) (label : String), W t → R r →
    P (deliver writer t reader r label)
  | .union branches, r, label, ht, hr => by
    rw [Plan.deliver]
    split
    · exact hP.undefinedRead hr ‹_›
    · dsimp only
      split
      · exact hP.rejects rfl
      · exact hP.seq (hP.read label (by trivial)) (hP.switch _ _
          (branchCases label 0 branches (hP.branches ht) r hr))
  | .primitive p, r, label, _, hr => by
    rw [Plan.deliver]
    refine hP.choosing (fun t ht => ?_) r hr
    split
    · exact hP.deliverPrimitive _ _ _
    · exact hP.mismatched _ ht _
  | .array items, r, label, hitems, hr => by
    rw [Plan.deliver]
    refine hP.choosing (fun t ht => ?_) r hr
    split
    · exact hP.blocks label (hP.item label
        (deliver items _ _ (hP.items hitems) (hP.readItems ht)))
    · exact hP.mismatched _ ht _
  | .map values, r, label, hvalues, hr => by
    rw [Plan.deliver]
    refine hP.choosing (fun t ht => ?_) r hr
    split
    · exact hP.blocks label (hP.seq (hP.read _ (by trivial)) (hP.entry label
        (deliver values _ _ (hP.values hvalues) (hP.readValues ht))))
    · exact hP.mismatched _ ht _
  | .named name, r, label, hname, hr => by
    rw [Plan.deliver]
    split
    · exact hP.undefined hname ‹_›
    · exact hP.choosing (fun t ht => hP.deliverNamed hname ht label) r hr

theorem branchCases (label : String) :
    ∀ (tag : Nat) (branches : List TypeExpr), (∀ t ∈ branches, W t) →
      ∀ r : TypeExpr, R r →
      Q tag (branchCases writer label tag branches reader r)
  | tag, [], _, r, _ => by
    rw [Plan.branchCases]
    exact hP.noCase tag
  | tag, branch :: rest, h, r, hr => by
    obtain ⟨hbranch, hrest⟩ := List.forall_mem_cons.mp h
    have hlater := branchCases label (tag + 1) rest hrest r hr
    cases hunion : r.isUnion with
    | false =>
      rw [branchCases_cons hunion]
      split
      · exact hP.case (deliver branch r label hbranch hr) hlater
      · exact hP.skip hlater
    | true =>
      obtain ⟨readers, rfl⟩ := TypeExpr.isUnion_iff.mp hunion
      rw [Plan.branchCases]
      split
      · exact hP.skip hlater
      · split
        · exact hP.skip hlater
        · -- The branch that is read is one of the reader's.
          rename_i index _ _ r' hget
          obtain ⟨hlt, rfl⟩ := List.getElem?_eq_some_iff.mp hget
          have hr' := hP.readBranches hr _ (List.getElem_mem hlt)
          exact hP.numbered (hP.entering _ (hP.branch hr hlt) _
            (deliver branch _ label hbranch hr')) hlater

end

/-! ## Methods -/

section

variable {wd rd : RecordType} {name : FullName}
  (hrd : reader.definition? name = some (.record rd))

include hrd

theorem writtenFields : ∀ fields : List Field, (∀ wf ∈ fields, W wf.type) →
    ∀ plan ∈ writtenFields writer wd reader rd fields, P plan
  | [], _, plan, h => absurd h List.not_mem_nil
  | wf :: rest, hfields, plan, h => by
    obtain ⟨hfirst, hrest⟩ := List.forall_mem_cons.mp hfields
    rw [Plan.writtenFields] at h
    rcases List.mem_cons.mp h with rfl | h
    · dsimp only
      split
      · exact hP.discard _ _ hfirst
      · split
        · exact hP.nothing
        · rename_i hget
          obtain ⟨hlt, rfl⟩ := List.getElem?_eq_some_iff.mp hget
          exact hP.entering _ (hP.field hrd hlt) _ (hP.deliver _ _ _ hfirst
            (hP.readField hrd _ (List.getElem_mem hlt)))
    · exact writtenFields rest hrest plan h

theorem defaultedFields (written : List Nat) :
    ∀ (index : Nat) (fields : List Field),
      index + fields.length ≤ rd.fields.length →
      ∀ plan ∈ defaultedFields reader rd written index fields, P plan
  | _, [], _, plan, h => absurd h List.not_mem_nil
  | index, rf :: rest, hle, plan, h => by
    rw [List.length_cons] at hle
    have hrest := defaultedFields written (index + 1) rest (by omega) plan
    rw [Plan.defaultedFields] at h
    split at h
    · exact hrest h
    · rcases List.mem_cons.mp h with rfl | h
      · unfold defaulted
        split
        · exact hP.rejects rfl
        · split
          · exact hP.rejects rfl
          · exact hP.default _ (hP.field hrd (by omega))
      · exact hrest h

/-- The method that reads a record into another has it. -/
theorem recordBody (h : ∀ wf ∈ wd.fields, W wf.type) :
    P (recordBody writer wd reader rd) := by
  refine hP.sequence fun plan hplan => ?_
  rcases List.mem_append.mp hplan with hplan | hplan
  · exact hP.writtenFields hrd wd.fields h plan hplan
  · exact hP.defaultedFields hrd _ 0 rd.fields (by omega) plan hplan

end

/-- **The plan of a method has it**, if the plan of a demand for what is no
record does. -/
theorem body (d : Demand)
    (h : ¬ d.OfRecords writer reader → ∀ t, P (unresolved t)) :
    P (d.body writer reader) := by
  unfold Demand.body
  split
  · split
    · rename_i hwd hrd
      exact hP.recordBody hrd (hP.writtenField hwd)
    · rename_i hnot
      exact h (fun ⟨_, rd, hrd⟩ => hnot rd hrd) _
    · rename_i hnot _
      exact h (fun ⟨⟨wd, hwd⟩, _⟩ => hnot wd hwd) _
  · split
    · rename_i hwd
      exact hP.discardBody (hP.writtenField hwd)
    · rename_i hnot
      exact h (fun ⟨wd, hwd⟩ => hnot wd hwd) _

end DeliverClosed

end Plan

end Avro
