import Avro.Proofs.Plan.MethodNames
import Avro.Proofs.Plan.Requested

/-!
# Compiling a schema for itself

A schema reads its own data if every branch of every union receives itself
(`Schema.PicksItself`): a branch that has an earlier one of its type, or one
that can take its data while none is the same, is never delivered to.

Such a schema is compiled for itself (`Schema.PicksItself.compile_ok`). Every
plan delivers a type into itself, and so the only methods are those that
deliver a record into itself (`Demand.Itself`). Their names need no
assumption: a text around one arrow says what the text is.

Only the types that are met on the way matter. So the proof is about a set of
types that is closed under going into types (`Schema.ReadThemselves`): all those
of a schema whose unions pick themselves, or those that one of its types
reaches.
-/

namespace Avro

mutual

/-- **The unions in a type pick themselves**: they are not empty, and every
branch is the one that receives its data. -/
def TypeExpr.PicksItself (s : Schema) : TypeExpr → Prop
  | .primitive _ | .named _ => True
  | .array items => items.PicksItself s
  | .map values => values.PicksItself s
  | .union branches => branches ≠ []
    ∧ (∀ (index : Nat) branch, branches[index]? = some branch →
      s.branchFor? branch s branches = some index)
    ∧ TypeExpr.AllPickThemselves s branches

/-- The unions in the types of a list pick themselves. -/
def TypeExpr.AllPickThemselves (s : Schema) : List TypeExpr → Prop
  | [] => True
  | branch :: rest => branch.PicksItself s
    ∧ TypeExpr.AllPickThemselves s rest

end

/-- A branch of a union that picks itself does so as well. -/
theorem TypeExpr.AllPickThemselves.getElem? {s : Schema} :
    ∀ {branches : List TypeExpr} {index : Nat} {branch : TypeExpr},
      AllPickThemselves s branches → branches[index]? = some branch →
      branch.PicksItself s
  | [], _, _, _, h => absurd h (by simp)
  | _ :: _, 0, _, hall, h => by
    rw [List.getElem?_cons_zero] at h
    rw [← Option.some.inj h]
    exact hall.1
  | _ :: _, _ + 1, _, hall, h => by
    rw [List.getElem?_cons_succ] at h
    exact hall.2.getElem? h

/-- **The unions of a schema pick themselves.** -/
structure Schema.PicksItself (s : Schema) : Prop where
  /-- Those in the root type. -/
  root : s.root.PicksItself s
  /-- Those in the types of fields. -/
  field : ∀ r, .record r ∈ s.definitions → ∀ field ∈ r.fields,
    field.type.PicksItself s

/-- **Types read themselves**: they have parts among them and names that are
defined, and their unions pick themselves. -/
structure Schema.ReadThemselves (s : Schema) (T : TypeExpr → Prop) : Prop where
  /-- Items are among them. -/
  items : ∀ {items : TypeExpr}, T (.array items) → T items
  /-- Values are among them. -/
  values : ∀ {values : TypeExpr}, T (.map values) → T values
  /-- Branches are among them. -/
  branch : ∀ {branches : List TypeExpr}, T (.union branches) →
    ∀ {index : Nat} {branch : TypeExpr}, branches[index]? = some branch →
    T branch
  /-- The types of fields are among them. -/
  field : ∀ {name : FullName} {r : RecordType}, T (.named name) →
    s.definition? name = some (.record r) → ∀ field ∈ r.fields, T field.type
  /-- Names are defined. -/
  defined : ∀ {name : FullName}, T (.named name) →
    ∃ d, s.definition? name = some d
  /-- Unions are not empty. -/
  nonempty : ∀ {branches : List TypeExpr}, T (.union branches) → branches ≠ []
  /-- Every branch is the one that receives its data. -/
  picks : ∀ {branches : List TypeExpr}, T (.union branches) →
    ∀ (index : Nat) (branch : TypeExpr), branches[index]? = some branch →
    s.branchFor? branch s branches = some index

/-- **The types of a schema that picks itself read themselves.** -/
theorem Schema.PicksItself.readThemselves {s : Schema} (hs : s.WellFormed)
    (hp : s.PicksItself) : s.ReadThemselves fun t =>
      t.PicksItself s ∧ t.NamesIn (s.definitions.map (·.name)) where
  items h := ⟨h.1, h.2⟩
  values h := ⟨h.1, h.2⟩
  branch h _ _ hbranch :=
    ⟨h.1.2.2.getElem? hbranch,
      TypeExpr.AllNamesIn.mem_branches h.2 _ (List.mem_of_getElem? hbranch)⟩
  field _ hd field hfield :=
    ⟨hp.field _ (List.mem_of_find?_eq_some hd) field hfield,
      hs.field _ (List.mem_of_find?_eq_some hd) field hfield⟩
  defined h := Schema.WellFormed.definition?_of_mem h.2
  nonempty h := h.1.1
  picks h := h.1.2.1

/-- The demands that deliver a record of a schema into itself. -/
def Demand.Itself (s : Schema) : Demand → Prop
  | deliver w r => w = r ∧ s.HasRecord w
  | discard _ => False

/-- The demands that deliver a record among some types into itself. -/
def Demand.ItselfIn (s : Schema) (T : TypeExpr → Prop) : Demand → Prop
  | deliver w r => (w = r ∧ s.HasRecord w) ∧ T (.named w)
  | discard _ => False

/-- A text around an arrow is told by what it is around. -/
theorem append_arrow_self {a b : List Char}
    (h : a ++ '-' :: '>' :: a = b ++ '-' :: '>' :: b) : a = b := by
  have hlength := congrArg List.length h
  simp only [List.length_append, List.length_cons] at hlength
  exact (List.append_inj h (by omega)).1

variable {s : Schema}

/-- **Names tell the demands of a schema for itself apart.** -/
theorem Demand.namesTellApart_itself (hs : s.WellFormed) :
    NamesTellApart (Demand.Itself s) := by
  intro d d' hd hd' heq
  cases d with
  | discard w => exact hd.elim
  | deliver w r =>
    cases d' with
    | discard w' => exact hd'.elim
    | deliver w' r' =>
      obtain ⟨rfl, _, hw⟩ := hd
      obtain ⟨rfl, _, hw'⟩ := hd'
      rw [methodName_eq, methodName_eq, String.append_right_inj] at heq
      have hlists := congrArg String.toList heq
      simp only [source, target, String.toList_append] at hlists
      have htext := append_arrow_self (a := w.text.toList)
        (b := w'.text.toList) (by simpa using hlists)
      rw [hs.text_inj hs hw hw' (String.toList_inj.mp htext)]

/-- Names tell fewer demands apart as well. -/
theorem Demand.namesTellApart_itselfIn (hs : s.WellFormed)
    {T : TypeExpr → Prop} : NamesTellApart (Demand.ItselfIn s T) :=
  (Demand.namesTellApart_itself hs).mono fun d hd => by
    cases d with
    | discard w => exact hd
    | deliver w r => exact hd.1

/-! ## Accepted plans -/

namespace Plan

variable {D R : Demand → Prop}

mutual

/-- An accepted plan does not reject. -/
theorem Accepted.not_rejects {e : CompileError} : ∀ {plan : Plan},
    plan.Accepted R → ¬ plan.Rejects e
  | .nothing, _ | .op _, _ | .call _, _ => id
  | .seq _ _, h => fun hr => hr.elim h.1.not_rejects h.2.not_rejects
  | .within _ _ inner, h | .blocks _ inner, h =>
    (show Accepted R inner from h).not_rejects
  | .switch _ _ cases, h =>
    (show AcceptedAll R cases from h).not_rejects
  | .reject _, h => h.elim

theorem AcceptedAll.not_rejects {e : CompileError} : ∀ {cases : PlanCases},
    AcceptedAll R cases → ¬ RejectsIn e cases
  | .none, _ => id
  | .case _ _ _ _, h => fun hr => hr.elim h.1.not_rejects h.2.not_rejects

end

/-! ## Plans of a schema for itself -/

theorem accepted_sequence : ∀ {plans : List Plan},
    (∀ plan ∈ plans, plan.Accepted R) → Accepted R (Code.sequence plans)
  | [], _ => trivial
  | [plan], h => h plan (List.mem_singleton_self plan)
  | plan :: _ :: _, h =>
    ⟨h plan List.mem_cons_self,
      accepted_sequence fun p hp => h p (List.mem_cons_of_mem _ hp)⟩

/-- A primitive is delivered as itself. -/
theorem accepted_deliverPrimitive (p : Primitive) (label : String) :
    Accepted R (deliverPrimitive p p label) := by
  cases p with
  | null => trivial
  | _ => exact ⟨trivial, trivial⟩

theorem accepted_symbolCases (reader : EnumType) (fallback : Option Nat) :
    ∀ (tag : Nat) (symbols : List String),
      AcceptedAll R (symbolCases reader fallback tag symbols)
  | _, [] => trivial
  | tag, symbol :: rest => by
    have h := accepted_symbolCases reader fallback (tag + 1) rest
    unfold symbolCases
    dsimp only
    split
    · exact ⟨trivial, h⟩
    · exact h

/-- A name stands for itself. -/
theorem standsFor_self (name : FullName) (aliases : List FullName) :
    name.standsFor aliases name = true := by
  simp [FullName.standsFor]

/-- A definition is delivered as itself. -/
theorem accepted_deliverNamed {T : TypeExpr → Prop} {name : FullName}
    {d : Definition} (hT : T (.named name)) (hd : s.definition? name = some d)
    (label : String) : Accepted (Demand.ItselfIn s T)
      (deliverNamed s name s (.named name) label) := by
  have hshape : s.shape? (.named name) = some d.shape := by
    rw [Schema.shape?_eq, hd]
    rfl
  unfold deliverNamed
  rw [hshape]
  cases d with
  | record rd =>
    simp only [Definition.shape, standsFor_self, if_true]
    obtain rfl : rd.name = name := Schema.definition?_name hd
    exact ⟨⟨rfl, rd, hd⟩, hT⟩
  | enum e =>
    simp only [Definition.shape, standsFor_self, if_true]
    exact ⟨trivial, accepted_symbolCases e _ 0 e.symbols⟩
  | fixed f =>
    simp only [Definition.shape, standsFor_self, if_true, deliverFixed]
    exact ⟨trivial, trivial⟩

variable {T : TypeExpr → Prop}

mutual

/-- **A type that reads itself is delivered as itself.** -/
theorem accepted_deliver_self (h : s.ReadThemselves T) :
    ∀ (t : TypeExpr) (label : String), T t →
      Accepted (Demand.ItselfIn s T) (deliver s t s t label)
  | .primitive p, label, _ => by
    rw [deliver, choosing]
    · exact accepted_deliverPrimitive p label
    · nofun
  | .array items, label, ht => by
    rw [deliver, choosing]
    · exact accepted_deliver_self h items _ (h.items ht)
    · nofun
  | .map values, label, ht => by
    rw [deliver, choosing]
    · exact ⟨trivial, accepted_deliver_self h values _ (h.values ht)⟩
    · nofun
  | .named name, label, ht => by
    obtain ⟨d, hd⟩ := h.defined ht
    rw [deliver, Schema.shape?_eq, hd]
    show Accepted _ (choosing _ _ _ _ (.named name))
    rw [choosing]
    · exact accepted_deliverNamed ht hd label
    · nofun
  | .union branches, label, ht => by
    have hcases := accepted_branchCases_self h ht label branches 0
      (fun index => by rw [Nat.zero_add])
    have hsome : noCases (branchCases s label 0 branches s (.union branches))
        = false := by
      cases branches with
      | nil => exact absurd rfl (h.nonempty ht)
      | cons first rest =>
        rw [branchCases, h.picks ht 0 first rfl]
        rfl
    rw [deliver]
    simp only [Schema.shape?, hsome]
    exact ⟨trivial, hcases⟩

/-- Each case delivers a branch into itself. -/
theorem accepted_branchCases_self (h : s.ReadThemselves T)
    {readers : List TypeExpr} (hreaders : T (.union readers))
    (label : String) :
    ∀ (branches : List TypeExpr) (tag : Nat),
      (∀ index, readers[tag + index]? = branches[index]?) →
      AcceptedAll (Demand.ItselfIn s T)
        (branchCases s label tag branches s (.union readers))
  | [], _, _ => by
    rw [branchCases]
    trivial
  | branch :: rest, tag, hrest => by
    have hbranch : readers[tag]? = some branch := hrest 0
    have hcases := accepted_branchCases_self h hreaders label rest (tag + 1)
      fun index => by
        rw [Nat.add_right_comm, Nat.add_assoc]
        exact hrest (index + 1)
    rw [branchCases, h.picks hreaders tag branch hbranch]
    simp only [hbranch]
    exact ⟨accepted_entering.mpr (accepted_deliver_self h branch label
      (h.branch hreaders hbranch)), hcases⟩

end

/-! ## Methods of a schema for itself -/

end Plan

/-- **A field receives itself**, if fields have names of their own. -/
theorem RecordType.receivingIndex?_self {r : RecordType}
    (hdistinct : (r.fields.map (·.name)).Nodup) {index : Nat} {field : Field}
    (h : r.fields[index]? = some field) :
    r.receivingIndex? field.name = some index := by
  obtain ⟨hlt, rfl⟩ := List.getElem?_eq_some_iff.mp h
  have hfirst : r.fieldIndex? r.fields[index].name = some index := by
    refine List.findIdx?_eq_some_iff_getElem.mpr
      ⟨hlt, decide_eq_true rfl, fun earlier hearlier hsame => ?_⟩
    have hnames : (r.fields.map (·.name))[earlier]?
        = (r.fields.map (·.name))[index]? := by
      rw [List.getElem?_map, List.getElem?_map, List.getElem?_eq_getElem hlt,
        List.getElem?_eq_getElem (Nat.lt_trans hearlier hlt)]
      exact congrArg some (of_decide_eq_true hsame)
    have hbound : earlier < (r.fields.map (·.name)).length := by
      rw [List.length_map]
      exact Nat.lt_trans hearlier hlt
    exact absurd ((List.getElem?_inj hbound hdistinct).mp hnames)
      (Nat.ne_of_lt hearlier)
  rw [receivingIndex?, hfirst]
  rfl

namespace Plan

/-- The fields of a record are delivered each into itself. -/
theorem accepted_writtenFields_self {T : TypeExpr → Prop}
    (h : s.ReadThemselves T) {r : RecordType}
    (hdistinct : (r.fields.map (·.name)).Nodup)
    (hr : ∀ field ∈ r.fields, T field.type) :
    ∀ fields : List Field, (∀ field ∈ fields, field ∈ r.fields) →
      ∀ plan ∈ writtenFields s r s r fields,
        plan.Accepted (Demand.ItselfIn s T)
  | [], _, plan, hplan => absurd hplan List.not_mem_nil
  | field :: rest, hfields, plan, hplan => by
    rw [writtenFields] at hplan
    rcases List.mem_cons.mp hplan with rfl | hplan
    · have hfield := hfields field List.mem_cons_self
      obtain ⟨index, hlt, hget⟩ := List.mem_iff_getElem.mp hfield
      have hindex : r.fields[index]? = some field := by
        rw [List.getElem?_eq_getElem hlt, hget]
      have hreceives := RecordType.receivingIndex?_self hdistinct hindex
      simp only [hreceives, hindex]
      exact accepted_entering.mpr
        (accepted_deliver_self h field.type _ (hr field hfield))
    · exact accepted_writtenFields_self h hdistinct hr rest
        (fun field hfield => hfields field (List.mem_cons_of_mem _ hfield))
        plan hplan

/-- A record has no field left for a default. -/
theorem defaultedFields_self {reader : Schema} {r : RecordType}
    {written : List Nat} :
    ∀ {index : Nat} {fields : List Field},
      (∀ position, position < fields.length →
        index + position ∈ written) →
      defaultedFields reader r written index fields = []
  | _, [], _ => rfl
  | index, _ :: rest, h => by
    have hfirst : index ∈ written := h 0 (Nat.succ_pos _)
    rw [defaultedFields, if_pos (List.contains_iff_mem.mpr hfirst)]
    exact defaultedFields_self fun position hlt => by
      rw [Nat.add_right_comm, Nat.add_assoc]
      exact h (position + 1) (Nat.succ_lt_succ hlt)

end Plan

/-- **The plan of a method that delivers a record into itself is accepted.** -/
theorem Demand.accepted_body_self (hs : s.WellFormed) {T : TypeExpr → Prop}
    (h : s.ReadThemselves T) {d : Demand} (hd : Demand.ItselfIn s T d) :
    Plan.Accepted (Demand.ItselfIn s T) (d.body s s) := by
  cases d with
  | discard w => exact hd.elim
  | deliver w r =>
    obtain ⟨⟨rfl, record, hrecord⟩, hT⟩ := hd
    have hmem := List.mem_of_find?_eq_some hrecord
    have hdistinct := (hs.regular _ hmem).distinct record rfl
    have hbody : body s s (.deliver w w) = Plan.recordBody s record s record := by
      simp only [body, hrecord]
    rw [hbody]
    unfold Plan.recordBody
    dsimp only
    rw [Plan.defaultedFields_self, List.append_nil]
    · exact Plan.accepted_sequence (Plan.accepted_writtenFields_self h hdistinct
        (h.field hT hrecord) record.fields fun _ h => h)
    · intro position hlt
      rw [Nat.zero_add]
      exact List.mem_filterMap.mpr ⟨_, List.getElem_mem hlt,
        RecordType.receivingIndex?_self hdistinct
          (List.getElem?_eq_getElem hlt)⟩

section

variable {T : TypeExpr → Prop} (hs : s.WellFormed) (h : s.ReadThemselves T)
  (hroot : T s.root)

include hs h hroot

/-- **The demands of types that read themselves enclose the compilation** of a
schema whose root is one of them. -/
theorem Schema.ReadThemselves.encloses :
    Encloses s s (Demand.ItselfIn s T) where
  ofRecords d hd := by
    cases d with
    | discard w => exact hd.elim
    | deliver w r => exact ⟨hd.1.2, hd.1.1 ▸ hd.1.2⟩
  main := (Plan.regular_deliver _ _ _).of_calls fun _ hcalls _ =>
    (Plan.accepted_deliver_self h s.root "root" hroot).calls hcalls
  body d hd := d.body_regular.of_calls fun _ hcalls _ =>
    (Demand.accepted_body_self hs h hd).calls hcalls

/-- **A schema whose root reads itself is compiled for itself.** -/
theorem Schema.ReadThemselves.compile_ok : ∃ p, compile s s = .ok p :=
  Avro.compile_ok (h.encloses hs hroot)
    (fun _ => (Plan.accepted_deliver_self h s.root "root" hroot).not_rejects)
    fun _ hd _ => (Demand.accepted_body_self hs h hd).not_rejects

end

/-- The records of a schema that picks itself are among the types that read
themselves. -/
theorem Demand.itselfIn_eq : (Demand.ItselfIn s fun t =>
    t.PicksItself s ∧ t.NamesIn (s.definitions.map (·.name)))
      = Demand.Itself s := by
  funext d
  cases d with
  | discard w => rfl
  | deliver w r =>
    refine propext ⟨fun h => h.1, fun h => ⟨h, trivial, ?_⟩⟩
    obtain ⟨-, record, hrecord⟩ := h
    obtain rfl := Schema.definition?_name hrecord
    exact List.mem_map_of_mem (List.mem_of_find?_eq_some hrecord)

/-- **The demands of a schema for itself enclose its compilation.** -/
theorem Schema.PicksItself.encloses (hs : s.WellFormed) (hp : s.PicksItself) :
    Encloses s s (Demand.Itself s) :=
  Demand.itselfIn_eq ▸ (hp.readThemselves hs).encloses hs ⟨hp.root, hs.root⟩

/-- **A schema whose unions pick themselves is compiled for itself.** -/
theorem Schema.PicksItself.compile_ok (hs : s.WellFormed)
    (hp : s.PicksItself) : ∃ p, compile s s = .ok p :=
  (hp.readThemselves hs).compile_ok hs ⟨hp.root, hs.root⟩

end Avro
