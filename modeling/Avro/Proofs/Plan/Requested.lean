import Avro.Proofs.Plan.Compilation

/-!
# The demands that a compilation asks for

A plan asks for the methods that it calls (`Plan.Calls`), and a compilation
for those of the root and of every method it asks for
(`Demand.Requested`). They enclose the compilation (`encloses_requested`), and
every class that does so has them all.
-/

namespace Avro

namespace Plan

mutual

/-- A plan calls the method of a demand. -/
def Calls (d : Demand) : Plan → Prop
  | .nothing | .op _ | .reject _ => False
  | .seq first second => Calls d first ∨ Calls d second
  | .within _ _ inner | .blocks _ inner => Calls d inner
  | .switch _ _ cases => CallsIn d cases
  | .call demand => demand = d

/-- A plan of the cases calls the method of a demand. -/
def CallsIn (d : Demand) : PlanCases → Prop
  | .none => False
  | .case _ _ inner rest => Calls d inner ∨ CallsIn d rest

end

mutual

/-- Whether a plan calls a method can be decided. -/
def decideCalls (d : Demand) : (plan : Plan) → Decidable (Calls d plan)
  | .nothing | .op _ | .reject _ => .isFalse id
  | .seq first second =>
    @instDecidableOr _ _ (decideCalls d first) (decideCalls d second)
  | .within _ _ inner | .blocks _ inner => decideCalls d inner
  | .switch _ _ cases => decideCallsIn d cases
  | .call demand => inferInstanceAs (Decidable (demand = d))

/-- Whether a plan of the cases calls a method can be decided. -/
def decideCallsIn (d : Demand) : (cases : PlanCases) →
    Decidable (CallsIn d cases)
  | .none => .isFalse id
  | .case _ _ inner rest =>
    @instDecidableOr _ _ (decideCalls d inner) (decideCallsIn d rest)

end

instance (d : Demand) (plan : Plan) : Decidable (Calls d plan) :=
  decideCalls d plan

variable {D R : Demand → Prop}

mutual

/-- An accepted plan calls methods of the class. -/
theorem Accepted.calls {d : Demand} : ∀ {plan : Plan},
    plan.Accepted R → Calls d plan → R d
  | .nothing, _, h' | .op _, _, h' | .reject _, _, h' => h'.elim
  | .seq _ _, h, h' => h'.elim h.1.calls h.2.calls
  | .within _ _ inner, h, h' | .blocks _ inner, h, h' =>
    (show Accepted R inner from h).calls h'
  | .switch _ _ cases, h, h' => (show AcceptedAll R cases from h).calls h'
  | .call _, h, h' => by
    obtain rfl : _ = d := h'
    exact h

theorem AcceptedAll.calls {d : Demand} : ∀ {cases : PlanCases},
    AcceptedAll R cases → CallsIn d cases → R d
  | .none, _, h' => h'.elim
  | .case _ _ _ _, h, h' => h'.elim h.1.calls h.2.calls

end

mutual

/-- A regular plan is regular for every class that it calls methods of. -/
theorem Regular.of_calls : ∀ {plan : Plan}, plan.Regular D →
    (∀ d, Calls d plan → D d → R d) → plan.Regular R
  | .nothing, _, _ | .reject _, _, _ => trivial
  | .op _, h, _ => h
  | .seq _ _, h, h' => ⟨h.1.of_calls fun d hd => h' d (.inl hd),
      h.2.of_calls fun d hd => h' d (.inr hd)⟩
  | .within _ _ _, h, h' => ⟨h.1, h.2.of_calls h'⟩
  | .blocks _ inner, h, h' => (show Regular D inner from h).of_calls h'
  | .switch _ _ cases, h, h' => (show RegularCases D cases from h).of_calls h'
  | .call d, h, h' => h' d rfl h

theorem RegularCases.of_calls : ∀ {cases : PlanCases}, RegularCases D cases →
    (∀ d, CallsIn d cases → D d → R d) → RegularCases R cases
  | .none, _, _ => trivial
  | .case _ _ _ _, h, h' => ⟨h.1.of_calls fun d hd => h' d (.inl hd),
      h.2.of_calls fun d hd => h' d (.inr hd)⟩

end

mutual

/-- A regular plan calls methods of the class. -/
theorem Regular.calls {d : Demand} : ∀ {plan : Plan}, plan.Regular D →
    Calls d plan → D d
  | .nothing, _, h' | .op _, _, h' | .reject _, _, h' => h'.elim
  | .seq _ _, h, h' => h'.elim h.1.calls h.2.calls
  | .within _ _ _, h, h' => h.2.calls h'
  | .blocks _ inner, h, h' => (show Regular D inner from h).calls h'
  | .switch _ _ cases, h, h' => (show RegularCases D cases from h).calls h'
  | .call _, h, h' => by
    obtain rfl : _ = d := h'
    exact h

theorem RegularCases.calls {d : Demand} : ∀ {cases : PlanCases},
    RegularCases D cases → CallsIn d cases → D d
  | .none, _, h' => h'.elim
  | .case _ _ _ _, h, h' => h'.elim h.1.calls h.2.calls

end

end Plan

section

variable (writer reader : Schema)

/-- **The demands that a compilation asks for**: those of the root, and those
of the methods that are asked for. -/
inductive Demand.Requested : Demand → Prop
  /-- A demand of the root. -/
  | main {d : Demand} : (mainPlan writer reader).Calls d → Requested d
  /-- A demand of a method. -/
  | method {d d' : Demand} : Requested d → (d.body writer reader).Calls d' →
    Requested d'

end

variable {writer reader : Schema}

/-- What is asked for is made of records of the two schemas. -/
theorem Demand.Requested.ofRecords {d : Demand}
    (h : d.Requested writer reader) : d.OfRecords writer reader := by
  induction h with
  | main h => exact (Plan.regular_deliver _ _ _).calls h
  | @method d d' _ h _ => exact (Demand.body_regular d).calls h

/-- What is asked for encloses the compilation. -/
theorem encloses_requested :
    Encloses writer reader (Demand.Requested writer reader) where
  ofRecords _ h := h.ofRecords
  main := (Plan.regular_deliver _ _ _).of_calls fun _ h _ => .main h
  body d hd := d.body_regular.of_calls fun _ h _ => .method hd h

end Avro
