import Avro.Sink.Script

/-!
# The calls of a script that succeeded

A script goes on after a call that is refused. If a sink leaves its state when
it refuses a call (`Sink.Careful`), such a call might as well not have been
made: the calls that succeeded are by themselves all accepted, and they lead to
the state in which the script ends (`Sink.Careful.leads_succeeded`).
-/

namespace Avro

/-! ## What succeeded -/

mutual

/-- **What succeeded of a step**, by its outcome: nothing if the call was
refused, and of the opening of a part also what succeeded on the part. -/
def SinkStep.succeeded? : SinkStep → StepOutcome → Option SinkStep
  | _, .refused _ => none
  | .within part steps, .within outcomes =>
    some (.within part (SinkStep.succeeded steps outcomes))
  | step, _ => some step

/-- **What succeeded of steps**, by their outcomes. -/
def SinkStep.succeeded : List SinkStep → List StepOutcome → List SinkStep
  | step :: rest, outcome :: outcomes =>
    (step.succeeded? outcome).toList ++ SinkStep.succeeded rest outcomes
  | _, _ => []

end

mutual

/-- **Nothing was refused**, on opened parts neither. -/
def StepOutcome.Accepted : StepOutcome → Prop
  | .refused _ => False
  | .within outcomes => StepOutcome.AllAccepted outcomes
  | .done | .name _ => True

/-- Nothing was refused by all steps. -/
def StepOutcome.AllAccepted : List StepOutcome → Prop
  | [] => True
  | outcome :: rest => outcome.Accepted ∧ StepOutcome.AllAccepted rest

end

theorem StepOutcome.allAccepted_append {outcomes others : List StepOutcome} :
    AllAccepted (outcomes ++ others)
      ↔ AllAccepted outcomes ∧ AllAccepted others := by
  induction outcomes with
  | nil => simp [AllAccepted]
  | cons outcome rest ih =>
    rw [List.cons_append, AllAccepted, AllAccepted, ih, and_assoc]

namespace Sink

variable {σ : Type}

/-- **Steps lead** from a state to another one, and nothing is refused. -/
structure Leads (k : Sink σ) (steps : List SinkStep) (state after : σ) :
    Prop where
  /-- Where the steps end. -/
  ends : (k.performAll steps state).2 = after
  /-- Nothing is refused. -/
  accepted : StepOutcome.AllAccepted (k.performAll steps state).1

/-- **A sink is careful** if it leaves its state when it refuses a call. -/
structure Careful (k : Sink σ) : Prop where
  /-- A scalar is refused. -/
  set : ∀ {x state e after}, k.set x state = .error e after → after = state
  /-- A default is refused. -/
  setDefault : ∀ {index state e after},
    k.setDefault index state = .error e after → after = state
  /-- The opening of a part is refused. -/
  enter : ∀ {part state e after},
    k.enter part state = .error e after → after = state
  /-- The end of a part is refused. -/
  finalize : ∀ {state e after}, k.finalize state = .error e after → after = state

variable {k : Sink σ} {state middle after : σ}

theorem performAll_cons (step : SinkStep) (rest : List SinkStep) (state : σ) :
    k.performAll (step :: rest) state
      = ((k.perform step state).1
          :: (k.performAll rest (k.perform step state).2).1,
        (k.performAll rest (k.perform step state).2).2) := by
  rw [performAll]

/-- Steps are performed in front of others. -/
theorem performAll_append (steps others : List SinkStep) (state : σ) :
    k.performAll (steps ++ others) state
      = ((k.performAll steps state).1
          ++ (k.performAll others (k.performAll steps state).2).1,
        (k.performAll others (k.performAll steps state).2).2) := by
  induction steps generalizing state with
  | nil => rfl
  | cons step rest ih =>
    rw [List.cons_append, performAll_cons, performAll_cons, ih]
    rfl

theorem Leads.append {steps others : List SinkStep}
    (h : k.Leads steps state middle) (h' : k.Leads others middle after) :
    k.Leads (steps ++ others) state after := by
  obtain ⟨rfl, haccepted⟩ := h
  constructor
  · rw [performAll_append]
    exact h'.ends
  · rw [performAll_append]
    exact StepOutcome.allAccepted_append.mpr ⟨haccepted, h'.accepted⟩

/-- One step leads from a state to another one. -/
theorem leads_singleton {step : SinkStep} (outcome : StepOutcome)
    (h : k.perform step state = (outcome, after)) (haccepted : outcome.Accepted) :
    k.Leads [step] state after := by
  constructor
  · rw [performAll_cons, h]
    rfl
  · rw [performAll_cons, h]
    exact ⟨haccepted, trivial⟩

namespace Careful

/-- A call without result leads to its state, or is as if it had not been
made. -/
theorem leads_outcome {step : SinkStep} {result : EStateM.Result SinkError σ Unit}
    (hstep : k.perform step state = outcome result)
    (hsucceeded : step.succeeded? .done = some step)
    (hrefused : ∀ e after, result = .error e after → after = state) :
    k.Leads (step.succeeded? (k.perform step state).1).toList state
      (k.perform step state).2 := by
  rw [hstep]
  cases hresult : result with
  | ok a after =>
    rw [outcome, hsucceeded]
    exact leads_singleton .done (hstep.trans (by rw [hresult]; rfl)) trivial
  | error e after =>
    obtain rfl := hrefused e after hresult
    rw [outcome, SinkStep.succeeded?]
    exact ⟨rfl, trivial⟩

mutual

/-- What succeeded of a step leads to where it ends. -/
theorem leads_succeeded? (h : k.Careful) : ∀ (step : SinkStep) (state : σ),
    k.Leads (step.succeeded? (k.perform step state).1).toList state
      (k.perform step state).2
  | .set x, state => leads_outcome (by rw [perform]) rfl fun _ _ => h.set
  | .setDefault index, state =>
    leads_outcome (by rw [perform]) rfl fun _ _ => h.setDefault
  | .finalize, state => leads_outcome (by rw [perform]) rfl fun _ _ => h.finalize
  | .typeName, state => by
    rw [perform]
    exact leads_singleton (.name _) (by rw [perform]) trivial
  | .within part steps, state => by
    cases henter : k.enter part state with
    | error e after =>
      obtain rfl := h.enter henter
      rw [perform, henter]
      dsimp only
      rw [SinkStep.succeeded?]
      exact ⟨rfl, trivial⟩
    | ok close child =>
      have hsteps := leads_succeeded h steps child
      rw [perform, henter]
      dsimp only
      rw [SinkStep.succeeded?]
      refine leads_singleton (.within _) ?_ hsteps.accepted
      rw [perform, henter, ← hsteps.ends]

/-- **What succeeded of steps leads to where they end**: performed by itself, no
call is refused. -/
theorem leads_succeeded (h : k.Careful) : ∀ (steps : List SinkStep) (state : σ),
    k.Leads (SinkStep.succeeded steps (k.performAll steps state).1) state
      (k.performAll steps state).2
  | [], _ => ⟨rfl, trivial⟩
  | step :: rest, state =>
    (leads_succeeded? h step state).append
      (leads_succeeded h rest (k.perform step state).2)

end

end Careful

end Sink

end Avro
