import Avro.Proofs.Machine.Failing
import Avro.Proofs.Machine.Steps
import Avro.Sink.Trace

/-!
# Errors name the instruction that failed

An execution error has the address and the label of an instruction. The levels
of a run share one program counter, which levels below move and calls set back,
so it is not plain that this is the instruction that failed.

It is (`Program.run_attributes`). The run has come to a moment that explains the
error (`Moment.Explains`): the address of this moment is that of the error, and
the cause is one that the instruction there can have (`Instruction.Fails`). Only
a level that the limit forbids is reported where it would start, since this is
where it is refused. And the levels above hand the error up as it is.
-/

namespace Avro

/-! ## The instruction that failed -/

section

variable {σ : Type} (p : Program) (k : Sink σ) (maxDepth : Nat)

/-- The label of the instruction at an address; empty past the end of the
program. -/
def Program.labelAt (pc : Nat) : String :=
  (p.instructions[pc]?.map (·.label)).getD ""

/-- **A moment of a run explains an error**: it has the address of the error,
and the cause lies in the instruction there. -/
inductive Moment.Explains (m : Moment σ) : ExecutionError → Prop
  /-- The program counter is out of range, and there is no label. -/
  | outside (past : p.instructions.size ≤ m.pc) :
    Explains m ⟨.defect (.counterOutOfRange m.pc), m.pc, ""⟩
  /-- The instruction fails with a cause that it can have. -/
  | instruction {i : Instruction} {cause : ExecutionCause}
    (found : p.instructions[m.pc]? = some i)
    (fails : i.Fails p.errors m.frame cause) :
    Explains m ⟨cause, m.pc, i.label⟩
  /-- The deepest level would start another one, and the error is reported
  where this would start. -/
  | tooDeep {i : Instruction} {start : Nat}
    (found : p.instructions[m.pc]? = some i) (starts : i.StartsAt m.pc start)
    (deepest : m.depth = maxDepth) :
    Explains m ⟨.tooDeep (maxDepth + 1) maxDepth, start, p.labelAt start⟩

end

namespace Program

variable {σ : Type} {p : Program} {k : Sink σ} {maxDepth : Nat}

/-- No level of a run is deeper than the limit. -/
theorem Reaches.depth_le {m last : Moment σ} (h : p.Reaches k maxDepth m last)
    (hdepth : m.depth ≤ maxDepth) : last.depth ≤ maxDepth := by
  induction h with
  | here => exact hdepth
  | next _ _ _ ih => exact ih hdepth
  | into _ _ allowed _ ih => exact ih allowed
  | past _ _ _ _ _ ih => exact ih hdepth

/-- **The moment of a failure explains its error.** -/
theorem FailsAt.explains {m : Moment σ} {e : ExecutionError} {last : σ}
    (h : p.FailsAt k maxDepth m e last) (hdepth : m.depth ≤ maxDepth) :
    m.Explains p maxDepth e := by
  cases h with
  | outside missing =>
    rw [errorAt, missing]
    exact .outside (Array.getElem?_eq_none_iff.mp missing)
  | instruction found fails =>
    rw [errorAt, found]
    exact .instruction found (step_fails fails)
  | tooDeep found descends forbidden =>
    obtain hdeepest : m.depth = maxDepth := by omega
    rw [hdeepest]
    exact .tooDeep found (step_startsAt descends) hdeepest

end Program

/-- The label of an error that a moment explains is that of its address. -/
theorem Moment.Explains.label_eq {σ : Type} {p : Program} {maxDepth : Nat}
    {m : Moment σ} {e : ExecutionError} (h : m.Explains p maxDepth e) :
    e.label = p.labelAt e.pc := by
  cases h with
  | outside past =>
    rw [Program.labelAt, Array.getElem?_eq_none past]
    rfl
  | instruction found _ =>
    rw [Program.labelAt, found]
    rfl
  | tooDeep => rfl

namespace Program

variable {σ : Type} {p : Program} {k : Sink σ} {maxDepth : Nat}

/-- **A run that fails has come to a moment that explains its error.** -/
theorem exists_explains {steps : Nat} {input left : Input} {state t : σ}
    {e : ExecutionError}
    (h : p.run k maxDepth steps input state = some ⟨.error e, left, t⟩) :
    (∃ left' t', p.Ends k maxDepth 0 0 .blank input state ⟨.error e, left', t'⟩)
    ∧ ∃ m last, p.Reaches k maxDepth ⟨0, 0, .blank, input, state⟩ m
      ∧ p.FailsAt k maxDepth m e last ∧ m.Explains p maxDepth e := by
  obtain ⟨⟨result, left', t'⟩, hinner, hout⟩ := Option.map_eq_some_iff.mp h
  obtain ⟨hresult, -, -⟩ := Outcome.mk.inj hout
  cases result with
  | ok closed => exact absurd hresult nofun
  | error e' =>
    obtain rfl := Except.error.inj hresult
    -- Of the sink nothing has to be kept.
    obtain ⟨m, last, hreaches, hfails, -⟩ :=
      (runFrom_eq_some.mp hinner).reaches_failing (fun _ => ())
        (fun _ _ => rfl) rfl
    exact ⟨⟨left', t', steps, hinner⟩, m, last, hreaches, hfails,
      hfails.explains (hreaches.depth_le (Nat.zero_le _))⟩

/-- **The error of a run is that of the instruction that failed.** Whatever the
program is, compiled, loaded or written by hand, and whatever its operands are:

* the label of the error is the label of the instruction at its address, and
  empty if the address is past the end;
* the run has come to a moment, at any depth, at which it failed, and this
  moment explains the error;
* every level to which the run has come and that fails, fails with this error,
  so that no level above changes it. -/
theorem run_attributes {steps : Nat} {input left : Input} {state t : σ}
    {e : ExecutionError}
    (h : p.run k maxDepth steps input state = some ⟨.error e, left, t⟩) :
    (∀ i, p.instructions[e.pc]? = some i → e.label = i.label)
    ∧ (p.instructions.size ≤ e.pc → e.label = "")
    ∧ (∃ m last, p.Reaches k maxDepth ⟨0, 0, .blank, input, state⟩ m
      ∧ p.FailsAt k maxDepth m e last ∧ m.Explains p maxDepth e)
    ∧ ∀ m, p.Reaches k maxDepth ⟨0, 0, .blank, input, state⟩ m →
      ∀ e' left' t', p.Ends k maxDepth m.depth m.pc m.frame m.input m.state
        ⟨.error e', left', t'⟩ → e' = e := by
  obtain ⟨⟨left', t', hends⟩, hmoment⟩ := exists_explains h
  have hlabel : e.label = p.labelAt e.pc := by
    obtain ⟨m, last, -, -, hexplains⟩ := hmoment
    exact hexplains.label_eq
  refine ⟨fun i hi => ?_, fun hpast => ?_, hmoment,
    fun m hm e' left'' t'' hfails => ?_⟩
  · rw [hlabel, labelAt, hi]
    rfl
  · rw [hlabel, labelAt, Array.getElem?_eq_none hpast]
    rfl
  · obtain ⟨t₀, hends'⟩ := hm.ends_error hfails
    exact Except.error.inj (Outcome.mk.inj (hends'.unique hends)).1

end Program

/-! ## A failure three levels down

A round of a loop calls a method, which opens an item and reads its tag. There
is no case for it, so the item is refused. -/

namespace Parcel

/-- The program. -/
def program : Program where
  instructions := #[
    .read .long "Parcel.items", ⟨.pushLoop, 0, "Parcel.items"⟩,
    ⟨.call, 4, "Parcel.items"⟩, ⟨.halt, 0, "end"⟩,
    ⟨.appendArray, 0, "Item"⟩, .read .long "Item.tag", ⟨.halt, 1, "Item.tag"⟩]
  methods := [("item", 4)]
  errors := ["no such item"]

/-- The error. -/
def refusal : ExecutionError := ⟨.halt "no such item", 6, "Item.tag"⟩

/-- Whether a run fails with an error. -/
def failsWith (e : ExecutionError) : Option (Outcome Trace Unit) → Bool
  | some ⟨.error e', _, _⟩ => decide (e' = e)
  | _ => false

theorem exists_of_failsWith {e : ExecutionError} :
    ∀ {o : Option (Outcome Trace Unit)}, failsWith e o = true →
      ∃ left t, o = some ⟨.error e, left, t⟩
  | some ⟨.error _, left, t⟩, h => ⟨left, t, by rw [of_decide_eq_true h]⟩

/-- The error is that of the instruction that refuses the item. -/
theorem run_attributes_refusal : ∃ left t,
    program.run Trace.sink 8 16 (Input.ofBytes [2, 4]) (Trace.start none)
      = some ⟨.error refusal, left, t⟩
    ∧ (∀ i, program.instructions[6]? = some i → "Item.tag" = i.label)
    ∧ (∃ m last, program.Reaches Trace.sink 8
        ⟨0, 0, .blank, Input.ofBytes [2, 4], Trace.start none⟩ m
      ∧ program.FailsAt Trace.sink 8 m refusal last
      ∧ m.Explains program 8 refusal)
    ∧ ∀ m, program.Reaches Trace.sink 8
        ⟨0, 0, .blank, Input.ofBytes [2, 4], Trace.start none⟩ m →
      ∀ e left t, program.Ends Trace.sink 8 m.depth m.pc m.frame m.input m.state
        ⟨.error e, left, t⟩ → e = refusal := by
  obtain ⟨left, t, h⟩ := exists_of_failsWith
    (show failsWith refusal (program.run Trace.sink 8 16 (Input.ofBytes [2, 4])
      (Trace.start none)) = true by decide +kernel)
  obtain ⟨hlabel, -, hmoment, hlevels⟩ := Program.run_attributes h
  exact ⟨left, t, h, hlabel, hmoment, hlevels⟩

end Parcel

end Avro
