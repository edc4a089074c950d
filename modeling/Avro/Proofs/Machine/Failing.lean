import Avro.Proofs.Machine.Bracketing

/-!
# Where a run fails

A run that fails has come to an instruction at which it failed. On the way
there it has started levels below others and gone past levels that had closed
(`Program.Reaches`), and then one of three things has happened: there is no
instruction, the instruction fails, or the level below that it starts is one
too many (`Program.FailsAt`).

From then on the sinks of the levels above are put back and nothing else is
done (`Program.Runs.reaches_failing`). In terms of calls: a run that fails has made
all its calls when it comes to the failing instruction, but for at most one,
which is the call of that instruction (`Program.FailsLast`).
-/

namespace Avro

/-- **A level in the middle of a run.** -/
structure Moment (σ : Type) where
  /-- How many levels there are above. -/
  depth : Nat
  /-- The address of the next instruction. -/
  pc : Nat
  /-- The registers. -/
  frame : Frame
  /-- The input. -/
  input : Input
  /-- The sink. -/
  state : σ

namespace Program

variable {σ : Type}

section

variable (p : Program) (k : Sink σ) (maxDepth : Nat)

/-- **A run comes from one moment to another.** -/
inductive Reaches : Moment σ → Moment σ → Prop
  /-- Without doing anything. -/
  | here {m : Moment σ} : Reaches m m
  /-- By an instruction of its level. -/
  | next {m last : Moment σ} {i : Instruction} {pc : Nat} {frame : Frame}
    {input : Input} {state : σ} (found : p.instructions[m.pc]? = some i)
    (goesOn : step p.errors k i m.pc m.frame m.input m.state
      = .goOn pc frame input state)
    (rest : Reaches ⟨m.depth, pc, frame, input, state⟩ last) : Reaches m last
  /-- Into a level below. -/
  | into {m last : Moment σ} {i : Instruction} {start : Nat} {child : σ}
    {put : σ → σ} {resume : Nat → Nat} {frame : Frame} {input : Input}
    (found : p.instructions[m.pc]? = some i)
    (descends : step p.errors k i m.pc m.frame m.input m.state
      = .descend start child put resume frame input)
    (allowed : m.depth + 1 ≤ maxDepth)
    (rest : Reaches ⟨m.depth + 1, start, .blank, input, child⟩ last) :
    Reaches m last
  /-- Past a level below that has closed. -/
  | past {m last : Moment σ} {i : Instruction} {start closed : Nat} {child : σ}
    {put : σ → σ} {resume : Nat → Nat} {frame : Frame} {input left : Input}
    {below : σ} (found : p.instructions[m.pc]? = some i)
    (descends : step p.errors k i m.pc m.frame m.input m.state
      = .descend start child put resume frame input)
    (allowed : m.depth + 1 ≤ maxDepth)
    (closes : p.Ends k maxDepth (m.depth + 1) start .blank input child
      ⟨.ok closed, left, below⟩)
    (rest : Reaches ⟨m.depth, resume closed, frame, left, put below⟩ last) :
    Reaches m last

/-- **A run fails at a moment** with an error, and leaves the sink of the level
in a state. -/
inductive FailsAt (m : Moment σ) : ExecutionError → σ → Prop
  /-- There is no instruction. -/
  | outside (missing : p.instructions[m.pc]? = none) :
    FailsAt m (p.errorAt m.pc (.defect (.counterOutOfRange m.pc))) m.state
  /-- The instruction fails. -/
  | instruction {i : Instruction} {cause : ExecutionCause} {input : Input}
    {state : σ} (found : p.instructions[m.pc]? = some i)
    (fails : step p.errors k i m.pc m.frame m.input m.state
      = .fail cause input state) :
    FailsAt m (p.errorAt m.pc cause) state
  /-- The instruction starts a level that is not allowed. -/
  | tooDeep {i : Instruction} {start : Nat} {child : σ} {put : σ → σ}
    {resume : Nat → Nat} {frame : Frame} {input : Input}
    (found : p.instructions[m.pc]? = some i)
    (descends : step p.errors k i m.pc m.frame m.input m.state
      = .descend start child put resume frame input)
    (forbidden : maxDepth < m.depth + 1) :
    FailsAt m (p.errorAt start (.tooDeep (m.depth + 1) maxDepth)) child

end

variable {p : Program} {k : Sink σ} {maxDepth : Nat}

/-- **A run that comes to a level that fails** fails with the same error. -/
theorem Reaches.ends_error {m last : Moment σ}
    (h : p.Reaches k maxDepth m last) {e : ExecutionError} {left : Input}
    {t : σ} (hends : p.Ends k maxDepth last.depth last.pc last.frame last.input
      last.state ⟨.error e, left, t⟩) :
    ∃ t', p.Ends k maxDepth m.depth m.pc m.frame m.input m.state
      ⟨.error e, left, t'⟩ := by
  induction h with
  | here => exact ⟨t, hends⟩
  | next found goesOn _ ih =>
    obtain ⟨t', ht'⟩ := ih hends
    exact ⟨t', .goOn found goesOn ht'⟩
  | into found descends allowed _ ih =>
    obtain ⟨t', ht'⟩ := ih hends
    exact ⟨_, .descend_error found descends allowed ht'⟩
  | past found descends allowed closes _ ih =>
    obtain ⟨t', ht'⟩ := ih hends
    exact ⟨t', .descend found descends allowed closes ht'⟩

/-- **A level that fails has come to a moment at which it failed**, and what
is not changed by putting parts back is as it was left then. -/
theorem Runs.reaches_failing {β : Type} (kept : σ → β)
    (hput : ∀ {i : Instruction} {pc start : Nat} {frame frame' : Frame}
      {input left : Input} {s child : σ} {put : σ → σ} {resume : Nat → Nat},
      step p.errors k i pc frame input s
        = .descend start child put resume frame' left →
      ∀ below, kept (put below) = kept below)
    {steps depth pc : Nat} {frame : Frame} {input : Input} {s : σ}
    {o : Outcome σ Nat} {e : ExecutionError}
    (h : p.Runs k maxDepth steps depth pc frame input s o)
    (ho : o.result = .error e) :
    ∃ m last, p.Reaches k maxDepth ⟨depth, pc, frame, input, s⟩ m
      ∧ p.FailsAt k maxDepth m e last ∧ kept o.state = kept last := by
  induction h with
  | outside missing =>
    obtain rfl := Except.error.inj ho
    exact ⟨_, _, .here, .outside missing, rfl⟩
  | close => exact absurd ho nofun
  | fail found fails =>
    obtain rfl := Except.error.inj ho
    exact ⟨_, _, .here, .instruction found fails, rfl⟩
  | tooDeep found descends forbidden =>
    obtain rfl := Except.error.inj ho
    exact ⟨_, _, .here, .tooDeep found descends forbidden, hput descends _⟩
  | goOn found goesOn _ ih =>
    obtain ⟨m, last, hreaches, hfails, hkept⟩ := ih ho
    exact ⟨m, last, .next found goesOn hreaches, hfails, hkept⟩
  | failBelow found descends allowed _ ih =>
    -- The failure below is handed up, and only the parts are put back.
    obtain ⟨m, last, hreaches, hfails, hkept⟩ := ih ho
    exact ⟨m, last, .into found descends (Nat.not_lt.mp allowed) hreaches,
      hfails, (hput descends _).trans hkept⟩
  | past found descends allowed inner _ _ ih =>
    obtain ⟨m, last, hreaches, hfails, hkept⟩ := ih ho
    exact ⟨m, last, .past found descends (Nat.not_lt.mp allowed)
      ⟨_, runFrom_eq_some.mpr inner⟩ hreaches, hfails, hkept⟩

end Program

/-! ## The calls of a run that fails -/

section

variable {σ : Type} {k : Sink σ}

/-- A call that has no result is written down. -/
theorem state_afterCall_pass (pc : Nat) (frame : Frame) (input : Input)
    (call : SinkCall) (m : SinkEffect σ Unit) (s : Placed σ) :
    (afterCall pc frame input (Placed.pass call m s)).state.latest
      = ⟨s.place, call, none⟩ :: s.latest := by
  unfold Placed.pass
  cases m s.plain <;> rfl

/-- **An instruction makes at most one call.** -/
theorem step_placed (errors : List String) (i : Instruction) (pc : Nat)
    (frame : Frame) (input : Input) (s : Placed σ) :
    ∃ last : List Made, last.length ≤ 1
      ∧ (step errors k.placed i pc frame input s).state.calls
        = s.calls ++ last := by
  have hone : ∀ {c : Made} {t : Placed σ}, t.latest = c :: s.latest →
      ∃ last : List Made, last.length ≤ 1 ∧ t.calls = s.calls ++ last :=
    fun {c t} ht => ⟨[c], Nat.le_refl 1, by
      rw [Placed.calls, ht, List.reverse_cons]
      rfl⟩
  obtain ⟨request, -, hmeets⟩ := step_meets errors i pc frame input
  rw [hmeets]
  cases request with
  | nothing next =>
    exact ⟨[], Nat.zero_le 1, by cases next <;> exact (List.append_nil _).symm⟩
  | set x | setDefault index => exact hone (state_afterCall_pass ..)
  | enter part pc frame input =>
    dsimp only [Request.meet, Sink.placed, Placed.enter]
    cases k.enter part s.plain <;> exact hone rfl
  | finalize input =>
    dsimp only [Request.meet, Sink.placed, Placed.pass]
    cases k.finalize s.plain <;> exact hone rfl

/-- What a part is put back into has the calls of the part. -/
theorem calls_put_placed {errors : List String} {i : Instruction}
    {pc start : Nat} {frame frame' : Frame} {input left : Input}
    {s child : Placed σ} {put : Placed σ → Placed σ} {resume : Nat → Nat}
    (hstep : step errors k.placed i pc frame input s
      = .descend start child put resume frame' left) (below : Placed σ) :
    (put below).calls = below.calls := by
  obtain ⟨request, -, hmeets⟩ := step_meets errors i pc frame input
  rw [hmeets] at hstep
  cases request with
  | nothing next =>
    cases next with
    | descend =>
      obtain ⟨-, -, rfl, -⟩ := Next.descend.inj hstep
      rfl
    | goOn | close | fail => exact absurd hstep nofun
  | set x pc frame input | setDefault index pc frame input =>
    dsimp only [Request.meet, Sink.placed, Placed.pass] at hstep
    split at hstep <;> exact absurd hstep nofun
  | enter part pc frame input =>
    dsimp only [Request.meet, Sink.placed, Placed.enter] at hstep
    cases hr : k.enter part s.plain with
    | ok put' child' =>
      rw [hr] at hstep
      obtain ⟨-, -, rfl, -⟩ := Next.descend.inj hstep
      rfl
    | error e s' =>
      rw [hr] at hstep
      exact absurd hstep nofun
  | finalize input =>
    dsimp only [Request.meet, Sink.placed, Placed.pass] at hstep
    cases hr : k.finalize s.plain <;> rw [hr] at hstep <;>
      exact absurd hstep nofun

namespace Program

variable {p : Program} {maxDepth : Nat}

/-- The failing instruction makes at most one call. -/
theorem FailsAt.calls {m : Moment (Placed σ)} {e : ExecutionError}
    {s : Placed σ} (h : p.FailsAt k.placed maxDepth m e s) :
    ∃ last : List Made, last.length ≤ 1 ∧ s.calls = m.state.calls ++ last := by
  cases h with
  | outside => exact ⟨[], Nat.zero_le 1, (List.append_nil _).symm⟩
  | @instruction i _ _ _ _ fails =>
    obtain ⟨last, hlength, hcalls⟩ :=
      step_placed p.errors i m.pc m.frame m.input m.state
    rw [fails] at hcalls
    exact ⟨last, hlength, hcalls⟩
  | @tooDeep i _ _ _ _ _ _ _ descends =>
    obtain ⟨last, hlength, hcalls⟩ :=
      step_placed p.errors i m.pc m.frame m.input m.state
    rw [descends] at hcalls
    exact ⟨last, hlength, hcalls⟩

variable (p k maxDepth) in
/-- **Nothing follows a failure.** The run comes to an instruction at which it
fails with the error, and its calls are those that it has made by then and at
most one more, which this instruction has made. -/
def FailsLast (input : Input) (state : σ) (e : ExecutionError)
    (calls : List Made) : Prop :=
  ∃ m s last,
    p.Reaches k.placed maxDepth ⟨0, 0, .blank, input, .start state⟩ m
    ∧ p.FailsAt k.placed maxDepth m e s ∧ s.calls = calls
    ∧ calls = m.state.calls ++ last ∧ last.length ≤ 1

/-- **Nothing follows the failure of a run.** -/
theorem run_failsLast {steps : Nat} {input left : Input} {state : σ}
    {t : Placed σ} {e : ExecutionError}
    (h : p.run k.placed maxDepth steps input (.start state)
      = some ⟨.error e, left, t⟩) :
    p.FailsLast k maxDepth input state e t.calls := by
  obtain ⟨⟨result, left', t'⟩, hinner, hout⟩ := Option.map_eq_some_iff.mp h
  obtain ⟨hresult, -, rfl⟩ := Outcome.mk.inj hout
  cases result with
  | ok closed => exact absurd hresult nofun
  | error e' =>
    obtain rfl := Except.error.inj hresult
    obtain ⟨m, s, hreaches, hfails, hkept⟩ :=
      (runFrom_eq_some.mp hinner).reaches_failing Placed.calls
        calls_put_placed rfl
    obtain ⟨last, hlength, hcalls⟩ := hfails.calls
    exact ⟨m, s, last, hreaches, hfails, hkept.symm, hkept.trans hcalls,
      hlength⟩

end Program

end

end Avro
