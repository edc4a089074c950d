import Avro.Proofs.Machine.Ending

/-!
# What instructions ask of the sink

An instruction makes at most one call on the sink of its level, and whatever
else it does is the same for all sinks. So what it asks can be said without a
sink (`Request`), and a step is the request met by one (`step_meets`).

With that, two sinks of which one forgets something about the other are easily
compared. `Sink.Forgets` says so call by call; the runs with the two sinks are
then the same, seen without what is forgotten (`Program.run_forgets`). It is
how sinks that write down what is done to them are known to change nothing.
-/

namespace Avro

/-! ## Instructions -/

/-- **What an instruction asks of the sink**, with how the level goes on. -/
inductive Request
  /-- Nothing. -/
  | nothing (next : Next Unit)
  /-- That a scalar is taken. -/
  | set (x : Scalar) (pc : Nat) (frame : Frame) (input : Input)
  /-- That a field takes its default. -/
  | setDefault (index : Nat) (pc : Nat) (frame : Frame) (input : Input)
  /-- That a part is opened. -/
  | enter (part : Opening) (pc : Nat) (frame : Frame) (input : Input)
  /-- That the part is ended. -/
  | finalize (input : Input)

/-- The sink after an instruction: that of the level, or of the level that it
starts. -/
def Next.state {σ : Type} : Next σ → σ
  | .goOn _ _ _ state => state
  | .descend _ child _ _ _ _ => child
  | .close _ state => state
  | .fail _ _ state => state

/-- What goes on without a sink goes on in the same way with any. -/
def Next.on {σ : Type} (s : σ) : Next Unit → Next σ
  | .goOn pc frame input () => .goOn pc frame input s
  | .descend pc () _ resume frame input => .descend pc s id resume frame input
  | .close input () => .close input s
  | .fail cause input () => .fail cause input s

/-- How a level goes on whose request a sink meets. -/
def Request.meet {σ : Type} (k : Sink σ) (s : σ) : Request → Next σ
  | .nothing next => next.on s
  | .set x pc frame input => afterCall pc frame input (k.set x s)
  | .setDefault index pc frame input =>
    afterCall pc frame input (k.setDefault index s)
  | .enter part pc frame input => afterOpening pc frame input (k.enter part s)
  | .finalize input =>
    match k.finalize s with
    | .ok () s => .close input s
    | .error e s => .fail (.sink e) input s

/-- **The requests of an operation.** An operation that opens parts opens one
or fails. -/
inductive Opcode.Asks : Opcode → Request → Prop
  /-- Most operations do not touch the sink. -/
  | nothing {op : Opcode} {next : Next Unit} (field : op ≠ .enter)
    (item : op ≠ .appendArray) (entry : op ≠ .appendMap) :
    Asks op (.nothing next)
  /-- Any operation may fail before it does. -/
  | fail {op : Opcode} {cause : ExecutionCause} {input : Input} :
    Asks op (.nothing (.fail cause input ()))
  | set {x : Scalar} {pc : Nat} {frame : Frame} {input : Input} :
    Asks .set (.set x pc frame input)
  | setDefault {index pc : Nat} {frame : Frame} {input : Input} :
    Asks .setDefault (.setDefault index pc frame input)
  | enter {op : Opcode} {part : Opening} {pc : Nat} {frame : Frame}
    {input : Input} (opens : op = .enter ∨ op = .appendArray ∨ op = .appendMap) :
    Asks op (.enter part pc frame input)
  | exit {input : Input} : Asks .exit (.finalize input)

/-- **A step is a request that a sink meets**, and the request does not depend
on the sink. -/
theorem step_meets (errors : List String) (i : Instruction) (pc : Nat)
    (frame : Frame) (input : Input) :
    ∃ request, i.op.Asks request ∧ ∀ {σ : Type} (k : Sink σ) (s : σ),
      step errors k i pc frame input s = request.meet k s := by
  obtain ⟨op, operand, label⟩ := i
  have hfail : ∀ {op : Opcode} (cause : ExecutionCause) (left : Input),
      op.Asks (.nothing (.fail cause left ())) := fun _ _ => .fail
  cases op with
  | read =>
    dsimp only [step]
    cases Kind.ofOperand? operand with
    | none => exact ⟨_, hfail _ _, fun _ _ => rfl⟩
    | some kind =>
      dsimp only
      cases frame.read kind input with
      | ok frame' left =>
        exact ⟨.nothing (.goOn (pc + 1) frame' left ()),
          .nothing nofun nofun nofun, fun _ _ => rfl⟩
      | error e left => exact ⟨_, hfail _ _, fun _ _ => rfl⟩
  | set =>
    dsimp only [step]
    cases Kind.ofOperand? operand with
    | none => exact ⟨_, hfail _ _, fun _ _ => rfl⟩
    | some kind =>
      dsimp only
      cases frame.delivery kind with
      | nothing =>
        exact ⟨.nothing (.goOn (pc + 1) frame input ()),
          .nothing nofun nofun nofun, fun _ _ => rfl⟩
      | scalar x => exact ⟨_, .set, fun _ _ => rfl⟩
      | impossible => exact ⟨_, hfail _ _, fun _ _ => rfl⟩
  | setDefault =>
    dsimp only [step]
    cases address? operand with
    | none => exact ⟨_, hfail _ _, fun _ _ => rfl⟩
    | some index => exact ⟨_, .setDefault, fun _ _ => rfl⟩
  | enter =>
    dsimp only [step]
    cases address? operand with
    | none => exact ⟨_, hfail _ _, fun _ _ => rfl⟩
    | some index => exact ⟨_, .enter (by simp), fun _ _ => rfl⟩
  | exit => exact ⟨_, .exit, fun _ _ => rfl⟩
  | appendArray => exact ⟨_, .enter (by simp), fun _ _ => rfl⟩
  | appendMap => exact ⟨_, .enter (by simp), fun _ _ => rfl⟩
  | call =>
    dsimp only [step]
    cases address? operand with
    | none => exact ⟨_, hfail _ _, fun _ _ => rfl⟩
    | some target =>
      exact ⟨.nothing (.descend target () id (fun _ => pc + 1) frame input),
        .nothing nofun nofun nofun, fun _ _ => rfl⟩
  | «return» | popLoop =>
    exact ⟨.nothing (.close input ()), .nothing nofun nofun nofun,
      fun _ _ => rfl⟩
  | jump =>
    dsimp only [step]
    cases address? operand with
    | none => exact ⟨_, hfail _ _, fun _ _ => rfl⟩
    | some target =>
      exact ⟨.nothing (.goOn target frame input ()),
        .nothing nofun nofun nofun, fun _ _ => rfl⟩
  | condJump =>
    dsimp only [step]
    cases frame.condition with
    | false =>
      exact ⟨.nothing (.goOn (pc + 1) frame input ()),
        .nothing nofun nofun nofun, fun _ _ => rfl⟩
    | true =>
      cases address? operand with
      | none => exact ⟨_, hfail _ _, fun _ _ => rfl⟩
      | some target =>
        exact ⟨.nothing (.goOn target frame input ()),
          .nothing nofun nofun nofun, fun _ _ => rfl⟩
  | evalEqual | evalGreater | addLong | multLong =>
    exact ⟨.nothing (.goOn (pc + 1) _ input ()), .nothing nofun nofun nofun,
      fun _ _ => rfl⟩
  | pushLoop =>
    exact ⟨.nothing (.descend (pc + 1) () id (· + 1) frame input),
      .nothing nofun nofun nofun, fun _ _ => rfl⟩
  | halt =>
    dsimp only [step]
    by_cases hzero : operand = 0
    · simp only [if_pos hzero]
      exact ⟨.nothing (.close input ()), .nothing nofun nofun nofun,
        fun _ _ => rfl⟩
    · simp only [if_neg hzero]
      cases (address? operand).bind fun n => errors[n - 1]? with
      | none => exact ⟨_, hfail _ _, fun _ _ => rfl⟩
      | some message => exact ⟨_, hfail _ _, fun _ _ => rfl⟩

/-! ## Sinks that write things down -/

section Forgets

variable {σ τ : Type}

/-- A result, with a part of its state forgotten. -/
def forgetting {α : Type} (plain : τ → σ) :
    EStateM.Result SinkError τ α → EStateM.Result SinkError σ α
  | .ok a s => .ok a (plain s)
  | .error e s => .error e (plain s)

/-- **A sink does what another does, and more**: without the part of its state
that is forgotten, it is the other one. -/
structure Sink.Forgets (K : Sink τ) (k : Sink σ) (plain : τ → σ) : Prop where
  /-- Scalars are taken in the same way. -/
  set : ∀ x s, forgetting plain (K.set x s) = k.set x (plain s)
  /-- Defaults are taken in the same way. -/
  setDefault : ∀ index s,
    forgetting plain (K.setDefault index s) = k.setDefault index (plain s)
  /-- Parts are opened and put back in the same way. -/
  enter : ∀ part s,
    match K.enter part s with
    | .ok put child => ∃ put', k.enter part (plain s) = .ok put' (plain child)
      ∧ ∀ below, plain (put below) = put' (plain below)
    | .error e s' => k.enter part (plain s) = .error e (plain s')
  /-- Parts are ended in the same way. -/
  finalize : ∀ s, forgetting plain (K.finalize s) = k.finalize (plain s)

/-- **A level goes on in the same way with two sinks**, of which one forgets
something about the other. -/
inductive Next.Forgets (plain : τ → σ) : Next τ → Next σ → Prop
  /-- With another instruction. -/
  | goOn {pc : Nat} {frame : Frame} {input : Input} {s : τ} :
    Forgets plain (.goOn pc frame input s) (.goOn pc frame input (plain s))
  /-- With a level below. -/
  | descend {pc : Nat} {child : τ} {put : τ → τ} {put' : σ → σ}
    {resume : Nat → Nat} {frame : Frame} {input : Input}
    (hput : ∀ below, plain (put below) = put' (plain below)) :
    Forgets plain (.descend pc child put resume frame input)
      (.descend pc (plain child) put' resume frame input)
  /-- Not at all: it closes. -/
  | close {input : Input} {s : τ} :
    Forgets plain (.close input s) (.close input (plain s))
  /-- Not at all: the run fails. -/
  | fail {cause : ExecutionCause} {input : Input} {s : τ} :
    Forgets plain (.fail cause input s) (.fail cause input (plain s))

/-- An outcome, with a part of the state forgotten. -/
def Outcome.forget {α : Type} (plain : τ → σ) (o : Outcome τ α) : Outcome σ α :=
  ⟨o.result, o.input, plain o.state⟩

variable {K : Sink τ} {k : Sink σ} {plain : τ → σ}

/-- The level after a call that both sinks meet. -/
theorem afterCall_forgets {r : EStateM.Result SinkError τ Unit}
    {r' : EStateM.Result SinkError σ Unit} (h : forgetting plain r = r')
    (pc : Nat) (frame : Frame) (input : Input) :
    Next.Forgets plain (afterCall pc frame input r)
      (afterCall pc frame input r') := by
  subst h
  cases r with
  | ok _ s => exact .goOn
  | error e s => exact .fail

/-- A request is met in the same way. -/
theorem Request.meet_forgets (h : K.Forgets k plain) (request : Request)
    (s : τ) : Next.Forgets plain (request.meet K s)
      (request.meet k (plain s)) := by
  cases request with
  | nothing next =>
    cases next with
    | goOn => exact .goOn
    | descend => exact .descend fun _ => rfl
    | close => exact .close
    | fail => exact .fail
  | set x pc frame input => exact afterCall_forgets (h.set x s) pc frame input
  | setDefault index pc frame input =>
    exact afterCall_forgets (h.setDefault index s) pc frame input
  | enter part pc frame input =>
    have hpart := h.enter part s
    dsimp only [meet]
    cases hr : K.enter part s with
    | ok put child =>
      rw [hr] at hpart
      obtain ⟨put', hpart, hput⟩ := hpart
      rw [hpart]
      exact .descend hput
    | error e s' =>
      rw [hr] at hpart
      rw [show k.enter part (plain s) = _ from hpart]
      exact .fail
  | finalize input =>
    dsimp only [meet]
    rw [← h.finalize s]
    cases K.finalize s with
    | ok _ s' => exact .close
    | error e s' => exact .fail

/-- An instruction does the same. -/
theorem step_forgets (h : K.Forgets k plain) (errors : List String)
    (i : Instruction) (pc : Nat) (frame : Frame) (input : Input) (s : τ) :
    Next.Forgets plain (step errors K i pc frame input s)
      (step errors k i pc frame input (plain s)) := by
  obtain ⟨request, -, hmeets⟩ := step_meets errors i pc frame input
  rw [hmeets, hmeets]
  exact request.meet_forgets h s

namespace Program

variable {p : Program} {maxDepth : Nat}

/-- **A level does the same with a sink and with what it forgets to.** -/
theorem runFrom_forgets (h : K.Forgets k plain) (steps : Nat) :
    ∀ (depth pc : Nat) (frame : Frame) (input : Input) (s : τ),
      (p.runFrom K maxDepth steps depth pc frame input s).map
          (Outcome.forget plain)
        = p.runFrom k maxDepth steps depth pc frame input (plain s) := by
  induction steps with
  | zero => intro depth pc frame input s; rfl
  | succ steps ih =>
    intro depth pc frame input s
    cases hi : p.instructions[pc]? with
    | none => rw [runFrom_outside hi, runFrom_outside hi]; rfl
    | some i =>
      rw [runFrom_next hi, runFrom_next hi]
      have hsame := step_forgets h p.errors i pc frame input s
      generalize step p.errors K i pc frame input s = next at hsame ⊢
      generalize step p.errors k i pc frame input (plain s) = next' at hsame ⊢
      -- The two go on in the same way, so the cases are those of one of them.
      cases hsame with
      | goOn => exact ih ..
      | close => rfl
      | fail => rfl
      | descend hput =>
        rename_i start child put put' resume frame' left
        dsimp only
        by_cases hd : maxDepth < depth + 1
        · rw [if_pos hd, if_pos hd, ← hput]
          rfl
        · rw [if_neg hd, if_neg hd, ← ih]
          cases p.runFrom K maxDepth steps (depth + 1) start .blank left
              child with
          | none => rfl
          | some inner =>
            obtain ⟨result, between, below⟩ := inner
            cases result with
            | error e =>
              show some (Outcome.forget plain _)
                = some ⟨_, _, put' (plain below)⟩
              rw [← hput]
              rfl
            | ok closed =>
              show _ = p.runFrom k maxDepth steps depth (resume closed) frame'
                between (put' (plain below))
              rw [← hput]
              exact ih ..

/-- **A run does the same with a sink and with what it forgets to.** -/
theorem run_forgets (h : K.Forgets k plain) (steps : Nat) (input : Input)
    (s : τ) :
    (p.run K maxDepth steps input s).map (Outcome.forget plain)
      = p.run k maxDepth steps input (plain s) := by
  unfold run
  rw [← runFrom_forgets h, Option.map_map, Option.map_map]
  rfl

end Program

end Forgets

end Avro
