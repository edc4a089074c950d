import Avro.Proofs.Decoding.Programs
import Avro.Proofs.Machine.Attribution
import Avro.Proofs.Program.Storing

/-!
# Runs in machine words

`step` calculates with integers and natural numbers. A machine has words of 64
bits, signed ones for operands and unsigned ones for indices and addresses, and
a loaded program may have any operands. `checkedStep` calculates in words and
has no result where an operation leaves its word, or where the program is
indexed outside. Only adding to the long register and multiplying it wrap
around, which is what they are meant to do. How deep a level is has nothing to
do with operands, and is bounded by the limit.

The two agree but for one operand (`Program.checkedStep_eq`): the number of a
message is counted from 1, and the least operand of `halt` has no predecessor.
A run in words is thus the run, unless it fails because this number names no
message (`Program.checkedRun_eq`). Everything else that is wrong with a program
is reported where it is met (`Program.Flaw`).
-/

namespace Avro

/-! ## Words -/

/-- An integer in a signed word. -/
def signedWord? (n : Int) : Option Int64 :=
  if -0x8000000000000000 ≤ n ∧ n < 0x8000000000000000 then some (Int64.ofInt n)
  else none

/-- A natural number in an unsigned word. -/
def word? (n : Nat) : Option Nat :=
  if n < 0x10000000000000000 then some n else none

theorem word?_eq {n : Nat} (h : n < 0x10000000000000000) : word? n = some n :=
  if_pos h

/-- **What becomes of a calculation in words.** -/
inductive Checked (α : Type)
  /-- It has a result. -/
  | done (a : α)
  /-- At this address an operation left its word, or the program was indexed
  outside. -/
  | broken (pc : Nat)
  deriving DecidableEq, Repr

/-- The result of a calculation in words, changed. -/
def Checked.map {α β : Type} (f : α → β) : Checked α → Checked β
  | done a => done (f a)
  | broken pc => broken pc

/-! ## Operands -/

/-- The kind of an operand: a size is what the operand has over 17. -/
def Kind.checked? (operand : Int64) : Option (Option Kind) :=
  if 17 ≤ operand.toInt then
    (signedWord? (operand.toInt - 17)).map fun n => (address? n).map fixed
  else some ((address? operand).bind fun n => simple[n]?)

/-- The message of an operand: the number is that which comes before it. -/
def checkedMessage? (errors : List String) (operand : Int64) :
    Option (Option String) :=
  (signedWord? (operand.toInt - 1)).map fun n =>
    (address? n).bind fun n => errors[n]?

/-- **The kinds are found in words.** -/
theorem Kind.checked?_eq (operand : Int64) :
    checked? operand = some (ofOperand? operand) := by
  have hle := operand.toInt_lt
  have hge := operand.le_toInt
  rw [checked?, ofOperand?]
  split
  · have hn : (Int64.ofInt (operand.toInt - 17)).toInt = operand.toInt - 17 :=
      Int64.toInt_ofInt_of_le (by omega) (by omega)
    rw [signedWord?, if_pos (by omega), Option.map_some, address?, hn,
      if_pos (by omega)]
    rfl
  · rw [address?]
    split <;> rfl

/-- **The messages are found in words**, except that of the least operand. -/
theorem checkedMessage?_eq (errors : List String) {operand : Int64}
    (hzero : operand ≠ 0) :
    checkedMessage? errors operand
      = if operand = Int64.minValue then none
        else some ((address? operand).bind fun n => errors[n - 1]?) := by
  have hne : operand.toInt ≠ 0 := fun h => hzero (Int64.toInt_inj.mp h)
  have hlt := operand.toInt_lt
  have hge := operand.le_toInt
  rw [checkedMessage?]
  by_cases hmin : operand = Int64.minValue
  · rw [if_pos hmin, hmin]
    rfl
  · have hmin' : operand.toInt ≠ -0x8000000000000000 :=
      fun h => hmin (Int64.toInt_inj.mp h)
    have hn : (Int64.ofInt (operand.toInt - 1)).toInt = operand.toInt - 1 :=
      Int64.toInt_ofInt_of_le (by omega) (by omega)
    rw [if_neg hmin, signedWord?, if_pos (by omega), Option.map_some, address?,
      address?, hn]
    by_cases hpos : 0 ≤ operand.toInt
    · rw [if_pos (by omega), if_pos hpos, Option.bind_some, Option.bind_some,
        show (operand.toInt - 1).toNat = operand.toInt.toNat - 1 by omega]
    · rw [if_neg (by omega), if_neg hpos]
      rfl

/-- **The instruction whose operand leaves its word**: the least number of a
message has no predecessor. -/
def Instruction.Overflows (i : Instruction) : Prop :=
  i.op = .halt ∧ i.operand = Int64.minValue

instance (i : Instruction) : Decidable i.Overflows :=
  inferInstanceAs (Decidable (_ ∧ _))

/-! ## Steps -/

section

variable {σ : Type}

/-- The level after a call on the sink that has no result, in words. -/
def checkedAfterCall (pc : Nat) (frame : Frame) (input : Input) :
    EStateM.Result SinkError σ Unit → Option (Next σ)
  | .ok () state => (word? (pc + 1)).map fun pc => .goOn pc frame input state
  | .error e state => some (.fail (.sink e) input state)

/-- The level below that an opened part starts, in words. -/
def checkedAfterOpening (pc : Nat) (frame : Frame) (input : Input) :
    EStateM.Result SinkError σ (σ → σ) → Option (Next σ)
  | .ok close child =>
    (word? (pc + 1)).map fun pc => .descend pc child close (· + 1) frame input
  | .error e state => some (.fail (.sink e) input state)

variable (p : Program) (k : Sink σ)

/-- What is done with an operand as an index or address. The operation that
refuses it is looked up in the program. -/
def Program.checkedAddress (pc : Nat) (operand : Int64) (input : Input)
    (state : σ) (use : Nat → Option (Next σ)) : Option (Next σ) :=
  match address? operand with
  | some n => use n
  | none => p.instructions[pc]?.map fun i =>
    .fail (.defect (.invalidOperand i.op.name operand)) input state

/-- **What an instruction does, in words.** -/
def Program.checkedStep (i : Instruction) (pc : Nat) (frame : Frame)
    (input : Input) (state : σ) : Option (Next σ) :=
  let invalid : Next σ :=
    .fail (.defect (.invalidOperand i.op.name i.operand)) input state
  let goOn (frame : Frame) (input : Input) : Option (Next σ) :=
    (word? (pc + 1)).map fun pc => .goOn pc frame input state
  match i.op with
  | .read =>
    (Kind.checked? i.operand).bind fun
    | none => some invalid
    | some kind =>
      match frame.read kind input with
      | .ok frame input => goOn frame input
      | .error e input => some (.fail (.decode e) input state)
  | .set =>
    (Kind.checked? i.operand).bind fun
    | none => some invalid
    | some kind =>
      match frame.delivery kind with
      | .nothing => goOn frame input
      | .scalar x =>
        checkedAfterCall pc (frame.delivered kind) input (k.set x state)
      | .impossible => some invalid
  | .setDefault =>
    p.checkedAddress pc i.operand input state fun index =>
      checkedAfterCall pc frame input (k.setDefault index state)
  | .enter =>
    p.checkedAddress pc i.operand input state fun index =>
      checkedAfterOpening pc frame input (k.enter (.field index) state)
  | .exit =>
    match k.finalize state with
    | .ok () state => some (.close input state)
    | .error e state => some (.fail (.sink e) input state)
  | .appendArray =>
    checkedAfterOpening pc frame input (k.enter .item state)
  | .appendMap =>
    checkedAfterOpening pc { frame with string := "" } input
      (k.enter (.entry frame.string) state)
  | .call =>
    p.checkedAddress pc i.operand input state fun target =>
      some (.descend target state id (fun _ => pc + 1) frame input)
  | .return | .popLoop => some (.close input state)
  | .jump =>
    p.checkedAddress pc i.operand input state fun target =>
      some (.goOn target frame input state)
  | .condJump =>
    if frame.condition then
      p.checkedAddress pc i.operand input state fun target =>
        some (.goOn target frame input state)
    else goOn frame input
  | .evalEqual => goOn { frame with condition := frame.long = i.operand } input
  | .evalGreater =>
    goOn { frame with condition := i.operand < frame.long } input
  | .addLong => goOn { frame with long := frame.long + i.operand } input
  | .multLong => goOn { frame with long := frame.long * i.operand } input
  | .pushLoop =>
    (word? (pc + 1)).map fun pc => .descend pc state id (· + 1) frame input
  | .halt =>
    if i.operand = 0 then some (.close input state)
    else
      (checkedMessage? p.errors i.operand).map fun
      | some message => .fail (.halt message) input state
      | none => .fail (.defect (.unknownMessage i.operand)) input state

variable {p k} {i : Instruction} {pc : Nat} {frame : Frame} {input : Input}
  {state : σ}

theorem checkedAfterCall_eq (hpc : pc + 1 < 0x10000000000000000)
    (r : EStateM.Result SinkError σ Unit) :
    checkedAfterCall pc frame input r = some (afterCall pc frame input r) := by
  cases r with
  | ok =>
    rw [checkedAfterCall, word?_eq hpc]
    rfl
  | error => rfl

theorem checkedAfterOpening_eq (hpc : pc + 1 < 0x10000000000000000)
    (r : EStateM.Result SinkError σ (σ → σ)) :
    checkedAfterOpening pc frame input r
      = some (afterOpening pc frame input r) := by
  cases r with
  | ok =>
    rw [checkedAfterOpening, word?_eq hpc]
    rfl
  | error => rfl

/-- The operation that refuses an operand is found, since it is being
executed. -/
theorem Program.checkedAddress_eq (hi : p.instructions[pc]? = some i)
    {use : Nat → Option (Next σ)} {use' : Nat → Next σ}
    (huse : ∀ n, use n = some (use' n)) :
    p.checkedAddress pc i.operand input state use
      = some (match address? i.operand with
        | none => .fail (.defect (.invalidOperand i.op.name i.operand)) input
          state
        | some n => use' n) := by
  rw [checkedAddress]
  cases address? i.operand with
  | some n => exact huse n
  | none =>
    rw [hi]
    rfl

/-- **An instruction does the same in words**, unless it stops. -/
theorem Program.checkedStep_eq_of_ne (hi : p.instructions[pc]? = some i)
    (hpc : pc + 1 < 0x10000000000000000) (hop : i.op ≠ .halt) :
    p.checkedStep k i pc frame input state
      = some (step p.errors k i pc frame input state) := by
  obtain ⟨op, operand, label⟩ := i
  cases op with
  | halt => exact absurd rfl hop
  | read =>
    simp only [checkedStep, step, Kind.checked?_eq, Option.bind_some,
      word?_eq hpc]
    cases Kind.ofOperand? operand with
    | none => rfl
    | some kind =>
      dsimp only
      cases frame.read kind input <;> rfl
  | set =>
    simp only [checkedStep, step, Kind.checked?_eq, Option.bind_some,
      word?_eq hpc]
    cases Kind.ofOperand? operand with
    | none => rfl
    | some kind =>
      dsimp only
      cases frame.delivery kind with
      | nothing | impossible => rfl
      | scalar x => exact checkedAfterCall_eq hpc _
  | setDefault =>
    exact checkedAddress_eq hi fun _ => checkedAfterCall_eq hpc _
  | enter => exact checkedAddress_eq hi fun _ => checkedAfterOpening_eq hpc _
  | exit =>
    simp only [checkedStep, step]
    cases k.finalize state <;> rfl
  | appendArray | appendMap => exact checkedAfterOpening_eq hpc _
  | call | jump => exact checkedAddress_eq hi fun _ => rfl
  | condJump =>
    simp only [checkedStep, step, word?_eq hpc]
    split
    · exact checkedAddress_eq hi fun _ => rfl
    · rfl
  | «return» | popLoop => rfl
  | evalEqual | evalGreater | addLong | multLong | pushLoop =>
    simp only [checkedStep, step, word?_eq hpc, Option.map_some]

/-- **An instruction does the same in words**, except the one that overflows. -/
theorem Program.checkedStep_eq (hi : p.instructions[pc]? = some i)
    (hpc : pc + 1 < 0x10000000000000000) :
    p.checkedStep k i pc frame input state
      = if i.Overflows then none
        else some (step p.errors k i pc frame input state) := by
  by_cases hop : i.op = .halt
  · obtain ⟨op, operand, label⟩ := i
    obtain rfl : op = .halt := hop
    simp only [checkedStep, step, Instruction.Overflows, true_and]
    by_cases hzero : operand = 0
    · subst hzero
      rfl
    · rw [if_neg hzero, if_neg hzero, checkedMessage?_eq p.errors hzero]
      split <;> rfl
  · rw [if_neg fun h => hop h.1, checkedStep_eq_of_ne hi hpc hop]

end

/-! ## Runs -/

section

variable {σ : Type}

/-- **An outcome of a run in words.** There is none for a run that fails since
the number that comes before the least operand names no message. -/
def Outcome.inWords {α : Type} (o : Outcome σ α) : Checked (Outcome σ α) :=
  match o.result with
  | .ok _ => .done o
  | .error e =>
    if e.cause = .defect (.unknownMessage Int64.minValue) then .broken e.pc
    else .done o

namespace Program

/-- **Runs a level in words.** -/
def checkedFrom (p : Program) (k : Sink σ) (maxDepth : Nat) :
    (steps depth pc : Nat) → Frame → Input → σ →
      Option (Checked (Outcome σ Nat))
  | 0, _, _, _, _, _ => none
  | steps + 1, depth, pc, frame, input, state =>
    match p.instructions[pc]? with
    | none =>
      some (.done
        ⟨.error (p.errorAt pc (.defect (.counterOutOfRange pc))), input, state⟩)
    | some i =>
      match p.checkedStep k i pc frame input state with
      | none => some (.broken pc)
      | some (.goOn pc frame input state) =>
        checkedFrom p k maxDepth steps depth pc frame input state
      | some (.close input state) => some (.done ⟨.ok pc, input, state⟩)
      | some (.fail cause input state) =>
        some (.done ⟨.error (p.errorAt pc cause), input, state⟩)
      | some (.descend start child close resume frame input) =>
        if maxDepth < depth + 1 then
          some (.done ⟨.error (p.errorAt start (.tooDeep (depth + 1) maxDepth)),
            input, close child⟩)
        else
          match checkedFrom p k maxDepth steps (depth + 1) start .blank input
            child with
          | none => none
          | some (.broken pc) => some (.broken pc)
          | some (.done ⟨.error e, input, child⟩) =>
            some (.done ⟨.error e, input, close child⟩)
          | some (.done ⟨.ok closed, input, child⟩) =>
            match word? (resume closed) with
            | none => some (.broken closed)
            | some pc =>
              checkedFrom p k maxDepth steps depth pc frame input (close child)

/-- **Runs a program in words.** -/
def checkedRun (p : Program) (k : Sink σ) (maxDepth steps : Nat)
    (input : Input) (state : σ) : Option (Checked (Outcome σ Unit)) :=
  (p.checkedFrom k maxDepth steps 0 0 .blank input state).map
    (Checked.map fun o => ⟨o.result.map fun _ => (), o.input, o.state⟩)

end Program

/-- The instruction that overflows fails, since there is no message. -/
theorem Instruction.Overflows.step_eq {errors : List String} {k : Sink σ}
    {i : Instruction} {pc : Nat} {frame : Frame} {input : Input} {state : σ}
    (h : i.Overflows) : step errors k i pc frame input state
      = .fail (.defect (.unknownMessage Int64.minValue)) input state := by
  obtain ⟨op, operand, label⟩ := i
  obtain ⟨rfl, rfl⟩ : op = .halt ∧ operand = Int64.minValue := h
  rfl

/-- No other instruction fails with the same cause. -/
theorem Instruction.Fails.overflows {errors : List String} {i : Instruction}
    {frame : Frame} {cause : ExecutionCause} (h : i.Fails errors frame cause)
    (hcause : cause = .defect (.unknownMessage Int64.minValue)) :
    i.Overflows := by
  cases h with
  | message wordless =>
    exact ⟨wordless.1,
      Defect.unknownMessage.inj (ExecutionCause.defect.inj hcause)⟩
  | decode | sink | halt | operand => exact absurd hcause nofun

namespace Program

variable {p : Program} {k : Sink σ} {maxDepth : Nat}

/-- **A level does the same in words**, unless it fails by an overflow. -/
theorem checkedFrom_eq (hsize : p.instructions.size < 0x10000000000000000)
    (steps : Nat) : ∀ (depth pc : Nat) (frame : Frame) (input : Input)
      (state : σ), p.checkedFrom k maxDepth steps depth pc frame input state
        = (p.runFrom k maxDepth steps depth pc frame input state).map
          Outcome.inWords := by
  induction steps with
  | zero => exact fun _ _ _ _ _ => rfl
  | succ steps ih =>
    intro depth pc frame input state
    cases hi : p.instructions[pc]? with
    | none =>
      rw [runFrom_outside hi, checkedFrom, hi]
      rfl
    | some i =>
      have hlt : pc < p.instructions.size :=
        (Array.getElem?_eq_some_iff.mp hi).1
      rw [runFrom_next hi, checkedFrom, hi]
      dsimp only
      rw [checkedStep_eq hi (by omega)]
      by_cases hover : i.Overflows
      · rw [if_pos hover, hover.step_eq]
        rfl
      · rw [if_neg hover]
        cases hs : step p.errors k i pc frame input state with
        | goOn pc' frame' input' state' => exact ih ..
        | close input' state' => rfl
        | fail cause input' state' =>
          have hcause : cause ≠ .defect (.unknownMessage Int64.minValue) :=
            fun h => hover ((step_fails hs).overflows h)
          exact congrArg some (if_neg hcause).symm
        | descend start child put resume frame' input' =>
          dsimp only
          by_cases hd : maxDepth < depth + 1
          · rw [if_pos hd, if_pos hd]
            rfl
          · rw [if_neg hd, if_neg hd, ih]
            cases hr : p.runFrom k maxDepth steps (depth + 1) start .blank
                input' child with
            | none => rfl
            | some inner =>
              obtain ⟨result, left, below⟩ := inner
              cases result with
              | error e =>
                by_cases hcause :
                    e.cause = .defect (.unknownMessage Int64.minValue)
                · simp only [Option.map_some, Outcome.inWords, if_pos hcause]
                · simp only [Option.map_some, Outcome.inWords, if_neg hcause]
              | ok closed =>
                -- The level below has closed inside the program.
                have hclosed := (runFrom_eq_some.mp hr).closed_lt rfl
                have hresume : resume closed < 0x10000000000000000 := by
                  rcases step_resumes hs closed with h | h <;> omega
                dsimp only [Option.map_some, Outcome.inWords]
                rw [word?_eq hresume]
                exact ih ..

/-- **A run is the same in words**, unless it fails by an overflow. -/
theorem checkedRun_eq (hsize : p.instructions.size < 0x10000000000000000)
    (steps : Nat) (input : Input) (state : σ) :
    p.checkedRun k maxDepth steps input state
      = (p.run k maxDepth steps input state).map Outcome.inWords := by
  rw [checkedRun, run, checkedFrom_eq hsize, Option.map_map, Option.map_map]
  congr 1
  funext out
  obtain ⟨result, left, t⟩ := out
  cases result with
  | ok closed => rfl
  | error e =>
    by_cases hcause : e.cause = .defect (.unknownMessage Int64.minValue)
    · simp only [Function.comp, Outcome.inWords, Except.map, if_pos hcause,
        Checked.map]
    · simp only [Function.comp, Outcome.inWords, Except.map, if_neg hcause,
        Checked.map]

end Program

end

/-! ## Flaws -/

section

variable {σ : Type} {errors : List String} {k : Sink σ} {i : Instruction}
  {pc : Nat} {frame : Frame} {input : Input} {state : σ}

/-- **An operand that cannot be used is refused.** -/
theorem Instruction.Unusable.step_eq (h : i.Unusable frame) :
    step errors k i pc frame input state
      = .fail (.defect (.invalidOperand i.op.name i.operand)) input state := by
  obtain ⟨op, operand, label⟩ := i
  cases op with
  | read =>
    dsimp only [step]
    rw [Kind.ofOperand?_eq_none.mpr h]
  | set =>
    dsimp only [step]
    cases hkind : Kind.ofOperand? operand with
    | none => rfl
    | some kind =>
      have himpossible : frame.delivery kind = .impossible := by
        rcases h with hneg | hlarge
        · exact absurd (Kind.ofOperand?_eq_none.mpr hneg) (by simp [hkind])
        · exact (Frame.delivery_eq_impossible hkind frame).mpr hlarge
      dsimp only
      rw [himpossible]
  | setDefault | enter | call | jump =>
    dsimp only [step]
    rw [address?_eq_none.mpr h]
  | condJump =>
    obtain ⟨hcondition, hneg⟩ := h
    dsimp only [step]
    rw [if_pos hcondition, address?_eq_none.mpr hneg]
  | exit | appendArray | appendMap | «return» | evalEqual | evalGreater
  | addLong | multLong | pushLoop | popLoop | halt => exact h.elim

/-- **A message that does not exist is missed.** -/
theorem Instruction.Wordless.step_eq (h : i.Wordless errors) :
    step errors k i pc frame input state
      = .fail (.defect (.unknownMessage i.operand)) input state := by
  obtain ⟨op, operand, label⟩ := i
  obtain ⟨rfl, hzero, hnone⟩ : op = .halt ∧ operand ≠ 0 ∧ _ := h
  dsimp only [step]
  rw [if_neg hzero, (message_eq_none hzero).mpr hnone]

end

namespace Program

variable {σ : Type}

/-- **What is wrong with a program** at a moment of a run. -/
inductive Flaw (p : Program) (m : Moment σ) : Defect → Prop
  /-- The run has left the program. -/
  | outside (past : p.instructions.size ≤ m.pc) :
    Flaw p m (.counterOutOfRange m.pc)
  /-- The operand of the instruction cannot be used. -/
  | operand {i : Instruction} (found : p.instructions[m.pc]? = some i)
    (unusable : i.Unusable m.frame) :
    Flaw p m (.invalidOperand i.op.name i.operand)
  /-- The message of the instruction does not exist. -/
  | message {i : Instruction} (found : p.instructions[m.pc]? = some i)
    (wordless : i.Wordless p.errors) : Flaw p m (.unknownMessage i.operand)

variable {p : Program} {k : Sink σ} {maxDepth : Nat}

/-- **A run fails where the program is flawed.** -/
theorem Flaw.failsAt {m : Moment σ} {d : Defect} (h : p.Flaw m d) :
    p.FailsAt k maxDepth m (p.errorAt m.pc (.defect d)) m.state := by
  cases h with
  | outside past => exact .outside (Array.getElem?_eq_none past)
  | operand found unusable => exact .instruction found unusable.step_eq
  | message found wordless => exact .instruction found wordless.step_eq

end Program

/-- **A defect that a moment explains is a flaw** of the program there. -/
theorem Moment.Explains.flaw {σ : Type} {p : Program} {maxDepth : Nat}
    {m : Moment σ} {e : ExecutionError} (h : m.Explains p maxDepth e)
    {d : Defect} (hcause : e.cause = .defect d) :
    p.Flaw m d ∧ e = p.errorAt m.pc (.defect d) := by
  cases h with
  | outside past =>
    obtain rfl := ExecutionCause.defect.inj hcause
    refine ⟨.outside past, ?_⟩
    rw [Program.errorAt, Array.getElem?_eq_none past]
    rfl
  | instruction found fails =>
    obtain rfl := hcause
    refine ⟨?_, ?_⟩
    · cases fails with
      | operand unusable => exact .operand found unusable
      | message wordless => exact .message found wordless
    · rw [Program.errorAt, found]
      rfl
  | tooDeep => cases hcause

namespace Program

variable {σ : Type} {p : Program} {k : Sink σ} {maxDepth : Nat}

/-- A level at a moment at which it fails ends with the error. -/
theorem FailsAt.ends {m : Moment σ} {e : ExecutionError} {last : σ}
    (h : p.FailsAt k maxDepth m e last) :
    ∃ left t, p.Ends k maxDepth m.depth m.pc m.frame m.input m.state
      ⟨.error e, left, t⟩ := by
  cases h with
  | outside missing => exact ⟨_, _, 1, runFrom_outside missing⟩
  | instruction found fails => exact ⟨_, _, .fail found fails⟩
  | tooDeep found descends forbidden =>
    exact ⟨_, _, .tooDeep found descends forbidden⟩

/-- **A run that comes to a moment at which it fails** yields the error. -/
theorem Reaches.yields {input : Input} {state last : σ} {m : Moment σ}
    {e : ExecutionError}
    (h : p.Reaches k maxDepth ⟨0, 0, .blank, input, state⟩ m)
    (hfails : p.FailsAt k maxDepth m e last) :
    ∃ left t, p.Yields k maxDepth input state ⟨.error e, left, t⟩ := by
  obtain ⟨left, t, hends⟩ := hfails.ends
  obtain ⟨t', hends⟩ := h.ends_error hends
  exact ⟨left, t', .of_ends hends⟩

/-- **A run in words breaks exactly if it comes to an overflow.** -/
theorem checkedRun_eq_broken (hsize : p.instructions.size < 0x10000000000000000)
    {input : Input} {state : σ} {pc : Nat} :
    (∃ steps, p.checkedRun k maxDepth steps input state = some (.broken pc))
      ↔ ∃ m i, p.Reaches k maxDepth ⟨0, 0, .blank, input, state⟩ m
        ∧ m.pc = pc ∧ p.instructions[pc]? = some i ∧ i.Overflows := by
  constructor
  · rintro ⟨steps, h⟩
    rw [checkedRun_eq hsize] at h
    obtain ⟨⟨result, left, t⟩, hrun, hbroken⟩ := Option.map_eq_some_iff.mp h
    cases result with
    | ok u => exact absurd hbroken nofun
    | error e =>
      by_cases hcause : e.cause = .defect (.unknownMessage Int64.minValue)
      · obtain rfl : e.pc = pc := by
          simpa only [Outcome.inWords, if_pos hcause, Checked.broken.injEq]
            using hbroken
        obtain ⟨-, m, last, hreaches, -, hexplains⟩ := exists_explains hrun
        cases hexplains with
        | outside | tooDeep => exact absurd hcause nofun
        | instruction found fails =>
          exact ⟨m, _, hreaches, rfl, found, fails.overflows hcause⟩
      · simp only [Outcome.inWords, if_neg hcause, reduceCtorEq] at hbroken
  · rintro ⟨m, i, hreaches, rfl, found, hover⟩
    obtain ⟨left, t, steps, hyields⟩ :=
      hreaches.yields (.instruction found hover.step_eq)
    refine ⟨steps, ?_⟩
    rw [checkedRun_eq hsize, hyields steps (Nat.le_refl _)]
    rfl

/-- **What a loaded program can do to the machine.** Whatever bytes it was
loaded from, so whatever its operands are, and whatever the input, the sink and
the limit on levels:

* its run in words is its run, except that it breaks where the run fails since
  the least operand of `halt` names no message;
* so the only operation that leaves its word is the one that counts the message
  of this operand, and nothing is indexed outside;
* every flaw of the program to which a run comes is reported as an error with
  its address;
* and no defect is reported that is not such a flaw. -/
theorem loaded_inWords {bytes : List UInt8} (h : ofBytes? bytes = .ok p)
    (k : Sink σ) (maxDepth : Nat) (input : Input) (state : σ) :
    (∀ steps, p.checkedRun k maxDepth steps input state
      = (p.run k maxDepth steps input state).map Outcome.inWords)
    ∧ (∀ pc, (∃ steps, p.checkedRun k maxDepth steps input state
        = some (.broken pc))
      ↔ ∃ m i, p.Reaches k maxDepth ⟨0, 0, .blank, input, state⟩ m
        ∧ m.pc = pc ∧ p.instructions[pc]? = some i ∧ i.Overflows)
    ∧ (∀ m d, p.Reaches k maxDepth ⟨0, 0, .blank, input, state⟩ m →
      p.Flaw m d → ∃ left t, p.Yields k maxDepth input state
        ⟨.error (p.errorAt m.pc (.defect d)), left, t⟩)
    ∧ ∀ steps e left t d,
      p.run k maxDepth steps input state = some ⟨.error e, left, t⟩ →
      e.cause = .defect d →
      ∃ m, p.Reaches k maxDepth ⟨0, 0, .blank, input, state⟩ m
        ∧ p.Flaw m d ∧ e = p.errorAt m.pc (.defect d) := by
  have hsize := (countable_of_ofBytes? h).instructions
  refine ⟨fun steps => checkedRun_eq hsize steps input state,
    fun pc => checkedRun_eq_broken hsize, fun m d hreaches hflaw => ?_,
    fun steps e left t d hrun hcause => ?_⟩
  · exact hreaches.yields hflaw.failsAt
  · obtain ⟨-, m, last, hreaches, -, hexplains⟩ := exists_explains hrun
    exact ⟨m, hreaches, hexplains.flaw hcause⟩

end Program

/-! ## Programs with extreme operands -/

namespace Rough

/-- A loop that is never left but by a jump to no address. -/
def program : Program where
  instructions := #[⟨.addLong, -1, "count"⟩, ⟨.evalGreater, -2, "count"⟩,
    ⟨.condJump, 0, "count"⟩, ⟨.evalEqual, -2, "count"⟩,
    ⟨.condJump, Int64.minValue, "out"⟩, ⟨.read, Int64.maxValue, "rest"⟩]
  methods := []
  errors := []

theorem ofBytes?_program :
    Program.ofBytes? program.toBytes = .ok program := by decide +kernel

/-- The flaw of the program is reported, and no operation leaves its word. -/
theorem loaded_inWords_program : Program.ofBytes? program.toBytes = .ok program
    ∧ ∀ (maxDepth : Nat) (input : Input),
      (∀ steps, program.checkedRun Trace.sink maxDepth steps input
          (Trace.start none)
        = (program.run Trace.sink maxDepth steps input (Trace.start none)).map
          Outcome.inWords)
      ∧ ∀ m d, program.Reaches Trace.sink maxDepth
          ⟨0, 0, .blank, input, Trace.start none⟩ m →
        program.Flaw m d → ∃ left t, program.Yields Trace.sink maxDepth input
          (Trace.start none)
          ⟨.error (program.errorAt m.pc (.defect d)), left, t⟩ := by
  refine ⟨ofBytes?_program, fun maxDepth input => ?_⟩
  obtain ⟨hwords, -, hflaws, -⟩ := Program.loaded_inWords ofBytes?_program
    Trace.sink maxDepth input (Trace.start none)
  exact ⟨hwords, hflaws⟩

/-- The bytes of a program that only stops, with the least operand. -/
def least : List UInt8 :=
  [1, 17, 255, 255, 255, 255, 255, 255, 255, 255, 255, 1, 0, 0, 0]

/-- **A loaded program can make an operation leave its word**: the run in words
of this one breaks at its only instruction. -/
theorem least_breaks : ∃ p, Program.ofBytes? least = .ok p
    ∧ p.checkedRun Trace.sink 64 1 (Input.ofBytes []) (Trace.start none)
      = some (.broken 0) :=
  ⟨⟨#[⟨.halt, Int64.minValue, ""⟩], [], []⟩, by decide +kernel, rfl⟩

end Rough

end Avro
