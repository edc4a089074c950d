import Avro.Machine.Basic
import Mathlib.Tactic.IntervalCases

/-!
# What an instruction can do

An instruction has an operand, which is a 64-bit integer whatever it stands for.
What can come of executing the instruction depends on the operation, on this
integer and on the registers, and hardly on the input or the sink: which failures
there can be (`Instruction.Fails`), where a level below starts and where the
level goes on after it.

It is said once, for all operations (`step_does`), and in terms of the operand as
an integer. What is true of the failures of instructions is read off there.
-/

namespace Avro

/-! ## Operands as integers -/

theorem address?_eq_none {operand : Int64} :
    address? operand = none ↔ operand.toInt < 0 := by
  simp [address?]

theorem address?_eq_some {operand : Int64} {n : Nat} :
    address? operand = some n ↔ operand.toInt = n := by
  rw [address?]
  split
  · rw [Option.some.injEq]
    omega
  · constructor
    · exact nofun
    · omega

/-- **Every operand that is not negative is a kind.** -/
theorem Kind.ofOperand?_eq_none {operand : Int64} :
    Kind.ofOperand? operand = none ↔ operand.toInt < 0 := by
  rw [Kind.ofOperand?]
  have hsimple : Kind.simple.length = 17 := rfl
  split
  · simp only [reduceCtorEq, false_iff]
    omega
  · split
    · rw [List.getElem?_eq_none_iff]
      omega
    · simp only [true_iff]
      omega

/-- **The kinds that can be delivered are the first eight.** -/
theorem Frame.delivery_eq_impossible {operand : Int64} {kind : Kind}
    (h : Kind.ofOperand? operand = some kind) (frame : Frame) :
    frame.delivery kind = .impossible ↔ 8 ≤ operand.toInt := by
  rw [Kind.ofOperand?] at h
  split at h
  · obtain rfl := Option.some.inj h
    simp only [delivery, true_iff]
    omega
  · split at h
    · have hlt : operand.toInt.toNat < 17 :=
        (List.getElem?_eq_some_iff.mp h).1
      have hcast : operand.toInt = operand.toInt.toNat := by omega
      rw [hcast]
      generalize operand.toInt.toNat = n at h hlt ⊢
      interval_cases n <;> cases h <;> simp [delivery]
    · cases h

/-! ## What an instruction fails with -/

/-- The operations that call the sink. -/
def Opcode.CallsSink : Opcode → Prop
  | set | setDefault | enter | exit | appendArray | appendMap => True
  | _ => False

/-- The operations that start a level right behind them. -/
def Opcode.Opens : Opcode → Prop
  | enter | appendArray | appendMap | pushLoop => True
  | _ => False

namespace Instruction

variable (i : Instruction) (errors : List String) (frame : Frame)

/-- **The operand cannot be used** with these registers: it is negative where a
kind, a position or an address is needed, or a kind that cannot be delivered. -/
def Unusable : Prop :=
  match i.op with
  | .read | .setDefault | .enter | .call | .jump => i.operand.toInt < 0
  | .set => i.operand.toInt < 0 ∨ 8 ≤ i.operand.toInt
  | .condJump => frame.condition = true ∧ i.operand.toInt < 0
  | _ => False

/-- **The message does not exist** with which the instruction stops. -/
def Wordless : Prop :=
  i.op = .halt ∧ i.operand ≠ 0
    ∧ ∀ n : Nat, i.operand.toInt = n + 1 → errors[n]? = none

/-- **A level starts below an instruction** at an address: behind it, or where
it calls. -/
def StartsAt (pc start : Nat) : Prop :=
  i.op.Opens ∧ start = pc + 1 ∨ i.op = .call ∧ i.operand.toInt = start

/-- **An instruction can fail with a cause.** -/
inductive Fails : ExecutionCause → Prop
  /-- Only `read` finds the input malformed. -/
  | decode {e : DecodeError} (reads : i.op = .read) : Fails (.decode e)
  /-- Only an operation that calls the sink is refused. -/
  | sink {e : SinkError} (calls : i.op.CallsSink) : Fails (.sink e)
  /-- Only `halt` stops with a message, and its operand is the number of it,
  counted from 1. -/
  | halt {message : String} {n : Nat} (halts : i.op = .halt)
    (number : i.operand.toInt = n + 1) (found : errors[n]? = some message) :
    Fails (.halt message)
  /-- An operand is refused where it stands, and only if it is unusable. -/
  | operand (unusable : i.Unusable frame) :
    Fails (.defect (.invalidOperand i.op.name i.operand))
  /-- A message is missed where it is asked for, and only if there is none. -/
  | message (wordless : i.Wordless errors) :
    Fails (.defect (.unknownMessage i.operand))

variable {σ : Type}

/-- **What an instruction can do** at an address, as far as levels and failures
are concerned. -/
inductive Does (pc : Nat) : Next σ → Prop
  /-- The level goes on. -/
  | goOn {pc' : Nat} {frame' : Frame} {left : Input} {t : σ} :
    Does pc (.goOn pc' frame' left t)
  /-- A level starts below, and this one goes on behind it or behind itself. -/
  | descend {start : Nat} {child : σ} {put : σ → σ} {resume : Nat → Nat}
    {frame' : Frame} {left : Input} (starts : i.StartsAt pc start)
    (resumes : ∀ closed, resume closed = closed + 1 ∨ resume closed = pc + 1) :
    Does pc (.descend start child put resume frame' left)
  /-- The level closes. -/
  | close {left : Input} {t : σ} : Does pc (.close left t)
  /-- The run fails. -/
  | fail {cause : ExecutionCause} {left : Input} {t : σ}
    (fails : i.Fails errors frame cause) : Does pc (.fail cause left t)

section

variable {i errors frame} {pc : Nat} {frame' : Frame} {input : Input}

theorem does_afterCall (h : i.op.CallsSink)
    (r : EStateM.Result SinkError σ Unit) :
    i.Does errors frame pc (afterCall pc frame' input r) := by
  cases r with
  | ok => exact .goOn
  | error e => exact .fail (.sink h)

theorem does_afterOpening (h : i.op.CallsSink) (hopens : i.op.Opens)
    (r : EStateM.Result SinkError σ (σ → σ)) :
    i.Does errors frame pc (afterOpening pc frame' input r) := by
  cases r with
  | ok => exact .descend (.inl ⟨hopens, rfl⟩) fun _ => .inl rfl
  | error e => exact .fail (.sink h)

end

end Instruction

/-- The message with which an instruction stops. -/
theorem message_eq_some {errors : List String} {operand : Int64}
    (hzero : operand ≠ 0) {message : String} :
    ((address? operand).bind fun n => errors[n - 1]?) = some message
      ↔ ∃ n : Nat, operand.toInt = n + 1 ∧ errors[n]? = some message := by
  have hne : operand.toInt ≠ 0 := fun h => hzero (Int64.toInt_inj.mp h)
  simp only [Option.bind_eq_some_iff, address?_eq_some]
  constructor
  · rintro ⟨n, hn, h⟩
    exact ⟨n - 1, by omega, h⟩
  · rintro ⟨n, hn, h⟩
    exact ⟨n + 1, hn, h⟩

/-- No message is found exactly if there is none. -/
theorem message_eq_none {errors : List String} {operand : Int64}
    (hzero : operand ≠ 0) :
    ((address? operand).bind fun n => errors[n - 1]?) = none
      ↔ ∀ n : Nat, operand.toInt = n + 1 → errors[n]? = none := by
  simp only [Option.eq_none_iff_forall_ne_some, ne_eq, message_eq_some hzero,
    not_exists, not_and]
  exact ⟨fun h n hn message => h message n hn,
    fun h message n hn => h n hn message⟩

section

variable {σ : Type} {errors : List String} {k : Sink σ} {i : Instruction}
  {pc : Nat} {frame : Frame} {input left : Input} {state t : σ}

/-- **A step does what its instruction can do.** -/
theorem step_does (i : Instruction) (input : Input) (state : σ) :
    i.Does errors frame pc (step errors k i pc frame input state) := by
  obtain ⟨op, operand, label⟩ := i
  cases op with
  | read =>
    dsimp only [step]
    cases hkind : Kind.ofOperand? operand with
    | none => exact .fail (.operand (Kind.ofOperand?_eq_none.mp hkind))
    | some kind =>
      dsimp only
      cases frame.read kind input with
      | ok => exact .goOn
      | error e => exact .fail (.decode rfl)
  | set =>
    dsimp only [step]
    cases hkind : Kind.ofOperand? operand with
    | none => exact .fail (.operand (.inl (Kind.ofOperand?_eq_none.mp hkind)))
    | some kind =>
      dsimp only
      cases hd : frame.delivery kind with
      | nothing => exact .goOn
      | scalar x => exact Instruction.does_afterCall (by trivial) _
      | impossible =>
        exact .fail (.operand
          (.inr ((Frame.delivery_eq_impossible hkind frame).mp hd)))
  | setDefault =>
    dsimp only [step]
    cases haddress : address? operand with
    | none => exact .fail (.operand (address?_eq_none.mp haddress))
    | some index => exact Instruction.does_afterCall (by trivial) _
  | enter =>
    dsimp only [step]
    cases haddress : address? operand with
    | none => exact .fail (.operand (address?_eq_none.mp haddress))
    | some index =>
      exact Instruction.does_afterOpening (by trivial) (by trivial) _
  | exit =>
    dsimp only [step]
    cases k.finalize state with
    | ok => exact .close
    | error e => exact .fail (.sink trivial)
  | appendArray | appendMap =>
    exact Instruction.does_afterOpening (by trivial) (by trivial) _
  | call =>
    dsimp only [step]
    cases haddress : address? operand with
    | none => exact .fail (.operand (address?_eq_none.mp haddress))
    | some target =>
      exact .descend (.inr ⟨rfl, address?_eq_some.mp haddress⟩)
        fun _ => .inr rfl
  | jump =>
    dsimp only [step]
    cases haddress : address? operand with
    | none => exact .fail (.operand (address?_eq_none.mp haddress))
    | some target => exact .goOn
  | condJump =>
    dsimp only [step]
    split
    next hcondition =>
      cases haddress : address? operand with
      | none =>
        exact .fail (.operand ⟨hcondition, address?_eq_none.mp haddress⟩)
      | some target => exact .goOn
    next => exact .goOn
  | pushLoop => exact .descend (.inl ⟨trivial, rfl⟩) fun _ => .inl rfl
  | halt =>
    dsimp only [step]
    split
    next => exact .close
    next hzero =>
      cases hm : (address? operand).bind fun n => errors[n - 1]? with
      | some message =>
        obtain ⟨n, hnumber, hfound⟩ := (message_eq_some hzero).mp hm
        exact .fail (.halt rfl hnumber hfound)
      | none =>
        exact .fail (.message ⟨rfl, hzero, (message_eq_none hzero).mp hm⟩)
  | «return» | popLoop => exact .close
  | evalEqual | evalGreater | addLong | multLong => exact .goOn

/-- **An instruction that fails** does so with one of its causes. -/
theorem step_fails {cause : ExecutionCause} (h : step errors k i pc frame input
    state = .fail cause left t) : i.Fails errors frame cause := by
  have hdoes : i.Does errors frame pc (step errors k i pc frame input state) :=
    step_does i input state
  rw [h] at hdoes
  cases hdoes with
  | fail fails => exact fails

/-- **Where the level below starts.** -/
theorem step_startsAt {start : Nat} {child : σ} {put : σ → σ}
    {resume : Nat → Nat} {frame' : Frame}
    (h : step errors k i pc frame input state
      = .descend start child put resume frame' left) : i.StartsAt pc start := by
  have hdoes : i.Does errors frame pc (step errors k i pc frame input state) :=
    step_does i input state
  rw [h] at hdoes
  cases hdoes with
  | descend starts => exact starts

/-- **Where the level goes on** after the level below. -/
theorem step_resumes {start : Nat} {child : σ} {put : σ → σ}
    {resume : Nat → Nat} {frame' : Frame}
    (h : step errors k i pc frame input state
      = .descend start child put resume frame' left) (closed : Nat) :
    resume closed = closed + 1 ∨ resume closed = pc + 1 := by
  have hdoes : i.Does errors frame pc (step errors k i pc frame input state) :=
    step_does i input state
  rw [h] at hdoes
  cases hdoes with
  | descend _ resumes => exact resumes closed

end

end Avro
