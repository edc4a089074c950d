import Avro.Proofs.Machine.Ending
import Avro.Proofs.Plan.Evaluation
import Avro.Proofs.Plan.Linked

/-!
# Code in front of code

What a piece of a program does is stated for a piece in front of anything
(`Program.Performs`): from the address of the piece, a level ends as it ends
from the address after it with the registers, input and sink that a
computation leaves, or it fails with the cause with which the computation
fails. Statements of this form are put together as the computations are
(`Performs.bind`), and an instruction is put in front by what a step does
(`Performs.goOn`).

A level below is the case that needs care. It starts with blank registers, it
may be one too many, and what closes it has still to do something
(`Program.performs_beneath`).
-/

namespace Avro

/-! ## Operands -/

/-- An address of a program in memory is found again in its operand. -/
theorem address?_target {n : Nat} (h : n < 0x8000000000000000) :
    address? (Code.target n) = some n := by
  have hn : (Code.target n).toInt = n := Int64.toInt_ofNat_of_lt h
  rw [address?, hn, if_pos (Int.natCast_nonneg n), Int.toNat_natCast]

/-- A kind is found again in its operand, if its size is a 64-bit number. -/
theorem Kind.ofOperand?_operand {kind : Kind}
    (h : ∀ n, kind = .fixed n → n + 17 < 0x8000000000000000) :
    Kind.ofOperand? kind.operand = some kind := by
  cases kind with
  | fixed n =>
    have hlt : 17 + n < 0x8000000000000000 := by
      have := h n rfl
      omega
    have hn : (Kind.fixed n).operand.toInt = (17 + n : Nat) :=
      Int64.toInt_ofNat_of_lt hlt
    rw [Kind.ofOperand?, hn, if_pos (by omega)]
    exact congrArg (some <| Kind.fixed ·) (by omega)
  | _ => rfl

/-! ## Instructions that plans are made of -/

section Instructions

variable {σ : Type} (errors : List String) (k : Sink σ) {i : Instruction}
  (pc : Nat) (frame : Frame) (input : Input) (state : σ)

/-- A plain instruction goes on with the next one or fails, and does the same
wherever it stands. -/
theorem step_plain (h : i.Plain) :
    (∃ frame' input' state',
      step [] k i 0 frame input state = .goOn 1 frame' input' state'
      ∧ step errors k i pc frame input state
        = .goOn (pc + 1) frame' input' state')
    ∨ ∃ cause input' state',
      step [] k i 0 frame input state = .fail cause input' state'
      ∧ step errors k i pc frame input state = .fail cause input' state' := by
  have hcall : ∀ (frame' : Frame) (r : EStateM.Result SinkError σ Unit),
      (∃ frame'' input' state',
        afterCall 0 frame' input r = .goOn 1 frame'' input' state'
        ∧ afterCall pc frame' input r = .goOn (pc + 1) frame'' input' state')
      ∨ ∃ cause input' state',
        afterCall 0 frame' input r = .fail cause input' state'
        ∧ afterCall pc frame' input r = .fail cause input' state' := by
    intro frame' r
    cases r with
    | ok u s => exact .inl ⟨_, _, _, rfl, rfl⟩
    | error e s => exact .inr ⟨_, _, _, rfl, rfl⟩
  obtain ⟨op, operand, label⟩ := i
  obtain rfl | rfl | rfl | rfl | rfl := h
  · dsimp only [step]
    cases Kind.ofOperand? operand with
    | none => exact .inr ⟨_, _, _, rfl, rfl⟩
    | some kind =>
      dsimp only
      cases frame.read kind input with
      | ok frame' left => exact .inl ⟨_, _, _, rfl, rfl⟩
      | error e left => exact .inr ⟨_, _, _, rfl, rfl⟩
  · dsimp only [step]
    cases Kind.ofOperand? operand with
    | none => exact .inr ⟨_, _, _, rfl, rfl⟩
    | some kind =>
      dsimp only
      cases frame.delivery kind with
      | nothing => exact .inl ⟨_, _, _, rfl, rfl⟩
      | scalar x => exact hcall _ _
      | impossible => exact .inr ⟨_, _, _, rfl, rfl⟩
  · dsimp only [step]
    cases address? operand with
    | none => exact .inr ⟨_, _, _, rfl, rfl⟩
    | some index => exact hcall _ _
  · exact .inl ⟨_, _, _, rfl, rfl⟩
  · exact .inl ⟨_, _, _, rfl, rfl⟩

/-- An opening instruction starts a level right after it or fails, and opens
the same part wherever it stands. -/
theorem step_opens (h : i.Opens) :
    (∃ child close frame' input',
      step [] k i 0 frame input state
        = .descend 1 child close (· + 1) frame' input'
      ∧ step errors k i pc frame input state
        = .descend (pc + 1) child close (· + 1) frame' input')
    ∨ ∃ cause input' state',
      step [] k i 0 frame input state = .fail cause input' state'
      ∧ step errors k i pc frame input state = .fail cause input' state' := by
  have hopening : ∀ (frame' : Frame)
      (r : EStateM.Result SinkError σ (σ → σ)),
      (∃ child close frame'' input',
        afterOpening 0 frame' input r
          = .descend 1 child close (· + 1) frame'' input'
        ∧ afterOpening pc frame' input r
          = .descend (pc + 1) child close (· + 1) frame'' input')
      ∨ ∃ cause input' state',
        afterOpening 0 frame' input r = .fail cause input' state'
        ∧ afterOpening pc frame' input r = .fail cause input' state' := by
    intro frame' r
    cases r with
    | ok u s => exact .inl ⟨_, _, _, _, rfl, rfl⟩
    | error e s => exact .inr ⟨_, _, _, rfl, rfl⟩
  obtain ⟨op, operand, label⟩ := i
  obtain rfl | rfl | rfl := h
  · dsimp only [step]
    cases address? operand with
    | none => exact .inr ⟨_, _, _, rfl, rfl⟩
    | some index => exact hopening _ _
  · exact hopening _ _
  · exact hopening _ _

variable {pc frame input state}

/-- Reading a kind that is found again in its operand. -/
theorem step_read {kind : Kind}
    (hk : Kind.ofOperand? kind.operand = some kind) (label : String) :
    step errors k (.read kind label) pc frame input state
      = match frame.read kind input with
        | .ok frame' left => .goOn (pc + 1) frame' left state
        | .error e left => .fail (.decode e) left state := by
  cases hread : frame.read kind input with
  | ok frame' left => simp only [step, Instruction.read, hk, hread]
  | error e left => simp only [step, Instruction.read, hk, hread]

/-- Reading a long. -/
theorem step_read_long (label : String) :
    step errors k (.read .long label) pc frame input state
      = match Wire.readLong input with
        | .ok n left => .goOn (pc + 1) { frame with long := n } left state
        | .error e left => .fail (.decode e) left state := by
  rw [step_read errors k (Kind.ofOperand?_operand (by rintro _ ⟨⟩))]
  simp only [Frame.read, bind, EStateM.bind]
  cases Wire.readLong input <;> rfl

/-- Reading a long that is dropped. -/
theorem step_read_unusedLong (label : String) :
    step errors k (.read .unusedLong label) pc frame input state
      = match Wire.readLong input with
        | .ok _ left => .goOn (pc + 1) frame left state
        | .error e left => .fail (.decode e) left state := by
  rw [step_read errors k (Kind.ofOperand?_operand (by rintro _ ⟨⟩))]
  simp only [Frame.read, bind, EStateM.bind]
  cases Wire.readLong input <;> rfl

end Instructions

namespace Program

variable {σ : Type} {p : Program} {k : Sink σ} {maxDepth depth : Nat}

/-! ## Instructions that go on -/

variable (p k) in
/-- **A level goes on** from an address to another one by instructions of its
own. -/
inductive GoesOn : Nat → Frame → Input × σ → Nat → Frame → Input × σ → Prop
  /-- By none. -/
  | here {pc : Nat} {frame : Frame} {s : Input × σ} :
    GoesOn pc frame s pc frame s
  /-- By an instruction in front of others. -/
  | next {pc q last : Nat} {frame f g : Frame} {s t u : Input × σ}
    {i : Instruction} : p.instructions[pc]? = some i →
    step p.errors k i pc frame s.1 s.2 = .goOn q f t.1 t.2 →
    GoesOn q f t last g u → GoesOn pc frame s last g u

namespace GoesOn

variable {pc q last : Nat} {frame f g : Frame} {s t u : Input × σ}

theorem trans (h : p.GoesOn k pc frame s q f t)
    (h' : p.GoesOn k q f t last g u) : p.GoesOn k pc frame s last g u := by
  induction h with
  | here => exact h'
  | next hi hs _ ih => exact .next hi hs (ih h')

/-- A level ends as it does from where it goes on. -/
theorem ends (h : p.GoesOn k pc frame s last g u) {o : Outcome σ Nat}
    (ho : p.Ends k maxDepth depth last g u.1 u.2 o) :
    p.Ends k maxDepth depth pc frame s.1 s.2 o := by
  induction h with
  | here => exact ho
  | next hi hs _ ih => exact .goOn hi hs (ih ho)

end GoesOn

/-! ## Code in front of other code -/

variable (p k maxDepth depth) in
/-- **From an address, a level does what a computation did**: it ends as from
the address that comes next, or it fails with the same cause. -/
def Performs (pc : Nat) (frame : Frame) (s : Input × σ) (next : Nat) :
    EStateM.Result ExecutionCause (Input × σ) Frame → Prop
  | .ok frame' s' =>
    ∀ o, p.Ends k maxDepth depth next frame' s'.1 s'.2 o →
      p.Ends k maxDepth depth pc frame s.1 s.2 o
  | .error cause s' =>
    ∃ e : ExecutionError, e.cause = cause
      ∧ p.Ends k maxDepth depth pc frame s.1 s.2 ⟨.error e, s'.1, s'.2⟩

namespace Performs

variable {pc q mid next : Nat} {frame f : Frame} {s t : Input × σ}
  {i : Instruction} {r : EStateM.Result ExecutionCause (Input × σ) Frame}

theorem refl (pc : Nat) (frame : Frame) (s : Input × σ) :
    p.Performs k maxDepth depth pc frame s pc (.ok frame s) :=
  fun _ h => h

/-- What is in front of a level that ends as another is in front of that
one. -/
theorem of_ends
    (hpre : ∀ o, p.Ends k maxDepth depth q f t.1 t.2 o →
      p.Ends k maxDepth depth pc frame s.1 s.2 o)
    (h : p.Performs k maxDepth depth q f t next r) :
    p.Performs k maxDepth depth pc frame s next r := by
  cases r with
  | ok frame' s' => exact fun o ho => hpre o (h o ho)
  | error cause s' =>
    obtain ⟨e, hcause, he⟩ := h
    exact ⟨e, hcause, hpre _ he⟩

/-- An instruction that goes on, in front of other code. -/
theorem goOn (hi : p.instructions[pc]? = some i)
    (hs : step p.errors k i pc frame s.1 s.2 = .goOn q f t.1 t.2)
    (h : p.Performs k maxDepth depth q f t next r) :
    p.Performs k maxDepth depth pc frame s next r :=
  of_ends (fun _ ho => .goOn hi hs ho) h

/-- An instruction that fails. -/
theorem fail {cause : ExecutionCause} (hi : p.instructions[pc]? = some i)
    (hs : step p.errors k i pc frame s.1 s.2 = .fail cause t.1 t.2) :
    p.Performs k maxDepth depth pc frame s next (.error cause t) :=
  ⟨_, rfl, .fail hi hs⟩

/-- **Code in front of code.** -/
theorem bind {m : Running σ Frame} {f : Frame → Running σ Frame}
    (hm : p.Performs k maxDepth depth pc frame s mid (m s))
    (hf : ∀ frame' s', m s = .ok frame' s' →
      p.Performs k maxDepth depth mid frame' s' next (f frame' s')) :
    p.Performs k maxDepth depth pc frame s next ((m >>= f) s) := by
  cases hr : m s with
  | error cause s' =>
    rw [Running.bind_error hr]
    rw [hr] at hm
    exact hm
  | ok frame' s' =>
    rw [Running.bind_ok hr]
    rw [hr] at hm
    exact of_ends hm (hf frame' s' hr)

end Performs

/-! ## Levels below -/

/-- An instruction that closes a level after a last computation. -/
def Closes (p : Program) (k : Sink σ) (pc : Nat) (closing : Running σ Unit) :
    Prop :=
  ∃ i, p.instructions[pc]? = some i ∧ ∀ frame s,
    match closing s with
    | .ok () s' => step p.errors k i pc frame s.1 s.2 = .close s'.1 s'.2
    | .error cause s' =>
      step p.errors k i pc frame s.1 s.2 = .fail cause s'.1 s'.2

/-- **A level below does what its plan does** and is closed by what stands
after it. -/
theorem performs_beneath {body : Demand → Plan} {levels : Nat}
    (hdepth : depth + levels = maxDepth) {plan : Plan} {start size : Nat}
    (hplan : ∀ l, levels = l + 1 → ∀ s : Input × σ,
      p.Performs k maxDepth (depth + 1) start .blank s (start + size)
        (Plan.eval k maxDepth body l plan .blank s))
    {closing : Running σ Unit} (hclosing : p.Closes k (start + size) closing)
    {i : Instruction} {pc : Nat} {frame f : Frame} {s t : Input × σ}
    {put : σ → σ} {resume : Nat → Nat}
    (hi : p.instructions[pc]? = some i)
    (hs : step p.errors k i pc frame s.1 s.2
      = .descend start t.2 put resume f t.1) :
    p.Performs k maxDepth depth pc frame s (resume (start + size))
      (match (do
        Plan.beneath maxDepth (Plan.evalBelow k maxDepth body levels) plan
        closing) t with
      | .ok () u => .ok f (u.1, put u.2)
      | .error cause u => .error cause (u.1, put u.2)) := by
  cases levels with
  | zero =>
    have hlimit : depth = maxDepth := hdepth
    subst hlimit
    exact ⟨_, rfl, .tooDeep hi hs (Nat.lt_succ_self _)⟩
  | succ l =>
    have hd : depth + 1 ≤ maxDepth := by omega
    have h := hplan l rfl t
    have hbeneath : Plan.beneath maxDepth
        (Plan.evalBelow k maxDepth body (l + 1)) plan t
        = (do
          let _ ← Plan.eval k maxDepth body l plan .blank
          return ()) t := rfl
    cases hr : Plan.eval k maxDepth body l plan .blank t with
    | error cause u =>
      rw [Running.bind_error (hbeneath.trans (Running.bind_error hr))]
      rw [hr] at h
      obtain ⟨e, hcause, he⟩ := h
      exact ⟨e, hcause, .descend_error hi hs hd he⟩
    | ok last u =>
      rw [Running.bind_ok (hbeneath.trans (Running.bind_ok hr))]
      rw [hr] at h
      obtain ⟨j, hj, hclose⟩ := hclosing
      have hclose := hclose last u
      cases hc : closing u with
      | error cause v =>
        rw [hc] at hclose
        exact ⟨_, rfl, .descend_error hi hs hd (h _ (.fail hj hclose))⟩
      | ok _ v =>
        rw [hc] at hclose
        exact fun o ho => .descend hi hs hd (h _ (.close hj hclose)) ho

/-- A level below on the sink of the level above, which is closed at once:
a method or a round of a loop. -/
theorem performs_beneath_same {body : Demand → Plan} {levels : Nat}
    (hdepth : depth + levels = maxDepth) {plan : Plan} {start size : Nat}
    (hplan : ∀ l, levels = l + 1 → ∀ s : Input × σ,
      p.Performs k maxDepth (depth + 1) start .blank s (start + size)
        (Plan.eval k maxDepth body l plan .blank s))
    {j : Instruction} (hj : p.instructions[start + size]? = some j)
    (hclose : ∀ frame (s : Input × σ),
      step p.errors k j (start + size) frame s.1 s.2 = .close s.1 s.2)
    {i : Instruction} {pc : Nat} {frame : Frame} {s : Input × σ}
    {resume : Nat → Nat} (hi : p.instructions[pc]? = some i)
    (hs : step p.errors k i pc frame s.1 s.2
      = .descend start s.2 id resume frame s.1) :
    p.Performs k maxDepth depth pc frame s (resume (start + size))
      ((do
        Plan.beneath maxDepth (Plan.evalBelow k maxDepth body levels) plan
        return frame) s) := by
  have hcloses : p.Closes k (start + size) (pure ()) := ⟨j, hj, hclose⟩
  have h := performs_beneath hdepth hplan hcloses hi hs
  rw [bind_pure_unit] at h
  cases hr : Plan.beneath maxDepth (Plan.evalBelow k maxDepth body levels)
      plan s with
  | error cause u =>
    rw [Running.bind_error hr]
    rw [hr] at h
    exact h
  | ok _ u =>
    rw [Running.bind_ok hr]
    rw [hr] at h
    exact h

end Program

end Avro
