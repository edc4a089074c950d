import Avro.Compile.Plan
import Avro.Proofs.Wire.Consumption

/-!
# What a plan does

A plan is a tree, and so is a run of the program it is laid out as: a part of
a sink that is opened, a round of a loop and a call of a method are levels of
the machine, and each ends where its node of the tree ends. `Plan.eval` reads
that off the tree. It knows nothing of addresses, of the instructions that
test and jump, or of the names by which methods are found; what it has in
common with the machine is the meaning of a single instruction
(`Plan.perform`, `Plan.opened`), which is the machine's own.

Evaluation recurses on the levels that the limit still allows, and within a
level on the plan. It is therefore a total function, although the plans of
methods may call each other without end. A loop over blocks would have to
recurse on the input; every block takes at least a byte, so a loop is allowed
one block more than there are bytes (`Running.blocks`), and
`Running.Consumes` is what shows that it never asks for more.
-/

namespace Avro

/-- **A computation on the input and the sink of a level**, which may fail. -/
abbrev Running (σ α : Type) := EStateM ExecutionCause (Input × σ) α

namespace Running

variable {σ α β : Type}

/-- A read, which leaves the sink alone. -/
def reading (m : Read α) : Running σ α := fun s =>
  match m s.1 with
  | .ok a input => .ok a (input, s.2)
  | .error e input => .error (.decode e) (input, s.2)

/-- A call on the sink, which leaves the input alone. -/
def calling (m : SinkEffect σ α) : Running σ α := fun s =>
  match m s.2 with
  | .ok a state => .ok a (s.1, state)
  | .error e state => .error (.sink e) (s.1, state)

/-- A computation that succeeds goes on with what follows it. -/
theorem bind_ok {m : Running σ α} {f : α → Running σ β}
    {s s' : Input × σ} {a : α} (h : m s = .ok a s') :
    (m >>= f) s = f a s' := by
  simp only [bind, EStateM.bind, h]

/-- Nothing follows a computation that fails. -/
theorem bind_error {m : Running σ α} {f : α → Running σ β}
    {s s' : Input × σ} {cause : ExecutionCause} (h : m s = .error cause s') :
    (m >>= f) s = .error cause s' := by
  simp only [bind, EStateM.bind, h]

/-- A read that succeeds. -/
theorem reading_ok {m : Read α} {s : Input × σ} {a : α} {left : Input}
    (h : m s.1 = .ok a left) : reading m s = .ok a (left, s.2) := by
  simp only [reading, h]

/-- A read that fails. -/
theorem reading_error {m : Read α} {s : Input × σ} {e : DecodeError}
    {left : Input} (h : m s.1 = .error e left) :
    reading m s = .error (.decode e) (left, s.2) := by
  simp only [reading, h]

/-! ## Loops -/

/-- A number of rounds, one after another. -/
def rounds (round : Running σ Unit) : (count : Nat) → Running σ Unit
  | 0 => return ()
  | count + 1 => do
    round
    rounds round count

/-- A round that succeeds is followed by the other rounds. -/
theorem rounds_ok {round : Running σ Unit} {s t : Input × σ}
    (h : round s = .ok () t) (count : Nat) :
    rounds round (count + 1) s = rounds round count t := by
  rw [rounds, bind_ok h]

/-- A round that fails is the last one. -/
theorem rounds_error {round : Running σ Unit} {s t : Input × σ}
    {cause : ExecutionCause} (h : round s = .error cause t) (count : Nat) :
    rounds round (count + 1) s = .error cause t := by
  rw [rounds, bind_error h]

/-- Reads the header of a block: the number of its items. A negative number
stands for its magnitude and has a byte count after it, which is dropped. -/
def blockCount : Running σ Nat := do
  let count ← reading Wire.readLong
  if count < 0 then do
    let _ ← reading Wire.readLong
    return count.toInt.natAbs
  else return count.toInt.natAbs

/-- Blocks up to the empty one, of which at most `more` are read. -/
def blocksWithin (round : Running σ Unit) : (more : Nat) → Running σ Unit
  | 0 => throw (.decode .unexpectedEnd)
  | more + 1 => do
    let count ← blockCount
    if count = 0 then return ()
    else do
      rounds round count
      blocksWithin round more

/-- **A loop over blocks**, with a round for every item. There are at most as
many blocks as bytes, and one more that is found missing. -/
def blocks (round : Running σ Unit) : Running σ Unit := fun s =>
  blocksWithin round (s.1.rest.length + 1) s

/-- **A property that loops have** if their rounds have it: what a loop adds to
its rounds has it. -/
structure LoopClosed (C : ∀ {α : Type}, Running σ α → Prop) : Prop where
  /-- What does nothing has it. -/
  pure : ∀ {α : Type} (a : α), C (Pure.pure a : Running σ α)
  /-- What is done one after the other has it. -/
  bind : ∀ {α β : Type} {m : Running σ α} {f : α → Running σ β},
    C m → (∀ a, C (f a)) → C (m >>= f)
  /-- Reading the header of a block has it. -/
  readLong : C (reading Wire.readLong)
  /-- So has the failure for want of a block. -/
  ends : C (throw (.decode .unexpectedEnd) : Running σ Unit)

namespace LoopClosed

variable {C : ∀ {α : Type}, Running σ α → Prop}

theorem rounds (hC : LoopClosed C) {round : Running σ Unit} (h : C round) :
    ∀ count, C (Running.rounds round count)
  | 0 => hC.pure ()
  | count + 1 => hC.bind h (fun _ => rounds hC h count)

theorem blockCount (hC : LoopClosed C) :
    C (Running.blockCount : Running σ Nat) :=
  hC.bind hC.readLong fun _ => iteInduction
    (fun _ => hC.bind hC.readLong fun _ => hC.pure _) (fun _ => hC.pure _)

/-- **A loop that is bounded has it.** -/
theorem blocksWithin (hC : LoopClosed C) {round : Running σ Unit}
    (h : C round) : ∀ more, C (Running.blocksWithin round more)
  | 0 => hC.ends
  | more + 1 =>
    hC.bind hC.blockCount fun count => iteInduction (fun _ => hC.pure ())
      (fun _ => hC.bind (hC.rounds h count) fun _ => blocksWithin hC h more)

end LoopClosed

/-! ## Computations that consume -/

/-- **A computation leaves a part of its input**, also when it fails. -/
def Consumes (m : Running σ α) : Prop :=
  ∀ s,
    match m s with
    | .ok _ s' | .error _ s' => s'.1.LeftOf s.1

namespace Consumes

theorem pure (a : α) : Consumes (Pure.pure a : Running σ α) :=
  fun s => Input.LeftOf.refl s.1

theorem throw (cause : ExecutionCause) :
    Consumes (throw cause : Running σ α) :=
  fun s => Input.LeftOf.refl s.1

theorem bind {m : Running σ α} {f : α → Running σ β} (hm : Consumes m)
    (hf : ∀ a, Consumes (f a)) : Consumes (m >>= f) := by
  intro s
  have h := hm s
  simp only [Bind.bind, EStateM.bind]
  cases hr : m s with
  | error e s' => rw [hr] at h; exact h
  | ok a s' =>
    rw [hr] at h
    have h' := hf a s'
    show (match f a s' with
      | .ok _ s'' | .error _ s'' => s''.1.LeftOf s.1)
    cases hr' : f a s' with
    | error e s'' => rw [hr'] at h'; exact h'.trans h
    | ok b s'' => rw [hr'] at h'; exact h'.trans h

theorem reading {m : Read α} (hm : m.Consumes) :
    Consumes (Running.reading m : Running σ α) := by
  intro s
  have h := hm s.1
  unfold Running.reading
  cases hr : m s.1 with
  | error e left => rw [hr] at h; exact h
  | ok a left => rw [hr] at h; exact h

theorem calling (m : SinkEffect σ α) : Consumes (Running.calling m) := by
  intro s
  unfold Running.calling
  cases m s.2 with
  | error e state => exact Input.LeftOf.refl s.1
  | ok a state => exact Input.LeftOf.refl s.1

theorem loopClosed : LoopClosed (σ := σ) Consumes :=
  ⟨pure, bind, reading .readLong, throw _⟩

theorem blocks {round : Running σ Unit} (h : Consumes round) :
    Consumes (Running.blocks round) :=
  fun s => loopClosed.blocksWithin h (s.1.rest.length + 1) s

end Consumes

/-- The header of a block takes at least a byte. -/
theorem blockCount_length_lt {s s' : Input × σ} {count : Nat}
    (h : blockCount s = .ok count s') :
    s'.1.rest.length < s.1.rest.length := by
  unfold blockCount at h
  cases hr : Wire.readLong s.1 with
  | error e left =>
    rw [bind_error (reading_error hr)] at h
    exact absurd h (by simp)
  | ok n left =>
    rw [bind_ok (reading_ok hr)] at h
    refine Nat.lt_of_le_of_lt ?_ (Wire.readLong_length_lt hr)
    have hc : Consumes (if n < 0 then (do
          let _ ← Running.reading Wire.readLong
          return n.toInt.natAbs)
        else return n.toInt.natAbs : Running σ Nat) :=
      iteInduction (fun _ => .bind (.reading .readLong) fun _ => .pure _)
        (fun _ => .pure _)
    have hleft := hc (left, s.2)
    rw [h] at hleft
    exact hleft.length_le

/-- A loop that is allowed more blocks than there are bytes does not depend
on how many. -/
theorem blocksWithin_eq {round : Running σ Unit} (h : Consumes round)
    {n m : Nat} :
    ∀ {s : Input × σ}, s.1.rest.length < n → s.1.rest.length < m →
      blocksWithin round n s = blocksWithin round m s := by
  induction n generalizing m with
  | zero => intro s hn _; exact absurd hn (Nat.not_lt_zero _)
  | succ n ih =>
    intro s hn hm
    obtain ⟨m, rfl⟩ : ∃ l, m = l + 1 := ⟨m - 1, by omega⟩
    unfold blocksWithin
    cases hc : blockCount s with
    | error cause s' => rw [bind_error hc, bind_error hc]
    | ok count s' =>
      rw [bind_ok hc, bind_ok hc]
      by_cases h0 : count = 0
      · rw [if_pos h0, if_pos h0]
      · rw [if_neg h0, if_neg h0]
        have hlt := blockCount_length_lt hc
        have hrounds := Consumes.loopClosed.rounds h count s'
        cases hr : rounds round count s' with
        | error cause s'' => rw [bind_error hr, bind_error hr]
        | ok u s'' =>
          rw [hr] at hrounds
          have hle := hrounds.length_le
          rw [bind_ok hr, bind_ok hr]
          exact ih (by omega) (by omega)

/-- **A loop over blocks is a block and a loop over blocks**, or the empty
block. -/
theorem blocks_eq {round : Running σ Unit} (h : Consumes round)
    (s : Input × σ) :
    blocks round s = (do
      let count ← blockCount
      if count = 0 then return ()
      else do
        rounds round count
        blocks round) s := by
  show blocksWithin round (s.1.rest.length + 1) s = _
  rw [blocksWithin]
  cases hc : blockCount s with
  | error cause s' => rw [bind_error hc, bind_error hc]
  | ok count s' =>
    rw [bind_ok hc, bind_ok hc]
    by_cases h0 : count = 0
    · rw [if_pos h0, if_pos h0]
    · rw [if_neg h0, if_neg h0]
      have hlt := blockCount_length_lt hc
      have hrounds := Consumes.loopClosed.rounds h count s'
      cases hr : rounds round count s' with
      | error cause s'' => rw [bind_error hr, bind_error hr]
      | ok u s'' =>
        rw [hr] at hrounds
        have hle := hrounds.length_le
        rw [bind_ok hr, bind_ok hr]
        exact blocksWithin_eq h (by omega) (by omega)

end Running

/-! ## What instructions do to the input -/

/-- The input after an instruction. -/
def Next.left {σ : Type} : Next σ → Input
  | .goOn _ _ input _ => input
  | .descend _ _ _ _ _ input => input
  | .close input _ => input
  | .fail _ input _ => input

/-- What an instruction does, on another input. -/
def Next.withInput {σ : Type} (input : Input) : Next σ → Next σ
  | .goOn pc frame _ state => .goOn pc frame input state
  | .descend pc child put resume frame _ =>
    .descend pc child put resume frame input
  | .close _ state => .close input state
  | .fail cause _ state => .fail cause input state

/-- **Only reads look at the input.** -/
theorem step_of_ne_read {σ : Type} (errors : List String) {k : Sink σ}
    {i : Instruction} (h : i.op ≠ .read) (pc : Nat) (frame : Frame)
    (input other : Input) (state : σ) :
    step errors k i pc frame input state
      = (step errors k i pc frame other state).withInput input := by
  have hcall : ∀ (f : Frame) (r : EStateM.Result SinkError σ Unit),
      afterCall pc f input r = (afterCall pc f other r).withInput input := by
    intro f r
    cases r <;> rfl
  have hopening : ∀ (f : Frame) (r : EStateM.Result SinkError σ (σ → σ)),
      afterOpening pc f input r
        = (afterOpening pc f other r).withInput input := by
    intro f r
    cases r <;> rfl
  obtain ⟨op, operand, label⟩ := i
  cases op with
  | read => exact absurd rfl h
  | set =>
    dsimp only [step]
    cases Kind.ofOperand? operand with
    | none => rfl
    | some kind =>
      dsimp only
      cases frame.delivery kind with
      | nothing => rfl
      | scalar x => exact hcall _ _
      | impossible => rfl
  | setDefault =>
    dsimp only [step]
    cases address? operand with
    | none => rfl
    | some index => exact hcall _ _
  | enter =>
    dsimp only [step]
    cases address? operand with
    | none => rfl
    | some index => exact hopening _ _
  | exit =>
    dsimp only [step]
    cases k.finalize state <;> rfl
  | appendArray | appendMap => exact hopening _ _
  | call | jump =>
    dsimp only [step]
    cases address? operand <;> rfl
  | condJump =>
    dsimp only [step]
    cases frame.condition with
    | false => rfl
    | true => cases address? operand <;> rfl
  | halt =>
    dsimp only [step]
    split
    · rfl
    · split <;> rfl
  | «return» | popLoop | evalEqual | evalGreater | addLong | multLong
  | pushLoop => rfl

/-- What does not read leaves its input. -/
theorem step_left_of_ne_read {σ : Type} (errors : List String) {k : Sink σ}
    {i : Instruction} (h : i.op ≠ .read) (pc : Nat) (frame : Frame)
    (input : Input) (state : σ) :
    (step errors k i pc frame input state).left = input := by
  rw [step_of_ne_read errors h pc frame input input state]
  cases step errors k i pc frame input state <;> rfl

/-- **An instruction leaves a part of its input.** -/
theorem step_left {σ : Type} {errors : List String} {k : Sink σ}
    {i : Instruction} {pc : Nat} {frame : Frame} {input : Input} {state : σ}
    {next : Next σ} (h : step errors k i pc frame input state = next) :
    next.left.LeftOf input := by
  subst h
  by_cases hread : i.op = .read
  · obtain ⟨op, operand, label⟩ := i
    obtain rfl : op = .read := hread
    dsimp only [step]
    cases Kind.ofOperand? operand with
    | none => exact Input.LeftOf.refl input
    | some kind =>
      have h := Read.Consumes.frameRead frame kind input
      dsimp only
      cases hr : frame.read kind input with
      | error e left => rw [hr] at h; exact h
      | ok frame' left => rw [hr] at h; exact h
  · rw [step_left_of_ne_read errors hread pc frame input state]
    exact Input.LeftOf.refl input

namespace Plan

open Running (reading calling blocks)

section

variable {σ : Type} (k : Sink σ) (limit : Nat) (body : Demand → Plan)

/-- **Performs an instruction** that stays on its level. -/
def perform (i : Instruction) (frame : Frame) : Running σ Frame := fun s =>
  match step [] k i 0 frame s.1 s.2 with
  | .goOn _ frame input state => .ok frame (input, state)
  | .fail cause input state => .error cause (input, state)
  | .close input state => .ok frame (input, state)
  | .descend _ child _ _ frame input => .ok frame (input, child)

/-- **Opens a part of the sink** by an instruction, runs what is meant for
the part, and puts the part back. -/
def opened (i : Instruction) (inner : Running σ Unit) (frame : Frame) :
    Running σ Frame := fun s =>
  match step [] k i 0 frame s.1 s.2 with
  | .descend _ child close _ frame input =>
    match inner (input, child) with
    | .ok () t => .ok frame (t.1, close t.2)
    | .error cause t => .error cause (t.1, close t.2)
  | .fail cause input state => .error cause (input, state)
  | .goOn _ frame input state => .ok frame (input, state)
  | .close input state => .ok frame (input, state)

/-- Runs a plan on a level below, if the limit allows one. -/
def beneath (below : Option (Plan → Running σ Frame)) (plan : Plan) :
    Running σ Unit :=
  match below with
  | none => throw (.tooDeep (limit + 1) limit)
  | some run => do
    let _ ← run plan
    return ()

/-- Runs a plan on a level below and ends the part of the sink. -/
def beneathPart (below : Option (Plan → Running σ Frame)) (plan : Plan) :
    Running σ Unit := do
  beneath limit below plan
  calling k.finalize

/-- The long register rewritten to the number that a case delivers. -/
def renumbered (delivered : Option Nat) (frame : Frame) : Running σ Frame :=
  match delivered with
  | none => return frame
  | some index => do
    calling (k.set (.long (Int64.ofNat index)))
    return { frame with long := Int64.ofNat index }

mutual

/-- Runs a plan on a level, `below` being how plans run on the level below. -/
def evalWith (below : Option (Plan → Running σ Frame)) :
    Plan → Frame → Running σ Frame
  | .nothing, frame => return frame
  | .seq first second, frame => do
    let frame ← evalWith below first frame
    evalWith below second frame
  | .op i, frame => perform k i frame
  | .within opening _ inner, frame =>
    opened k opening (beneathPart k limit below inner) frame
  | .blocks _ inner, frame => do
    blocks (beneath limit below inner)
    return { frame with long := 0, condition := true }
  | .switch _ message cases, frame => evalCases below message cases frame
  | .call demand, frame => do
    beneath limit below (body demand)
    return frame
  | .reject _, frame => return frame

/-- Runs the first case of the tag in the long register. -/
def evalCases (below : Option (Plan → Running σ Frame)) (message : String) :
    PlanCases → Frame → Running σ Frame
  | .none, _ => throw (.halt message)
  | .case tag delivered inner rest, frame =>
    if frame.long = Int64.ofNat tag then do
      let frame ← renumbered k delivered { frame with condition := true }
      evalWith below inner frame
    else evalCases below message rest frame

end

/-- **Runs a plan** on a level below which the limit still allows a number of
levels. -/
def eval : (levels : Nat) → Plan → Frame → Running σ Frame
  | 0 => evalWith k limit body none
  | levels + 1 =>
    evalWith k limit body (some fun plan => eval levels plan .blank)

/-- How plans run on the level below, if there is one. -/
def evalBelow : (levels : Nat) → Option (Plan → Running σ Frame)
  | 0 => none
  | levels + 1 => some fun plan => eval k limit body levels plan .blank

theorem eval_eq (levels : Nat) :
    eval k limit body levels
      = evalWith k limit body (evalBelow k limit body levels) := by
  cases levels <;> rfl

/-- A switch does not look at the outcome of the last comparison. -/
theorem evalCases_condition (below : Option (Plan → Running σ Frame))
    (message : String) (c : Bool) :
    ∀ (cases : PlanCases) (frame : Frame),
      evalCases k limit body below message cases
          { frame with condition := c }
        = evalCases k limit body below message cases frame
  | .none, frame => by rw [evalCases, evalCases]
  | .case tag delivered inner rest, frame => by
    rw [evalCases, evalCases, evalCases_condition below message c rest frame]

/-! ## What plans are made of -/

mutual

/-- **The parts of a plan are of certain sorts**: the instructions that stay on
its level, those that open parts of the sink, and the methods it calls. -/
def Uses (Op Opens : Instruction → Prop) (Calls : Demand → Prop) : Plan → Prop
  | .nothing | .reject _ => True
  | .seq first second => Uses Op Opens Calls first ∧ Uses Op Opens Calls second
  | .op i => Op i
  | .within opening _ inner => Opens opening ∧ Uses Op Opens Calls inner
  | .blocks _ inner => Uses Op Opens Calls inner
  | .switch _ _ cases => AllUse Op Opens Calls cases
  | .call demand => Calls demand

/-- The parts of the plans in cases are of certain sorts. -/
def AllUse (Op Opens : Instruction → Prop) (Calls : Demand → Prop) :
    PlanCases → Prop
  | .none => True
  | .case _ _ inner rest => Uses Op Opens Calls inner ∧ AllUse Op Opens Calls rest

end

mutual

/-- Every plan is made of something. -/
theorem uses_anything : ∀ plan : Plan,
    plan.Uses (fun _ => True) (fun _ => True) (fun _ => True)
  | .nothing | .reject _ | .op _ | .call _ => trivial
  | .seq first second => ⟨uses_anything first, uses_anything second⟩
  | .within _ _ inner => ⟨trivial, uses_anything inner⟩
  | .blocks _ inner => uses_anything inner
  | .switch _ _ cases => allUse_anything cases

theorem allUse_anything : ∀ cases : PlanCases,
    AllUse (fun _ => True) (fun _ => True) (fun _ => True) cases
  | .none => trivial
  | .case _ _ inner rest => ⟨uses_anything inner, allUse_anything rest⟩

end

/-- **A property that evaluation has**: loops have it if their rounds do, and
the instructions of plans have it. -/
structure EvalClosed (Op Opens : Instruction → Prop)
    (C : ∀ {α : Type}, Running σ α → Prop) : Prop
    extends Running.LoopClosed C where
  /-- A loop has it if its rounds do. -/
  blocks : ∀ {round : Running σ Unit}, C round → C (Running.blocks round)
  /-- A switch that meets no case has it. -/
  halt : ∀ message, C (throw (.halt message) : Running σ Frame)
  /-- A level too many has it. -/
  tooDeep : C (throw (.tooDeep (limit + 1) limit) : Running σ Unit)
  /-- What stays on the level has it. -/
  perform : ∀ {i : Instruction}, Op i → ∀ frame, C (perform k i frame)
  /-- A part that is opened and ended has it if what is done to it does. -/
  opened : ∀ {i : Instruction} {inner : Running σ Unit}, Opens i → C inner →
    ∀ frame, C (opened k i (do inner; calling k.finalize) frame)
  /-- Delivering a branch has it. -/
  set : ∀ x, C (calling (k.set x))

variable {k limit body}

namespace EvalClosed

variable {Op Opens : Instruction → Prop} {Calls : Demand → Prop}
  {C : ∀ {α : Type}, Running σ α → Prop}

theorem beneath (hC : EvalClosed k limit Op Opens C)
    {below : Option (Plan → Running σ Frame)} {plan : Plan}
    (h : ∀ run ∈ below, C (run plan)) : C (beneath limit below plan) := by
  cases below with
  | none => exact hC.tooDeep
  | some run => exact hC.bind (h run rfl) fun _ => hC.pure ()

theorem renumbered (hC : EvalClosed k limit Op Opens C)
    (delivered : Option Nat) (frame : Frame) :
    C (renumbered k delivered frame) := by
  cases delivered with
  | none => exact hC.pure _
  | some index => exact hC.bind (hC.set _) fun _ => hC.pure _

mutual

theorem evalWith (hC : EvalClosed k limit Op Opens C)
    (hbody : ∀ d, Calls d → (body d).Uses Op Opens Calls)
    {below : Option (Plan → Running σ Frame)}
    (hbelow : ∀ run ∈ below, ∀ plan : Plan, plan.Uses Op Opens Calls →
      C (run plan)) :
    ∀ plan : Plan, plan.Uses Op Opens Calls → ∀ frame,
      C (evalWith k limit body below plan frame)
  | .nothing, _, frame => by
    rw [Plan.evalWith]
    exact hC.pure _
  | .seq first second, huses, frame => by
    rw [Plan.evalWith]
    exact hC.bind (evalWith hC hbody hbelow first huses.1 frame)
      (fun frame => evalWith hC hbody hbelow second huses.2 frame)
  | .op i, huses, frame => by
    rw [Plan.evalWith]
    exact hC.perform huses frame
  | .within opening _ inner, huses, frame => by
    rw [Plan.evalWith]
    exact hC.opened huses.1
      (hC.beneath fun run h => hbelow run h inner huses.2) frame
  | .blocks _ inner, huses, frame => by
    rw [Plan.evalWith]
    exact hC.bind (hC.blocks (hC.beneath fun run h =>
      hbelow run h inner huses)) (fun _ => hC.pure _)
  | .switch _ message cases, huses, frame => by
    rw [Plan.evalWith]
    exact evalCases hC hbody hbelow message cases huses frame
  | .call demand, huses, frame => by
    rw [Plan.evalWith]
    exact hC.bind (hC.beneath fun run h =>
      hbelow run h (body demand) (hbody demand huses)) (fun _ => hC.pure _)
  | .reject _, _, frame => by
    rw [Plan.evalWith]
    exact hC.pure _

theorem evalCases (hC : EvalClosed k limit Op Opens C)
    (hbody : ∀ d, Calls d → (body d).Uses Op Opens Calls)
    {below : Option (Plan → Running σ Frame)}
    (hbelow : ∀ run ∈ below, ∀ plan : Plan, plan.Uses Op Opens Calls →
      C (run plan)) (message : String) :
    ∀ cases : PlanCases, AllUse Op Opens Calls cases → ∀ frame,
      C (evalCases k limit body below message cases frame)
  | .none, _, frame => by
    rw [Plan.evalCases]
    exact hC.halt message
  | .case tag delivered inner rest, huses, frame => by
    rw [Plan.evalCases]
    exact iteInduction
      (fun _ => hC.bind (hC.renumbered delivered _) fun frame =>
        evalWith hC hbody hbelow inner huses.1 frame)
      (fun _ => evalCases hC hbody hbelow message rest huses.2 frame)

end

/-- **Evaluation has the property.** -/
theorem eval (hC : EvalClosed k limit Op Opens C)
    (hbody : ∀ d, Calls d → (body d).Uses Op Opens Calls) (levels : Nat) :
    ∀ {plan : Plan}, plan.Uses Op Opens Calls → ∀ frame,
      C (eval k limit body levels plan frame) := by
  induction levels with
  | zero =>
    exact fun huses => hC.evalWith hbody (fun run h => absurd h (by simp)) _
      huses
  | succ levels ih =>
    refine fun huses => hC.evalWith hbody (fun run h plan hplan => ?_) _ huses
    rw [← Option.some.inj h]
    exact ih hplan .blank

/-- What runs below has the property. -/
theorem beneath_evalBelow (hC : EvalClosed k limit Op Opens C)
    (hbody : ∀ d, Calls d → (body d).Uses Op Opens Calls) (levels : Nat)
    {plan : Plan} (huses : plan.Uses Op Opens Calls) :
    C (Plan.beneath limit (evalBelow k limit body levels) plan) := by
  refine hC.beneath fun run h => ?_
  cases levels with
  | zero => exact absurd h (by simp [evalBelow])
  | succ levels =>
    rw [← Option.some.inj h]
    exact hC.eval hbody levels huses .blank

end EvalClosed

/-! ## Plans consume -/

theorem perform_consumes (i : Instruction) (frame : Frame) :
    Running.Consumes (perform k i frame) := by
  intro s
  unfold perform
  cases hs : step [] k i 0 frame s.1 s.2 <;> exact step_left hs

theorem opened_consumes (i : Instruction) {inner : Running σ Unit}
    (hinner : inner.Consumes) (frame : Frame) :
    Running.Consumes (opened k i inner frame) := by
  intro s
  unfold opened
  cases hs : step [] k i 0 frame s.1 s.2 with
  | goOn | close | fail => exact step_left hs
  | descend pc child close resume frame' input =>
    have hi := hinner (input, child)
    dsimp only
    cases hr : inner (input, child) with
    | error cause s' => rw [hr] at hi; exact hi.trans (step_left hs)
    | ok u s' => rw [hr] at hi; exact hi.trans (step_left hs)

theorem evalClosed_consumes : EvalClosed k limit (fun _ => True)
    (fun _ => True) Running.Consumes where
  toLoopClosed := Running.Consumes.loopClosed
  blocks := .blocks
  halt _ := .throw _
  tooDeep := .throw _
  perform _ frame := perform_consumes _ frame
  opened _ hinner frame :=
    opened_consumes _ (.bind hinner fun _ => .calling _) frame
  set _ := .calling _

/-- **A plan leaves a part of its input.** -/
theorem eval_consumes (levels : Nat) (plan : Plan) (frame : Frame) :
    Running.Consumes (eval k limit body levels plan frame) :=
  evalClosed_consumes.eval (fun d _ => uses_anything (body d)) levels
    (uses_anything plan) frame

/-- What runs below leaves a part of its input. -/
theorem beneath_evalBelow_consumes (levels : Nat) (plan : Plan) :
    Running.Consumes (beneath limit (evalBelow k limit body levels) plan) :=
  evalClosed_consumes.beneath_evalBelow (fun d _ => uses_anything (body d))
    levels (uses_anything plan)

end

end Plan

end Avro
