import Avro.Proofs.Plan.Loop

/-!
# Programs run as their plans

Linked code that stands in a program does what its plan does.

The plan of a method is evaluated where it is called, so the methods must be
where calls look for them. `Program.Realizes` says so for a class of demands:
at the address of each demand's name stands linked code of *that demand's*
plan. It is the one assumption about names, and the only place where two
demands with one name could do harm.

The proof (`Realizes.performs_eval`) is an induction on the levels that are
left and, within a level, on the plan.
-/

namespace Avro

namespace Program

variable {σ : Type} {p : Program} {k : Sink σ} {maxDepth depth : Nat}

/-! ## Switches -/

section Switch

variable {label : String} {address : String → Nat}

/-- A test of a switch that is met. -/
theorem goesOn_test_met {b tag : Nat} {delivered : Option Nat}
    {inner : LinkedCode} {rest : LinkedCases} {frame : Frame} {q : Nat}
    (hcode : p.Holds b
      (Code.tests label q (.case tag delivered inner rest)))
    (hq : q + 1 < 0x8000000000000000)
    (hlong : frame.long = Int64.ofNat tag) (s : Input × σ) :
    p.GoesOn k b frame s (q + 1) { frame with condition := true } s := by
  refine .next (hcode.get (n := 0) rfl) rfl ?_
  refine .next (hcode.get (n := 1) rfl) (q := q + 1) ?_ .here
  simp only [step]
  have h : decide (frame.long = Code.target tag) = true := decide_eq_true hlong
  rw [h, if_pos rfl, address?_target hq]

/-- A test of a switch that is not met. -/
theorem goesOn_test_failed {b tag : Nat} {delivered : Option Nat}
    {inner : LinkedCode} {rest : LinkedCases} {frame : Frame} {q : Nat}
    (hcode : p.Holds b
      (Code.tests label q (.case tag delivered inner rest)))
    (hlong : frame.long ≠ Int64.ofNat tag) (s : Input × σ) :
    p.GoesOn k b frame s (b + 2) { frame with condition := false } s := by
  refine .next (hcode.get (n := 0) rfl) rfl ?_
  refine .next (hcode.get (n := 1) rfl) (q := b + 2) ?_ .here
  simp only [step]
  have h : decide (frame.long = Code.target tag) = false :=
    decide_eq_false hlong
  rw [h]
  rfl

/-- The number in the long register is delivered. -/
theorem step_delivers {index : Nat} {frame : Frame}
    (hindex : frame.long = Int64.ofNat index) (pc : Nat) (s : Input × σ) :
    step p.errors k (.set .long label) pc frame s.1 s.2
      = afterCall pc frame s.1 (k.set (.long (Int64.ofNat index)) s.2) := by
  have hkind : ∀ n, Kind.long = .fixed n → n + 17 < 0x8000000000000000 :=
    fun _ h => absurd h (by simp)
  simp only [step, Instruction.set, Kind.ofOperand?_operand hkind,
    Frame.delivery, Frame.delivered, hindex]

section CaseHead

variable {b done tag index : Nat} {frame : Frame}
  (hcode : p.Holds b (Code.caseHead label done tag (some index)))
  (hlong : frame.long = Int64.ofNat tag)

include hcode hlong

/-- A tag is rewritten to the number that a case delivers. -/
theorem goesOn_renumbered (s : Input × σ) :
    p.GoesOn k (b + 1) frame s (b + 2)
      { frame with long := Int64.ofNat index } s := by
  have hlong' : frame.long + Int64.ofInt ((index : Int) - (tag : Int))
      = Int64.ofNat index := by
    rw [hlong, show Int64.ofNat tag = Int64.ofInt (tag : Int) from rfl,
      ← Int64.ofInt_add,
      show (tag : Int) + ((index : Int) - tag) = index by omega]
    rfl
  rw [← hlong']
  exact .next (hcode.get (n := 1) rfl) rfl .here

/-- The number that a case delivers is taken. -/
theorem goesOn_caseHead {s : Input × σ} {state : σ}
    (hset : k.set (.long (Int64.ofNat index)) s.2 = .ok () state) :
    p.GoesOn k (b + 1) frame s (b + 3)
      { frame with long := Int64.ofNat index } (s.1, state) := by
  have hdelivers : step p.errors k (.set .long label) (b + 2)
      { frame with long := Int64.ofNat index } s.1 s.2 = _ :=
    step_delivers rfl (b + 2) s
  rw [hset] at hdelivers
  exact (goesOn_renumbered hcode hlong s).trans
    (.next (t := (s.1, state)) (hcode.get (n := 2) rfl) hdelivers .here)

/-- The number that a case delivers is refused. -/
theorem ends_caseHead {s : Input × σ} {state : σ} {e : SinkError}
    (hset : k.set (.long (Int64.ofNat index)) s.2 = .error e state) :
    p.Ends k maxDepth depth (b + 1) frame s.1 s.2
      ⟨.error (p.errorAt (b + 2) (.sink e)), s.1, state⟩ := by
  have hdelivers : step p.errors k (.set .long label) (b + 2)
      { frame with long := Int64.ofNat index } s.1 s.2 = _ :=
    step_delivers rfl (b + 2) s
  rw [hset] at hdelivers
  exact (goesOn_renumbered hcode hlong s).ends
    (.fail (hcode.get (n := 2) rfl) hdelivers)

end CaseHead

/-- The tag that a case delivers: the long register is renumbered and
delivered on the way to the code of the case. -/
theorem performs_caseHead {b done tag : Nat} {delivered : Option Nat}
    {frame : Frame}
    (hcode : p.Holds b (Code.caseHead label done tag delivered))
    (hlong : frame.long = Int64.ofNat tag) (s : Input × σ) :
    p.Performs k maxDepth depth (b + 1) frame s
      (b + Code.caseHeadSize delivered)
      (Plan.renumbered k delivered frame s) := by
  cases delivered with
  | none => exact .refl _ _ s
  | some index =>
    simp only [Plan.renumbered, Running.calling, bind, EStateM.bind]
    cases hset : k.set (.long (Int64.ofNat index)) s.2 with
    | error e state => exact ⟨_, rfl, ends_caseHead hcode hlong hset⟩
    | ok u state => exact fun o => (goesOn_caseHead hcode hlong hset).ends

/-- From the end of a case, a level leaves the switch: by falling through or
by the jump in front of the next case. -/
theorem goesOn_leave {b done : Nat} {rest : LinkedCases}
    (hcode : p.Holds b (Code.lowerCases address label done b rest))
    (hdone : b + Code.casesSize rest = done)
    (hlt : done < 0x8000000000000000) (frame : Frame) (s : Input × σ) :
    p.GoesOn k b frame s done frame s := by
  cases rest with
  | none =>
    rw [show b = done from hdone]
    exact .here
  | case tag delivered inner rest =>
    have hjump : p.instructions[b]? = some ⟨.jump, Code.target done, label⟩ := by
      rw [Code.lowerCases] at hcode
      cases delivered <;> exact hcode.left.left.get (n := 0) rfl
    refine .next hjump (q := done) ?_ .here
    simp only [step]
    rw [address?_target hlt]

end Switch

/-! ## Programs with methods -/

/-- **A program fits in memory**: its addresses and the numbers of its
messages can be operands. -/
structure Fits (p : Program) : Prop where
  /-- Addresses are 64-bit numbers. -/
  size_lt : p.instructions.size < 0x8000000000000000
  /-- Message numbers are 64-bit numbers. -/
  messages_lt : p.errors.length < 0x8000000000000000

/-- The number of a message stops a level with the message. -/
theorem Fits.step_halt (hp : p.Fits) {place : Nat} {message : String}
    (hplace : p.errors[place]? = some message) (label : String) (pc : Nat)
    (frame : Frame) (input : Input) (state : σ) :
    step p.errors k ⟨.halt, Code.target (place + 1), label⟩ pc frame input state
      = .fail (.halt message) input state := by
  have hnumber : place + 1 < 0x8000000000000000 := by
    obtain ⟨hlt, _⟩ := List.getElem?_eq_some_iff.mp hplace
    have := hp.messages_lt
    omega
  have hne : Code.target (place + 1) ≠ 0 := by
    rw [Code.target, Ne, ofNat_eq_zero_iff (by omega)]
    omega
  simp only [step]
  rw [if_neg hne, address?_target hnumber]
  simp only [Option.bind_some, Nat.add_sub_cancel, hplace]

/-- **A program realizes plans of methods**: at the address of every demand
of a class stands linked code of the demand's plan. -/
structure Realizes (p : Program) (body : Demand → Plan) (R : Demand → Prop)
    (address : String → Nat) : Prop extends p.Fits where
  /-- Every method is where calls look for it. -/
  method : ∀ d, R d → ∃ code label, Linked R p.errors (body d) code
    ∧ p.Holds (address d.methodName)
      (Code.lower address (address d.methodName) code
        ++ [⟨.return, 0, label⟩])

section Realizes

variable {body : Demand → Plan} {R : Demand → Prop}
  {address : String → Nat} {levels : Nat}

/-- What is meant for the level below, wherever its code stands. -/
def PerformsBelow (p : Program) (k : Sink σ) (maxDepth depth levels : Nat)
    (body : Demand → Plan) (R : Demand → Prop) (address : String → Nat) :
    Prop :=
  ∀ l, levels = l + 1 → ∀ plan code a, Linked R p.errors plan code →
    p.Holds a (Code.lower address a code) → ∀ s : Input × σ,
      p.Performs k maxDepth (depth + 1) a .blank s (a + code.size)
        (Plan.eval k maxDepth body l plan .blank s)

/-- A part of the sink: the level below delivers into it, and its closing
puts it back. -/
theorem performs_within (hdepth : depth + levels = maxDepth)
    (hbelow : PerformsBelow p k maxDepth depth levels body R address)
    {opening : Instruction} {label : String} {inner : Plan}
    {inner' : LinkedCode} (hopens : opening.Opens)
    (hlinked : Linked R p.errors inner inner') {a : Nat}
    (hcode : p.Holds a (Code.lower address a (.within opening label inner')))
    (frame : Frame) (s : Input × σ) :
    p.Performs k maxDepth depth a frame s (a + inner'.size + 2)
      (Plan.opened k opening (Plan.beneathPart k maxDepth
        (Plan.evalBelow k maxDepth body levels) inner) frame s) := by
  rw [Code.lower] at hcode
  have hopening : p.instructions[a]? = some opening := hcode.get (n := 0) rfl
  have hrest : p.Holds (a + 1) (Code.lower address (a + 1) inner'
      ++ [⟨.exit, 0, label⟩]) :=
    (show p.Holds a ([opening] ++ _) from hcode).right
  have hexit := hrest.right.get (n := 0) rfl
  rw [Code.length_lower] at hexit
  rw [show a + inner'.size + 2 = a + 1 + inner'.size + 1 by omega]
  unfold Plan.opened
  rcases step_opens p.errors k a frame s.1 s.2 hopens with
    ⟨child, put, frame', input', h0, h⟩ | ⟨cause, input', state', h0, h⟩
  · rw [h0]
    have hclosing : p.Closes k (a + 1 + inner'.size)
        (Running.calling k.finalize) := by
      refine ⟨_, hexit, fun f t => ?_⟩
      simp only [Running.calling, step]
      cases k.finalize t.2 <;> rfl
    exact performs_beneath (t := (input', child)) hdepth
      (fun l hl t => hbelow l hl inner inner' (a + 1) hlinked hrest.left t)
      hclosing hopening h
  · rw [h0]
    exact .fail (t := (input', state')) hopening h

/-- A round of a loop is a level below. -/
theorem performs_round (hdepth : depth + levels = maxDepth)
    (hbelow : PerformsBelow p k maxDepth depth levels body R address)
    {label : String} {inner : Plan} {inner' : LinkedCode}
    (hlinked : Linked R p.errors inner inner') {a : Nat}
    (hcode : p.Holds a (Code.lower address a (.blocks label inner')))
    (frame : Frame) (s : Input × σ) :
    p.Performs k maxDepth depth (a + 7) frame s (a + 8 + inner'.size + 1)
      ((do
        Plan.beneath maxDepth (Plan.evalBelow k maxDepth body levels) inner
        return frame) s) := by
  obtain ⟨hhead, hinner, hfoot⟩ := hcode.blocks
  exact performs_beneath_same hdepth
    (fun l hl t => hbelow l hl inner inner' (a + 8) hlinked hinner t)
    (hfoot.get (n := 0) rfl) (fun _ _ => rfl) (hhead.get (n := 7) rfl) rfl

/-- A loop over blocks. -/
theorem performs_loop (hp : p.Realizes body R address)
    (hdepth : depth + levels = maxDepth)
    (hbelow : PerformsBelow p k maxDepth depth levels body R address)
    {label : String} {inner : Plan} {inner' : LinkedCode}
    (hlinked : Linked R p.errors inner inner') {a : Nat}
    (hcode : p.Holds a (Code.lower address a (.blocks label inner')))
    (frame : Frame) (s : Input × σ) :
    p.Performs k maxDepth depth a frame s (a + inner'.size + 13)
      ((do
        Running.blocks (Plan.beneath maxDepth
          (Plan.evalBelow k maxDepth body levels) inner)
        return { frame with long := 0, condition := true }) s) :=
  performs_blocks hp.size_lt hcode
    (Plan.beneath_evalBelow_consumes levels inner)
    (performs_round hdepth hbelow hlinked hcode) frame s

/-- A call: the method is a level below, and its code is at the address of
its name. -/
theorem performs_call (hp : p.Realizes body R address)
    (hdepth : depth + levels = maxDepth)
    (hbelow : PerformsBelow p k maxDepth depth levels body R address)
    {demand : Demand} (hdemand : R demand) {a : Nat}
    (hcode : p.Holds a (Code.lower address a (.call demand.methodName)))
    (frame : Frame) (s : Input × σ) :
    p.Performs k maxDepth depth a frame s (a + 1)
      ((do
        Plan.beneath maxDepth (Plan.evalBelow k maxDepth body levels)
          (body demand)
        return frame) s) := by
  obtain ⟨code, label, hlinked, hmethod⟩ := hp.method demand hdemand
  have hreturn := hmethod.right.get (n := 0) rfl
  rw [Code.length_lower] at hreturn
  have hlt := hmethod.length_le
  have hsize := hp.size_lt
  have hstep : step p.errors k
      ⟨.call, Code.target (address demand.methodName), demand.methodName⟩ a
      frame s.1 s.2
      = .descend (address demand.methodName) s.2 id (fun _ => a + 1) frame
        s.1 := by
    simp only [step]
    rw [address?_target (by omega)]
  exact performs_beneath_same hdepth
    (fun l hl t => hbelow l hl _ code _ hlinked hmethod.left t) hreturn
    (fun _ _ => rfl) (hcode.get (n := 0) rfl) hstep

mutual

/-- **On a level, linked code does what its plan does**, if it does on the
level below. -/
theorem performs_evalWith (hp : p.Realizes body R address)
    (hdepth : depth + levels = maxDepth)
    (hbelow : PerformsBelow p k maxDepth depth levels body R address) :
    ∀ {plan : Plan} {code : LinkedCode}, Linked R p.errors plan code →
      ∀ (a : Nat) (frame : Frame) (s : Input × σ),
        p.Holds a (Code.lower address a code) →
        p.Performs k maxDepth depth a frame s (a + code.size)
          (Plan.evalWith k maxDepth body
            (Plan.evalBelow k maxDepth body levels) plan frame s)
  | _, _, .nothing, a, frame, s, _ => by
    rw [Plan.evalWith]
    exact .refl a frame s
  | _, _, .seq h h', a, frame, s, hcode => by
    rw [Code.lower] at hcode
    have hsecond := hcode.right
    rw [Code.length_lower] at hsecond
    rw [Plan.evalWith, Code.size, ← Nat.add_assoc]
    exact .bind (performs_evalWith hp hdepth hbelow h a frame s hcode.left)
      (fun f t _ => performs_evalWith hp hdepth hbelow h' _ f t hsecond)
  | .op i, _, .op h, a, frame, s, hcode => by
    rw [Code.lower] at hcode
    have hi : p.instructions[a]? = some i := hcode.get (n := 0) rfl
    rw [Plan.evalWith, Code.size, Plan.perform]
    rcases step_plain p.errors k a frame s.1 s.2 h with
      ⟨frame', input', state', h0, hs⟩ | ⟨cause, input', state', h0, hs⟩
    · rw [h0]
      exact .goOn (t := (input', state')) hi hs (.refl _ _ _)
    · rw [h0]
      exact .fail (t := (input', state')) hi hs
  | _, _, .within hopens h, a, frame, s, hcode => by
    rw [Plan.evalWith, Code.size]
    exact performs_within hdepth hbelow hopens h hcode frame s
  | _, _, .blocks h, a, frame, s, hcode => by
    rw [Plan.evalWith, Code.size,
      show ∀ n, a + (Code.headerSize + n + Code.footerSize) = a + n + 13 by
        simp only [Code.headerSize, Code.footerSize]; omega]
    exact performs_loop hp hdepth hbelow h hcode frame s
  | .switch label message cases, .switch _ (place + 1) cases',
      .switch hplace h, a, frame, s, hcode => by
    rw [Code.lower] at hcode
    have hrest := hcode.right
    rw [Code.length_tests] at hrest
    have hcases := (show p.Holds _ ([_] ++ _) from hrest).right
    have hle := hcases.length_le
    rw [Code.length_lowerCases] at hle
    have hsize := hp.size_lt
    rw [Plan.evalWith, Code.size, ← Nat.add_assoc, ← Nat.add_assoc]
    refine performs_evalCases hp hdepth hbelow (Nat.lt_of_le_of_lt hle hsize) h
      a _ frame s hcode.left (fun f => ?_) hcases rfl
    exact .fail (hrest.get (n := 0) rfl) (hp.step_halt hplace ..)
  | _, _, .call h, a, frame, s, hcode => by
    rw [Plan.evalWith, Code.size]
    exact performs_call hp hdepth hbelow h hcode frame s

/-- The cases of a switch: `t` is where the tests of the cases stand, `b` is
where the cases stand, and behind the tests the message is met. -/
theorem performs_evalCases (hp : p.Realizes body R address)
    (hdepth : depth + levels = maxDepth)
    (hbelow : PerformsBelow p k maxDepth depth levels body R address)
    {label message : String} {done : Nat}
    (hdone : done < 0x8000000000000000) :
    ∀ {cases : PlanCases} {cases' : LinkedCases},
      LinkedAll R p.errors cases cases' →
      ∀ (t b : Nat) (frame : Frame) (s : Input × σ),
        p.Holds t (Code.tests label b cases') →
        (∀ f, p.Performs k maxDepth depth (t + 2 * Code.casesCount cases') f s
          done (.error (.halt message) s)) →
        p.Holds b (Code.lowerCases address label done b cases') →
        b + Code.casesSize cases' = done →
        p.Performs k maxDepth depth t frame s done
          (Plan.evalCases k maxDepth body
            (Plan.evalBelow k maxDepth body levels) message cases frame s)
  | _, _, .none, t, b, frame, s, _, hhalt, _, _ => by
    rw [Plan.evalCases]
    exact hhalt frame
  | .case tag delivered inner rest, .case _ _ inner' rest', .case h h',
      t, b, frame, s, htests, hhalt, hcode, hend => by
    rw [Code.lowerCases] at hcode
    have hinner := hcode.left.right
    have hafter := hcode.right
    rw [Code.length_caseHead] at hinner
    rw [List.length_append, Code.length_caseHead, Code.length_lower,
      ← Nat.add_assoc] at hafter
    have hend' : b + Code.caseHeadSize delivered + inner'.size
        + Code.casesSize rest' = done := by
      rw [← hend, Code.casesSize]
      omega
    rw [Plan.evalCases]
    by_cases hlong : frame.long = Int64.ofNat tag
    · have hpos := Code.caseHeadSize_pos delivered
      rw [if_pos hlong]
      refine .of_ends (fun _ =>
        (goesOn_test_met htests (by omega) hlong s).ends) ?_
      have hlong' : ({ frame with condition := true } : Frame).long
        = Int64.ofNat tag := hlong
      refine .bind (performs_caseHead hcode.left.left hlong' s) ?_
      intro f u _
      have hrun := performs_evalWith hp hdepth hbelow h _ f u hinner
      cases hr : Plan.evalWith k maxDepth body
        (Plan.evalBelow k maxDepth body levels) inner f u with
      | error cause v =>
        rw [hr] at hrun
        exact hrun
      | ok g v =>
        rw [hr] at hrun
        exact .of_ends hrun fun _ =>
          (goesOn_leave hafter hend' hdone g v).ends
    · rw [if_neg hlong]
      have hafter' := (show p.Holds t ([_, _] ++ _) from htests).right
      refine .of_ends (fun _ => (goesOn_test_failed htests hlong s).ends) ?_
      rw [← Plan.evalCases_condition k maxDepth body _ message false]
      refine performs_evalCases hp hdepth hbelow hdone h' (t + 2) _ _ s
        hafter' (fun f => ?_) hafter hend'
      have hhalt := hhalt f
      rw [Code.casesCount,
        show t + 2 * (Code.casesCount rest' + 1)
          = t + 2 + 2 * Code.casesCount rest' by omega] at hhalt
      exact hhalt

end

/-- **Linked code does what its plan does**, with as many levels below as the
limit still allows. -/
theorem Realizes.performs_eval (hp : p.Realizes body R address)
    (hdepth : depth + levels = maxDepth) {plan : Plan} {code : LinkedCode}
    (hlinked : Linked R p.errors plan code) {a : Nat}
    (hcode : p.Holds a (Code.lower address a code)) (frame : Frame)
    (s : Input × σ) :
    p.Performs k maxDepth depth a frame s (a + code.size)
      (Plan.eval k maxDepth body levels plan frame s) := by
  induction levels generalizing depth plan code a frame s with
  | zero =>
    exact performs_evalWith hp hdepth nofun hlinked a frame s hcode
  | succ levels ih =>
    rw [Plan.eval_eq]
    refine performs_evalWith hp hdepth ?_ hlinked a frame s hcode
    intro l hl plan' code' a' hlinked' hcode' s'
    obtain rfl : levels = l := Nat.succ.inj hl
    exact ih (by omega) hlinked' hcode' .blank s'

/-- The level below does what is meant for it. -/
theorem Realizes.performsBelow (hp : p.Realizes body R address)
    (hdepth : depth + levels = maxDepth) :
    PerformsBelow p k maxDepth depth levels body R address :=
  fun l hl _ _ _ hlinked hcode s =>
    hp.performs_eval (by omega) hlinked hcode .blank s

variable (k maxDepth) in
/-- **A run of a program ends as its main plan does.** -/
theorem Realizes.ends (hp : p.Realizes body R address) {plan : Plan}
    {code : LinkedCode} {label : String}
    (hlinked : Linked R p.errors plan code)
    (hcode : p.Holds 0 (Code.lower address 0 code ++ [⟨.halt, 0, label⟩]))
    (s : Input × σ) :
    match Plan.eval k maxDepth body maxDepth plan .blank s with
    | .ok _ t => p.Ends k maxDepth 0 0 .blank s.1 s.2
        ⟨.ok code.size, t.1, t.2⟩
    | .error cause t => ∃ e : ExecutionError, e.cause = cause
        ∧ p.Ends k maxDepth 0 0 .blank s.1 s.2 ⟨.error e, t.1, t.2⟩ := by
  have h := hp.performs_eval (k := k) (Nat.zero_add maxDepth) hlinked
    hcode.left .blank s
  have hhalt := hcode.right.get (n := 0) rfl
  rw [Code.length_lower, Nat.zero_add] at hhalt
  cases hr : Plan.eval k maxDepth body maxDepth plan .blank s with
  | error cause t =>
    rw [hr] at h
    exact h
  | ok frame t =>
    rw [hr, Nat.zero_add] at h
    exact h _ (.close hhalt rfl)

end Realizes

end Program

end Avro
