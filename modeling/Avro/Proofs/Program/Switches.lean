import Avro.Proofs.Machine.Failing
import Avro.Proofs.Plan.Layout
import Avro.Proofs.Plan.Requested
import Avro.Proofs.Resolution.Alternatives

/-!
# Dispatch on tags

A switch of a compiled program goes by the written tag, whatever integer that
is (`Program.Dispatches`). If there is a case for the tag, the level comes to the
code of this case, and what the case delivers has been delivered and nothing
else. If there is none, the run stops with the message of the switch. And from
the end of each case the level comes to the first instruction after the switch.

The addresses are read off the alternatives (`Program.caseAt`): the tests come
first, then the message, and then the cases in the order of their tags.
-/

namespace Avro

namespace Program

variable {σ : Type}

/-! ## Runs that stop -/

section

variable {p : Program} {k : Sink σ} {maxDepth : Nat}

variable (p k) in
/-- **A run that comes to an address stops** with an error. The input and the
sink of the level are left as they are said to be. -/
def Stops (pc : Nat) (frame : Frame) (s : Input × σ) (e : ExecutionError)
    (t : Input × σ) : Prop :=
  ∀ maxDepth depth,
    p.Ends k maxDepth depth pc frame s.1 s.2 ⟨.error e, t.1, t.2⟩
    ∧ ∀ m, p.Reaches k maxDepth m ⟨depth, pc, frame, s.1, s.2⟩ →
      ∃ t', p.Ends k maxDepth m.depth m.pc m.frame m.input m.state
        ⟨.error e, t.1, t'⟩

theorem Stops.of_ends {pc : Nat} {frame : Frame} {s t : Input × σ}
    {e : ExecutionError} (h : ∀ maxDepth depth,
      p.Ends k maxDepth depth pc frame s.1 s.2 ⟨.error e, t.1, t.2⟩) :
    p.Stops k pc frame s e t :=
  fun maxDepth depth =>
    ⟨h maxDepth depth, fun _ hreaches => hreaches.ends_error (h maxDepth depth)⟩

end

/-! ## Addresses -/

/-- The address of the message of a switch whose tag is read at an address. -/
def haltAt (a : Nat) (alternatives : List Alternative) : Nat :=
  a + 1 + 2 * alternatives.countP Option.isSome

/-- **The address at which the case of a tag begins**; after the last case
comes the first instruction behind the switch. -/
def caseAt (a : Nat) (alternatives : List Alternative) (tag : Nat) : Nat :=
  haltAt a alternatives + 1
    + ((alternatives.take tag).map Alternative.size).sum

/-- **A switch dispatches** on the tag that is read at an address. -/
structure Dispatches (p : Program) (body : Demand → Plan) (a : Nat)
    (kind : Kind) (label message : String) (alternatives : List Alternative) :
    Prop where
  /-- A tag that has a case: the level comes to the code of the case, and the
  sink has received what the case delivers. If it refuses that, the run
  stops. -/
  taken : ∀ {σ : Type} (k : Sink σ) {frame frame' : Frame}
    {input left : Input} (state : σ), frame.read kind input = .ok frame' left →
    ∀ {tag : Nat} {delivered : Option Nat} {inner : Plan},
      frame'.long.toInt = tag →
      alternatives[tag]? = some (some (delivered, inner)) →
      match delivered with
      | none => p.GoesOn k a frame (input, state)
          (caseAt a alternatives tag + 1) { frame' with condition := true }
          (left, state)
      | some index =>
        match k.set (.long (Int64.ofNat index)) state with
        | .ok () state' => p.GoesOn k a frame (input, state)
            (caseAt a alternatives tag + 3)
            { frame' with condition := true, long := Int64.ofNat index }
            (left, state')
        | .error e state' => p.Stops k a frame (input, state)
            ⟨.sink e, caseAt a alternatives tag + 2, label⟩ (left, state')
  /-- Any other tag: the run stops with the message, and the sink has received
  nothing. -/
  stray : ∀ {σ : Type} (k : Sink σ) {frame frame' : Frame}
    {input left : Input} (state : σ), frame.read kind input = .ok frame' left →
    (∀ tag : Nat, frame'.long.toInt = tag →
      ∀ c, alternatives[tag]? ≠ some (some c)) →
    p.Stops k a frame (input, state)
      ⟨.halt message, haltAt a alternatives, label⟩ (left, state)
  /-- The code of a case does what the case is meant to do and ends behind
  itself, from where the level comes to the end of the switch. -/
  resumed : ∀ {tag : Nat} {delivered : Option Nat} {inner : Plan},
    alternatives[tag]? = some (some (delivered, inner)) →
    ∀ {σ : Type} (k : Sink σ) {maxDepth depth levels : Nat},
      depth + levels = maxDepth → ∀ (frame : Frame) (s : Input × σ),
      let start := caseAt a alternatives tag + Code.caseHeadSize delivered
      p.Performs k maxDepth depth start frame s (start + inner.size)
        (Plan.eval k maxDepth body levels inner frame s)
      ∧ p.GoesOn k (start + inner.size) frame s
        (caseAt a alternatives alternatives.length) frame s

/-! ## Where cases stand -/

section Cases

variable {p : Program} {R : Demand → Prop} {address : String → Nat}
  {label : String} {done : Nat}

variable (p R address label done) in
/-- **A case stands at an address**: its head, its code, and behind it the
other cases up to the end of the switch. -/
structure CaseStands (b tag : Nat) (delivered : Option Nat) (inner : Plan) :
    Prop where
  /-- The head. -/
  head : p.Holds b (Code.caseHead label done tag delivered)
  /-- The code. -/
  code : ∃ inner', Linked R p.errors inner inner'
    ∧ p.Holds (b + Code.caseHeadSize delivered)
      (Code.lower address (b + Code.caseHeadSize delivered) inner')
  /-- The other cases. -/
  rest : ∃ rest' : LinkedCases,
    p.Holds (b + Code.caseHeadSize delivered + inner.size)
      (Code.lowerCases address label done
        (b + Code.caseHeadSize delivered + inner.size) rest')
    ∧ b + Code.caseHeadSize delivered + inner.size + Code.casesSize rest'
      = done

/-- **Every case stands behind those before it.** -/
theorem caseStands : ∀ {alternatives : List Alternative} {first : Nat}
    {cases' : LinkedCases},
    LinkedAll R p.errors (Plan.casesOf first alternatives) cases' →
    ∀ {b : Nat}, p.Holds b (Code.lowerCases address label done b cases') →
      b + Code.casesSize cases' = done →
      ∀ {n : Nat} {delivered : Option Nat} {inner : Plan},
        alternatives[n]? = some (some (delivered, inner)) →
        p.CaseStands R address label done
          (b + ((alternatives.take n).map Alternative.size).sum) (first + n)
          delivered inner
  | none :: rest, first, cases', hlinked, b, hcode, hend, n + 1, delivered,
      inner, h => by
    have hrest : LinkedAll R p.errors (Plan.casesOf (first + 1) rest) cases' :=
      hlinked
    rw [List.take_succ_cons, List.map_cons, List.sum_cons, Alternative.size,
      Nat.zero_add, show first + (n + 1) = first + 1 + n by omega]
    exact caseStands hrest hcode hend h
  | some (delivered', inner') :: rest, first, _, .case hinner hrest, b, hcode,
      hend, n, delivered, inner, h => by
    rw [Code.lowerCases] at hcode
    have hbody := hcode.left.right
    have hafter := hcode.right
    rw [Code.length_caseHead] at hbody
    rw [List.length_append, Code.length_caseHead, Code.length_lower,
      ← Nat.add_assoc, hinner.size_eq] at hafter
    rw [Code.casesSize, hinner.size_eq, ← Nat.add_assoc, ← Nat.add_assoc] at hend
    cases n with
    | zero =>
      obtain ⟨rfl, rfl⟩ := Prod.mk.inj (Option.some.inj (Option.some.inj h))
      exact ⟨hcode.left.left, ⟨_, hinner, hbody⟩, ⟨_, hafter, hend⟩⟩
    | succ n =>
      rw [List.take_succ_cons, List.map_cons, List.sum_cons, Alternative.size,
        ← Nat.add_assoc, ← Nat.add_assoc,
        show first + (n + 1) = first + 1 + n by omega]
      exact caseStands hrest hafter hend h

/-! ## The tests -/

variable {k : Sink σ}

/-- A long is a natural number if it has its value. -/
theorem long_eq_ofNat_iff {n : Int64} {m : Nat} (h : m < 0x8000000000000000) :
    n = Int64.ofNat m ↔ n.toInt = m := by
  rw [← Int64.toInt_inj, Int64.toInt_ofNat_of_lt h]

/-- **A tag that has a case**: the tests go to its head, past the jump with
which the case before it ends. -/
theorem goesOn_tests_met : ∀ {alternatives : List Alternative} {first : Nat}
    {cases' : LinkedCases},
    LinkedAll R p.errors (Plan.casesOf first alternatives) cases' →
    first + alternatives.length ≤ 0x8000000000000000 →
    ∀ {t b : Nat}, p.Holds t (Code.tests label b cases') →
    ∀ {n : Nat} {c : Option Nat × Plan}, alternatives[n]? = some (some c) →
      b + ((alternatives.take n).map Alternative.size).sum + 1
        < 0x8000000000000000 →
      ∀ (frame : Frame) (s : Input × σ),
        frame.long.toInt = (first + n : Nat) →
        p.GoesOn k t frame s
          (b + ((alternatives.take n).map Alternative.size).sum + 1)
          { frame with condition := true } s
  | none :: rest, first, cases', hlinked, hcount, t, b, htests, n + 1, c, h,
      hlt, frame, s, hlong => by
    have hrest : LinkedAll R p.errors (Plan.casesOf (first + 1) rest) cases' :=
      hlinked
    rw [List.take_succ_cons, List.map_cons, List.sum_cons, Alternative.size,
      Nat.zero_add] at hlt ⊢
    rw [show first + (n + 1) = first + 1 + n by omega] at hlong
    rw [List.length_cons] at hcount
    exact goesOn_tests_met hrest (by omega) htests h hlt frame s hlong
  | some (delivered, inner) :: rest, first, _, .case hinner hrest, hcount, t, b,
      htests, 0, c, h, hlt, frame, s, hlong => by
    have hfirst : frame.long = Int64.ofNat first :=
      (long_eq_ofNat_iff (by rw [List.length_cons] at hcount; omega)).mpr hlong
    exact goesOn_test_met htests hlt hfirst s
  | some (delivered, inner) :: rest, first, _, .case hinner hrest, hcount, t, b,
      htests, n + 1, c, h, hlt, frame, s, hlong => by
    rw [List.length_cons] at hcount
    have hfirst : frame.long ≠ Int64.ofNat first := fun hfirst => by
      have := (long_eq_ofNat_iff (by omega)).mp hfirst
      omega
    have hafter := (show p.Holds t ([_, _] ++ _) from htests).right
    rw [hinner.size_eq] at hafter
    rw [List.take_succ_cons, List.map_cons, List.sum_cons, Alternative.size,
      ← Nat.add_assoc, ← Nat.add_assoc] at hlt ⊢
    rw [show first + (n + 1) = first + 1 + n by omega] at hlong
    exact (goesOn_test_failed htests hfirst s).trans
      (goesOn_tests_met hrest (by omega) hafter h hlt _ s hlong)

/-- **Any other tag** meets no test. -/
theorem goesOn_tests_failed : ∀ {alternatives : List Alternative} {first : Nat}
    {cases' : LinkedCases},
    LinkedAll R p.errors (Plan.casesOf first alternatives) cases' →
    first + alternatives.length ≤ 0x8000000000000000 →
    ∀ {t b : Nat}, p.Holds t (Code.tests label b cases') →
      ∀ (frame : Frame) (s : Input × σ),
        (∀ n c, alternatives[n]? = some (some c) →
          frame.long.toInt ≠ (first + n : Nat)) →
        ∃ f, p.GoesOn k t frame s
          (t + 2 * alternatives.countP Option.isSome) f s
  | [], _, _, .none, _, t, b, _, frame, s, _ => ⟨frame, .here⟩
  | none :: rest, first, cases', hlinked, hcount, t, b, htests, frame, s,
      hstray => by
    have hrest : LinkedAll R p.errors (Plan.casesOf (first + 1) rest) cases' :=
      hlinked
    rw [List.length_cons] at hcount
    rw [List.countP_cons_of_neg (by simp)]
    refine goesOn_tests_failed hrest (by omega) htests frame s fun n c h => ?_
    rw [show first + 1 + n = first + (n + 1) by omega]
    exact hstray (n + 1) c h
  | some (delivered, inner) :: rest, first, _, .case hinner hrest, hcount, t, b,
      htests, frame, s, hstray => by
    rw [List.length_cons] at hcount
    have hfirst : frame.long ≠ Int64.ofNat first := fun hfirst =>
      hstray 0 _ rfl ((long_eq_ofNat_iff (by omega)).mp hfirst)
    have hafter := (show p.Holds t ([_, _] ++ _) from htests).right
    obtain ⟨f, hf⟩ := goesOn_tests_failed hrest (by omega) hafter
      { frame with condition := false } s fun n c h => by
        rw [show first + 1 + n = first + (n + 1) by omega]
        exact hstray (n + 1) c h
    rw [List.countP_cons_of_pos rfl, Nat.mul_add, Nat.add_comm _ (2 * 1),
      ← Nat.add_assoc]
    exact ⟨f, (goesOn_test_failed htests hfirst s).trans hf⟩

end Cases

/-! ## A switch in a program -/

/-- The error of an instruction has its label. -/
theorem errorAt_eq {p : Program} {pc : Nat} {i : Instruction}
    (hi : p.instructions[pc]? = some i) (cause : ExecutionCause) :
    p.errorAt pc cause = ⟨cause, pc, i.label⟩ := by
  rw [errorAt, hi]
  rfl

section

variable {p : Program} {body : Demand → Plan} {R : Demand → Prop}
  {address : String → Nat} {kind : Kind} {label message : String}
  {alternatives : List Alternative} {a : Nat}

variable (p R address label alternatives a) in
/-- **A switch stands behind an address**: its tests, its message, and its
cases up to its end. -/
structure SwitchStands (message : String) (cases' : LinkedCases) : Prop where
  /-- The cases are those of the alternatives. -/
  linked : LinkedAll R p.errors (Plan.casesOf 0 alternatives) cases'
  /-- The tests. -/
  tests : p.Holds (a + 1)
    (Code.tests label (haltAt a alternatives + 1) cases')
  /-- The message. -/
  halt : ∃ place, p.errors[place]? = some message
    ∧ p.instructions[haltAt a alternatives]?
      = some ⟨.halt, Code.target (place + 1), label⟩
  /-- The cases. -/
  cases : p.Holds (haltAt a alternatives + 1)
    (Code.lowerCases address label
      (caseAt a alternatives alternatives.length)
      (haltAt a alternatives + 1) cases')
  /-- The end. -/
  ends : haltAt a alternatives + 1 + Code.casesSize cases'
    = caseAt a alternatives alternatives.length

/-- **Linked code of a switch** stands behind the instruction that reads the
tag. -/
theorem exists_switchStands {code : LinkedCode}
    (hlinked : Linked R p.errors (.seq (Plan.read kind label)
      (.switch label message (Plan.casesOf 0 alternatives))) code)
    (hcode : p.Holds a (Code.lower address a code)) :
    p.instructions[a]? = some (.read kind label)
    ∧ ∃ cases', p.SwitchStands R address label alternatives a message
      cases' := by
  cases hlinked with
  | seq hread hswitch =>
  cases hread with
  | op _ =>
  cases hswitch with
  | @switch _ _ place _ cases' hplace hcases =>
  have hcount : Code.casesCount cases'
      = alternatives.countP Option.isSome := by
    rw [hcases.casesCount_eq, Plan.casesCount_casesOf]
  have hends : haltAt a alternatives + 1 + Code.casesSize cases'
      = caseAt a alternatives alternatives.length := by
    rw [hcases.casesSize_eq, Plan.casesSize_casesOf, caseAt, List.take_length]
  rw [Code.lower] at hcode
  have hswitch := hcode.right
  rw [Code.length_lower, Code.size, Code.lower, hcount] at hswitch
  change p.Holds (a + 1) (Code.tests label (haltAt a alternatives + 1) cases'
    ++ ⟨.halt, Code.target (place + 1), label⟩ :: Code.lowerCases address label
      (haltAt a alternatives + 1 + Code.casesSize cases')
      (haltAt a alternatives + 1) cases') at hswitch
  rw [hends] at hswitch
  have hrest := hswitch.right
  rw [Code.length_tests, hcount] at hrest
  refine ⟨hcode.left.get (n := 0) rfl, cases', hcases, hswitch.left,
    ⟨place, hplace, hrest.get (n := 0) rfl⟩, ?_, hends⟩
  exact (show p.Holds _ ([_] ++ _) from hrest).right

namespace SwitchStands

variable {cases' : LinkedCases} {k : Sink σ} {tag : Nat}
  {delivered : Option Nat} {inner : Plan}

/-- Each case stands at its address. -/
theorem case (hswitch : p.SwitchStands R address label alternatives a message
      cases')
    (h : alternatives[tag]? = some (some (delivered, inner))) :
    p.CaseStands R address label (caseAt a alternatives alternatives.length)
      (caseAt a alternatives tag) tag delivered inner := by
  have hstands := caseStands hswitch.linked hswitch.cases hswitch.ends h
  rwa [Nat.zero_add] at hstands

/-- **The tests find the case of a tag**: the level comes to its head. -/
theorem goesOn_case (hswitch : p.SwitchStands R address label alternatives a
      message cases') (hcount : alternatives.length ≤ 0x8000000000000000)
    (hsize : p.instructions.size < 0x8000000000000000)
    (h : alternatives[tag]? = some (some (delivered, inner)))
    {frame : Frame} (htag : frame.long.toInt = tag) (s : Input × σ) :
    p.GoesOn k (a + 1) frame s (caseAt a alternatives tag + 1)
      { frame with condition := true } s := by
  have hle := (hswitch.case h).head.length_le
  have hpos := Code.caseHeadSize_pos delivered
  rw [Code.length_caseHead] at hle
  have hlt : caseAt a alternatives tag + 1 < 0x8000000000000000 := by omega
  exact goesOn_tests_met hswitch.linked (by rwa [Nat.zero_add]) hswitch.tests h
    hlt frame s (by rwa [Nat.zero_add])

/-- **The tests find no case for any other tag**: the level comes to the
message. -/
theorem goesOn_halt (hswitch : p.SwitchStands R address label alternatives a
      message cases') (hcount : alternatives.length ≤ 0x8000000000000000)
    {frame : Frame} (hstray : ∀ tag : Nat, frame.long.toInt = tag →
      ∀ c, alternatives[tag]? ≠ some (some c)) (s : Input × σ) :
    ∃ f, p.GoesOn k (a + 1) frame s (haltAt a alternatives) f s := by
  refine goesOn_tests_failed hswitch.linked (by rwa [Nat.zero_add])
    hswitch.tests frame s fun n c h hlong => ?_
  rw [Nat.zero_add] at hlong
  exact hstray n hlong c h

end SwitchStands

/-- An instruction that reads hands what it reads to the next one. -/
theorem goesOn_read {k : Sink σ} {frame frame' : Frame} {input left : Input}
    (hread : p.instructions[a]? = some (.read kind label))
    (hkind : Kind.ofOperand? kind.operand = some kind)
    (hok : frame.read kind input = .ok frame' left) (state : σ) :
    p.GoesOn k a frame (input, state) (a + 1) frame' (left, state) := by
  have hstep : step p.errors k (.read kind label) a frame input state = _ :=
    step_read p.errors k hkind label
  rw [hok] at hstep
  exact .next hread hstep .here

/-- **Linked code of a switch dispatches**, wherever it stands in a program. -/
theorem Realizes.dispatches (hp : p.Realizes body R address)
    {code : LinkedCode} (hlinked : Linked R p.errors (.seq (Plan.read kind label)
      (.switch label message (Plan.casesOf 0 alternatives))) code)
    (hcode : p.Holds a (Code.lower address a code))
    (hkind : Kind.ofOperand? kind.operand = some kind)
    (hcount : alternatives.length ≤ 0x8000000000000000) :
    p.Dispatches body a kind label message alternatives := by
  obtain ⟨hread, cases', hswitch⟩ := exists_switchStands hlinked hcode
  constructor
  case taken =>
    intro σ k frame frame' input left state hok tag delivered inner htag h
    have hhead := (hswitch.case h).head
    have hlong : ({ frame' with condition := true } : Frame).long
        = Int64.ofNat tag := by
      obtain ⟨hlt, -⟩ := List.getElem?_eq_some_iff.mp h
      exact (long_eq_ofNat_iff (Nat.lt_of_lt_of_le hlt hcount)).mpr htag
    have hmet := (goesOn_read (k := k) hread hkind hok state).trans
      (hswitch.goesOn_case hcount hp.size_lt h htag (left, state))
    cases delivered with
    | none => exact hmet
    | some index =>
      dsimp only
      cases hset : k.set (.long (Int64.ofNat index)) state with
      | ok _ state' => exact hmet.trans (goesOn_caseHead hhead hlong hset)
      | error e state' =>
        have herror : p.errorAt (caseAt a alternatives tag + 2) (.sink e)
            = ⟨.sink e, caseAt a alternatives tag + 2, label⟩ :=
          errorAt_eq (hhead.get (n := 2) rfl) _
        refine .of_ends fun maxDepth depth => ?_
        rw [← herror]
        exact hmet.ends (ends_caseHead hhead hlong hset)
  case stray =>
    intro σ k frame frame' input left state hok hstray
    obtain ⟨f, hf⟩ := hswitch.goesOn_halt (k := k) hcount hstray (left, state)
    obtain ⟨place, hplace, hhalt⟩ := hswitch.halt
    refine .of_ends fun maxDepth depth => ?_
    rw [← errorAt_eq hhalt]
    exact ((goesOn_read hread hkind hok state).trans hf).ends
      (.fail hhalt (hp.step_halt hplace ..))
  case resumed =>
    intro tag delivered inner h σ k maxDepth depth levels hdepth frame s
    obtain ⟨-, ⟨inner', hinner, hbody⟩, rest', hrest, hend⟩ := hswitch.case h
    have hle := hrest.length_le
    have hsize := hp.size_lt
    rw [Code.length_lowerCases] at hle
    refine ⟨?_, goesOn_leave hrest hend (by omega) frame s⟩
    rw [← hinner.size_eq]
    exact hp.performs_eval hdepth hinner hbody frame s

end

end Program

/-! ## Compiled programs -/

/-- **Compiled programs dispatch on tags.** Every switch over a union or an enum
in the program of two schemas, in the main code or in that of a method, and
however deep in other switches, loops and parts it is, goes by the tag that it
reads, whatever integer that is. Its end is the end of its plan. -/
theorem compile_dispatches {writer reader : Schema} {p : Program}
    (h : compile writer reader = .ok p) (hfits : p.Fits) :
    ∃ body : Demand → Plan,
      (∀ d : Demand, d.Requested writer reader → ∃ d' : Demand,
        d'.Requested writer reader ∧ d'.methodName = d.methodName
        ∧ body d = d'.body writer reader)
      ∧ ∀ plan a label kind message alternatives,
        p.Places body (mainPlan writer reader) plan a →
        Plan.SwitchOver writer reader label plan kind message alternatives →
        alternatives.length ≤ 0x8000000000000000 →
        p.Dispatches body a kind label message alternatives
          ∧ Program.caseAt a alternatives alternatives.length
            = a + plan.size := by
  obtain ⟨body, R, address, code, hbody, hR, haccepted, hp, hlinked, hcode⟩ :=
    Plan.program_realizes encloses_requested h hfits
  refine ⟨body, fun d hd => ?_,
    fun plan a label kind message alternatives hplace hswitch hcount => ?_⟩
  · obtain ⟨d', hd', hname, heq⟩ := hbody d
    exact ⟨d', hd' hd, hname, heq⟩
  · obtain ⟨code, hlinked, hcode⟩ :=
      hplace.exists_linked hp hlinked hcode.left
    have hplan := hswitch.eq_of_accepted hlinked.accepted
    rw [hplan] at hlinked ⊢
    refine ⟨hp.dispatches hlinked hcode hswitch.ofOperand?_operand hcount, ?_⟩
    rw [Code.size, Code.size, Plan.casesCount_casesOf, Plan.casesSize_casesOf,
      Program.caseAt, Program.haltAt, List.take_length]
    change a + 1 + _ + 1 + _ = a + (1 + _)
    omega

/-! ## A union with a branch that cannot be read

The reader has the branches in another order and lacks one. -/

namespace Reordered

/-- The document of the writer's schema. -/
def written : String := "[\"int\",\"string\",\"null\"]"

/-- The document of the reader's schema. -/
def read : String := "[\"null\",\"int\"]"

/-- The written branches. -/
def branches : List TypeExpr :=
  [.primitive .int, .primitive .string, .primitive .null]

/-- The branches that are read. -/
def readers : List TypeExpr := [.primitive .null, .primitive .int]

/-- The writer's schema. -/
def writer : Schema := ⟨.union branches, [], written⟩

/-- The reader's schema. -/
def reader : Schema := ⟨.union readers, [], read⟩

theorem parse_written : Schema.parse written = .ok writer := by
  have hchars : written.toList = _ := String.toList_ofList
  rw [Schema.parse, Json.parse, hchars]
  cbv

theorem parse_read : Schema.parse read = .ok reader := by
  have hchars : read.toList = _ := String.toList_ofList
  rw [Schema.parse, Json.parse, hchars]
  cbv

theorem size_compile : (compile writer reader).map (fun p =>
    (p.instructions.size, p.errors.length)) = .ok (17, 1) := by cbv

/-- The alternatives: the integer is delivered as the second branch, the text
has no case, and null is the first branch. -/
theorem alternatives_eq : branches.map
      (Plan.branchAlternative writer "root" reader (.union readers))
    = [some (some 1, Plan.entering (.primitive .int) 1 "root"
        (Plan.deliverPrimitive .int .int "root")), none,
      some (some 0, .nothing)] := by
  rfl

end Reordered

/-- The integer goes to the second branch, null to the first, and every other
tag stops the run. -/
theorem compile_dispatches_reordered :
    (∃ source, Schema.parse source = .ok Reordered.writer)
    ∧ (∃ source, Schema.parse source = .ok Reordered.reader)
    ∧ ∃ p body, compile Reordered.writer Reordered.reader = .ok p ∧ p.Fits
      ∧ p.Dispatches body 0 .long "root"
        "written branch of `union[int, string, null]` cannot be read as `union[null, int]`"
        [some (some 1, Plan.entering (.primitive .int) 1 "root"
          (Plan.deliverPrimitive .int .int "root")), none,
        some (some 0, .nothing)] := by
  obtain ⟨p, hp, hsize⟩ := exists_of_map_ok Reordered.size_compile
  obtain ⟨hsize, hmessages⟩ := Prod.mk.inj hsize
  have hfits : p.Fits := ⟨by omega, by omega⟩
  obtain ⟨body, -, hdispatches⟩ := compile_dispatches hp hfits
  have hroot := (hdispatches _ 0 "root" _ _ _ .main
    (.delivered Reordered.branches (.union Reordered.readers)) (by decide)).1
  rw [Reordered.alternatives_eq] at hroot
  exact ⟨⟨_, Reordered.parse_written⟩, ⟨_, Reordered.parse_read⟩, p, body, hp,
    hfits, hroot⟩

end Avro
