import Avro.Proofs.Plan.Operands
import Avro.Proofs.Program.Termination

/-!
# Compiled programs have no defects

A defect is an operand that its operation cannot use, a run that leaves the
program, or a stop with a message that does not exist. No run of a compiled
program fails with one (`compile_flawless`), and it could not: every operand in
the program is legal, also where no run comes along (`Plan.program_legal`).

The operands of a plan are legal by themselves (`Demand.body_legal`). Laying a
plan out adds addresses and the numbers of messages. Every address is in the
code that is laid out or right behind it, where a halt or a return stands
(`Linked.legal_lower`).

That a run stays inside the program is not a matter of operands. It closes its
levels where they were opened, and this is what the evaluation of plans says,
in which there are no addresses: a run ends as evaluation does, and evaluation
does not fail with a defect if the operands are legal (`Plan.eval_flawless`).
-/

namespace Avro

/-! ## Laying out -/

namespace Code

variable {size messages : Nat} {label : String}

/-- The operands of the header of a loop. -/
theorem legal_header {exit entry : Nat} (hexit : exit < size)
    (hentry : entry < size) (hsize : size ≤ 0x8000000000000000) :
    ∀ i ∈ header exit entry label, i.Legal size messages := by
  intro i hi
  simp only [header, List.mem_cons, List.not_mem_nil, or_false] at hi
  rcases hi with rfl | rfl | rfl | rfl | rfl | rfl | rfl | rfl
  · exact .read (by trivial) label
  · trivial
  · exact .condJump hexit hsize label
  · trivial
  · exact .condJump hentry hsize label
  · exact .read (by trivial) label
  · trivial
  · trivial

/-- The operands of the end of a loop. -/
theorem legal_footer {start entry : Nat} (hstart : start < size)
    (hentry : entry < size) (hsize : size ≤ 0x8000000000000000) :
    ∀ i ∈ footer start entry label, i.Legal size messages := by
  intro i hi
  simp only [footer, List.mem_cons, List.not_mem_nil, or_false] at hi
  rcases hi with rfl | rfl | rfl | rfl | rfl
  · trivial
  · trivial
  · trivial
  · exact .condJump hstart hsize label
  · exact .jump hentry hsize label

/-- The tests of a switch go to its cases. -/
theorem legal_tests (hsize : size ≤ 0x8000000000000000) :
    ∀ (cases : LinkedCases) (address : Nat),
      address + casesSize cases < size →
      ∀ i ∈ tests label address cases, i.Legal size messages
  | .none, _, _, i, hi => absurd hi List.not_mem_nil
  | .case tag delivered inner rest, address, hlt, i, hi => by
    rw [casesSize] at hlt
    have hpos := caseHeadSize_pos delivered
    rw [tests] at hi
    rcases List.mem_cons.mp hi with rfl | hi
    · trivial
    · rcases List.mem_cons.mp hi with rfl | hi
      · exact .condJump (by omega) hsize label
      · exact legal_tests hsize rest _ (by omega) i hi

/-- A case begins with a jump behind the switch. -/
theorem legal_caseHead {done : Nat} (hdone : done < size)
    (hsize : size ≤ 0x8000000000000000) (tag : Nat)
    (delivered : Option Nat) :
    ∀ i ∈ caseHead label done tag delivered, i.Legal size messages := by
  intro i hi
  cases delivered with
  | none =>
    rw [List.mem_singleton.mp hi]
    exact .jump hdone hsize label
  | some index =>
    simp only [caseHead, List.mem_cons, List.not_mem_nil, or_false] at hi
    rcases hi with rfl | rfl | rfl
    · exact .jump hdone hsize label
    · trivial
    · exact .set .long label

end Code

section

variable {R : Demand → Prop} {messages : List String} {address : String → Nat}
  {size : Nat}

mutual

/-- **Linked code is laid out with legal operands**, if something stands
behind it and methods are called where they are. -/
theorem Linked.legal_lower (hsize : size ≤ 0x8000000000000000)
    (hmessages : messages.length < 0x8000000000000000)
    (hcall : ∀ d, R d → address d.methodName < size) :
    ∀ {plan : Plan} {code : LinkedCode}, Linked R messages plan code →
      plan.Legal → ∀ a, a + code.size < size →
      ∀ i ∈ Code.lower address a code, i.Legal size messages.length
  | _, _, .nothing, _, a, _, i, hi => absurd hi List.not_mem_nil
  | _, _, .seq h h', hlegal, a, hlt, i, hi => by
    rw [Code.size] at hlt
    rw [Code.lower] at hi
    rcases List.mem_append.mp hi with hi | hi
    · exact h.legal_lower hsize hmessages hcall hlegal.1 a (by omega) i hi
    · exact h'.legal_lower hsize hmessages hcall hlegal.2 _ (by omega) i hi
  | .op j, _, .op _, hlegal, a, _, i, hi => by
    rw [Code.lower] at hi
    rw [List.mem_singleton.mp hi]
    exact Instruction.Legal.mono hlegal (Nat.zero_le _) (Nat.zero_le _)
  | _, _, .within _ h, hlegal, a, hlt, i, hi => by
    rw [Code.size] at hlt
    rw [Code.lower] at hi
    rcases List.mem_cons.mp hi with rfl | hi
    · exact hlegal.1.mono (Nat.zero_le _) (Nat.zero_le _)
    · rcases List.mem_append.mp hi with hi | hi
      · exact h.legal_lower hsize hmessages hcall hlegal.2 _ (by omega) i hi
      · rw [List.mem_singleton.mp hi]
        trivial
  | _, .blocks label inner, .blocks h, hlegal, a, hlt, i, hi => by
    simp only [Code.size, Code.headerSize, Code.footerSize] at hlt
    simp only [Code.lower, Code.headerSize, Code.footerSize] at hi
    rcases List.mem_append.mp hi with hi | hi
    · rcases List.mem_append.mp hi with hi | hi
      · exact Code.legal_header (by omega) (by omega) hsize i hi
      · exact h.legal_lower hsize hmessages hcall hlegal _ (by omega) i hi
    · exact Code.legal_footer (by omega) (by omega) hsize i hi
  | _, .switch label (place + 1) cases, .switch hplace h, hlegal, a, hlt, i,
      hi => by
    obtain ⟨hnumber, _⟩ := List.getElem?_eq_some_iff.mp hplace
    rw [Code.size] at hlt
    rw [Code.lower] at hi
    rcases List.mem_append.mp hi with hi | hi
    · exact Code.legal_tests hsize cases _ (by omega) i hi
    · rcases List.mem_cons.mp hi with rfl | hi
      · exact .inr ⟨place + 1, address?_target (by omega), Nat.succ_pos _,
          hnumber⟩
      · exact h.legal_lowerCases hsize hmessages hcall hlegal (by omega) _
          (Nat.le_refl _) i hi
  | _, _, .call h, _, a, _, i, hi => by
    rw [Code.lower] at hi
    rw [List.mem_singleton.mp hi]
    have hlt := hcall _ h
    exact ⟨_, address?_target (by omega), hlt⟩

/-- Linked cases are laid out with legal operands. -/
theorem LinkedAll.legal_lowerCases (hsize : size ≤ 0x8000000000000000)
    (hmessages : messages.length < 0x8000000000000000)
    (hcall : ∀ d, R d → address d.methodName < size) :
    ∀ {cases : PlanCases} {cases' : LinkedCases},
      LinkedAll R messages cases cases' → Plan.LegalCases cases →
      ∀ {label : String} {done : Nat}, done < size →
      ∀ a, a + Code.casesSize cases' ≤ done →
      ∀ i ∈ Code.lowerCases address label done a cases',
        i.Legal size messages.length
  | _, _, .none, _, _, _, _, a, _, i, hi => absurd hi List.not_mem_nil
  | _, _, .case h h', hlegal, label, done, hdone, a, hle, i, hi => by
    rw [Code.casesSize] at hle
    rw [Code.lowerCases] at hi
    rcases List.mem_append.mp hi with hi | hi
    · rcases List.mem_append.mp hi with hi | hi
      · exact Code.legal_caseHead hdone hsize _ _ i hi
      · exact h.legal_lower hsize hmessages hcall hlegal.1 _ (by omega) i hi
    · exact h'.legal_lowerCases hsize hmessages hcall hlegal.2 hdone _
        (by omega) i hi

end

end

namespace Assembly

/-- The instructions of methods are those of a method that is laid out in
front of its return. -/
theorem mem_methodInstructions {table : String → Nat} {i : Instruction} :
    ∀ {methods : List Method} {address : Nat},
      i ∈ methodInstructions table address methods →
      ∃ m ∈ methods, ∃ a,
        a + m.code.size
          < address + (methodInstructions table address methods).length
        ∧ (i ∈ Code.lower table a m.code ∨ i = ⟨.return, 0, m.name⟩)
  | [], _, hi => absurd hi List.not_mem_nil
  | first :: rest, address, hi => by
    have hlength : (methodInstructions table address (first :: rest)).length
        = first.code.size + 1 + (methodInstructions table
          (address + first.code.size + 1) rest).length := by
      rw [methodInstructions, List.length_append, List.length_cons,
        Code.length_lower]
      omega
    rw [hlength]
    rw [methodInstructions] at hi
    rcases List.mem_append.mp hi with hi | hi
    · exact ⟨first, List.mem_cons_self, address, by omega, .inl hi⟩
    · rcases List.mem_cons.mp hi with rfl | hi
      · exact ⟨first, List.mem_cons_self, address, by omega, .inr rfl⟩
      · obtain ⟨m, hm, a, hlt, hi⟩ := mem_methodInstructions hi
        exact ⟨m, List.mem_cons_of_mem _ hm, a, by omega, hi⟩

end Assembly

section

variable {writer reader : Schema} {D : Demand → Prop} {plan : Plan}
  {p : Program}

/-- **Every operand of the program of a plan is legal.** -/
theorem Plan.program_legal (hD : EnclosesPlan writer reader plan D)
    (hplan : plan.Legal)
    (hbody : ∀ d, D d → (d.body writer reader).Legal)
    (h : plan.program writer reader = .ok p) (hfits : p.Fits) :
    ∀ i ∈ p.instructions.toList,
      i.Legal p.instructions.size p.errors.length := by
  obtain ⟨a, hfaithful, hp⟩ := Plan.program_assembly hD h
  obtain ⟨herrors, -, hmethods⟩ := a.program_holds hp hfaithful.nodup
  have hlayout : p.instructions.toList = Code.lower a.address 0 a.main
      ++ ⟨.halt, 0, "end"⟩ :: Assembly.methodInstructions a.address
        (a.main.size + 1) a.methods := by
    unfold Assembly.program at hp
    cases hu : a.unknownCall? with
    | some name => rw [hu] at hp; exact absurd hp (by simp)
    | none =>
      rw [hu] at hp
      rw [← Except.ok.inj hp]
      rfl
  have hlength : p.instructions.size = a.main.size + 1
      + (Assembly.methodInstructions a.address (a.main.size + 1)
        a.methods).length := by
    rw [← Array.length_toList, hlayout, List.length_append, List.length_cons,
      Code.length_lower]
    omega
  have hcall : ∀ d, Registered D (a.methods.map (·.name)) d →
      a.address d.methodName < p.instructions.size := by
    rintro d ⟨_, hname⟩
    obtain ⟨m, hm, hmname⟩ := List.mem_map.mp hname
    have hle := (hmethods m hm).length_le
    rw [← hmname]
    rw [List.length_append, List.length_singleton] at hle
    omega
  have hsize := Nat.le_of_lt hfits.size_lt
  have hmessages := hfits.messages_lt
  rw [herrors] at hmessages ⊢
  intro i hi
  rw [hlayout] at hi
  rcases List.mem_append.mp hi with hi | hi
  · exact hfaithful.main.legal_lower hsize hmessages hcall hplan 0 (by omega)
      i hi
  · rcases List.mem_cons.mp hi with rfl | hi
    · exact .inl rfl
    · obtain ⟨m, hm, b, hlt, hi⟩ := Assembly.mem_methodInstructions hi
      rcases hi with hi | rfl
      · obtain ⟨d, hd, _, hlinked⟩ := hfaithful.method m hm
        exact hlinked.legal_lower hsize hmessages hcall (hbody d hd) b
          (by omega) i hi
      · trivial

end

/-! ## Running -/

namespace Running

variable {σ α β : Type}

/-- **A computation does not fail with a defect.** -/
def Flawless (m : Running σ α) : Prop :=
  ∀ s d t, m s ≠ .error (.defect d) t

namespace Flawless

theorem pure (a : α) : Flawless (Pure.pure a : Running σ α) := nofun

theorem throw {cause : ExecutionCause} (h : ∀ d, cause ≠ .defect d) :
    Flawless (throw cause : Running σ α) := by
  intro s d t heq
  cases heq
  exact h d rfl

theorem bind {m : Running σ α} {f : α → Running σ β} (hm : Flawless m)
    (hf : ∀ a, Flawless (f a)) : Flawless (m >>= f) := by
  intro s d t
  cases hr : m s with
  | error cause s' =>
    rw [bind_error hr]
    rintro ⟨⟩
    exact hm s d _ hr
  | ok a s' =>
    rw [bind_ok hr]
    exact hf a s' d t

theorem reading (m : Read α) :
    Flawless (Running.reading m : Running σ α) := by
  intro s d t
  unfold Running.reading
  cases m s.1 <;> nofun

theorem calling (m : SinkEffect σ α) : Flawless (Running.calling m) := by
  intro s d t
  unfold Running.calling
  cases m s.2 <;> nofun

theorem loopClosed : LoopClosed (σ := σ) Flawless :=
  ⟨pure, bind, reading _, throw nofun⟩

theorem blocks {round : Running σ Unit} (h : Flawless round) :
    Flawless (Running.blocks round) :=
  fun s => loopClosed.blocksWithin h (s.1.rest.length + 1) s

end Flawless

end Running

namespace Plan

variable {σ : Type} {k : Sink σ} {limit : Nat} {body : Demand → Plan}

/-- An instruction with a legal operand does not fail with a defect. -/
theorem perform_flawless {i : Instruction} (h : i.Legal 0 0)
    (frame : Frame) : Running.Flawless (perform k i frame) := by
  intro s d t
  unfold perform
  cases hs : step [] k i 0 frame s.1 s.2 with
  | fail cause input state =>
    rintro ⟨⟩
    exact h.step_ne_defect [] k 0 frame s.1 input s.2 state d hs
  | goOn pc frame' input state => nofun
  | close input state => nofun
  | descend pc child close resume frame' input => nofun

/-- Opening a part of the sink with a legal operand does not fail with a
defect if what is meant for the part does not. -/
theorem opened_flawless {i : Instruction} (h : i.Legal 0 0)
    {inner : Running σ Unit} (hinner : inner.Flawless) (frame : Frame) :
    Running.Flawless (opened k i inner frame) := by
  intro s d t
  unfold opened
  cases hs : step [] k i 0 frame s.1 s.2 with
  | fail cause input state =>
    rintro ⟨⟩
    exact h.step_ne_defect [] k 0 frame s.1 input s.2 state d hs
  | goOn pc frame' input state => nofun
  | close input state => nofun
  | descend pc child close resume frame' input =>
    dsimp only
    cases hr : inner (input, child) with
    | ok u t' => nofun
    | error cause t' =>
      rintro ⟨⟩
      exact hinner _ d _ hr

theorem evalClosed_flawless : EvalClosed k limit (·.Legal 0 0) (·.Legal 0 0)
    Running.Flawless where
  toLoopClosed := Running.Flawless.loopClosed
  blocks := .blocks
  halt _ := .throw nofun
  tooDeep := .throw nofun
  perform h frame := perform_flawless h frame
  opened h hinner frame :=
    opened_flawless h (.bind hinner fun _ => .calling _) frame
  set _ := .calling _

/-- **Evaluation of plans with legal operands does not fail with a defect.** -/
theorem eval_flawless (hbody : ∀ d, (body d).Legal) (levels : Nat)
    {plan : Plan} (hplan : plan.Legal) (frame : Frame) :
    Running.Flawless (eval k limit body levels plan frame) :=
  evalClosed_flawless.eval (fun d _ => (hbody d).uses) levels hplan.uses frame

end Plan

section

variable {writer reader : Schema} {p : Program}

/-- **Compiled programs have no defects.** Every operand is legal: kinds
decode to what their operation can use, positions and addresses are no
negative numbers, addresses are inside the program, and stops name messages
that exist. And no run fails with a defect, in particular none leaves the
program. -/
theorem compile_flawless (h : compile writer reader = .ok p)
    (hfits : p.Fits) (hwriter : writer.Fits) (hreader : reader.Fits) :
    (∀ i ∈ p.instructions.toList,
      i.Legal p.instructions.size p.errors.length)
    ∧ ∀ {σ : Type} (k : Sink σ) (maxDepth steps : Nat) (input : Input)
      (state : σ) (o : Outcome σ Unit),
      p.run k maxDepth steps input state = some o →
      ∀ e : ExecutionError, o.result = .error e →
      ∀ d, e.cause ≠ .defect d := by
  have hD := encloses_ofRecords writer reader
  have hplan : (mainPlan writer reader).Legal :=
    Plan.legal_deliver hwriter hreader _ hreader.root _
  have hlegal : ∀ d : Demand, (d.body writer reader).Legal :=
    Demand.body_legal hwriter hreader
  refine ⟨Plan.program_legal hD hplan (fun d _ => hlegal d) h hfits, ?_⟩
  intro σ k maxDepth steps input state o hrun e he d
  obtain ⟨body, R, address, code, hbody, -, -, hp, hlinked, hcode⟩ :=
    Plan.program_realizes hD h hfits
  have hbodies : ∀ d, (body d).Legal := by
    intro d
    obtain ⟨d', _, _, heq⟩ := hbody d
    rw [heq]
    exact hlegal d'
  have hflawless : Running.Flawless (Plan.eval k maxDepth body maxDepth
      (mainPlan writer reader) .blank) :=
    Plan.eval_flawless hbodies maxDepth hplan .blank
  have hyields := hp.yields k maxDepth hlinked hcode (input, state)
  cases hr : Plan.eval k maxDepth body maxDepth (mainPlan writer reader)
      .blank (input, state) with
  | ok frame t =>
    rw [hr] at hyields
    rw [Program.Yields.eq_of_run hyields hrun] at he
    cases he
  | error cause t =>
    rw [hr] at hyields
    obtain ⟨e', hcause, hyields⟩ := hyields
    rw [Program.Yields.eq_of_run hyields hrun] at he
    cases he
    rw [hcause]
    rintro rfl
    exact hflawless (input, state) d t hr

end

/-- No run of the program for persons fails with a defect. -/
theorem Person.runs_flawless : ∃ p, Compiled Person.writer Person.reader p
    ∧ (∀ i ∈ p.instructions.toList,
      i.Legal p.instructions.size p.errors.length)
    ∧ ∀ (maxDepth steps : Nat) (input : Input) o,
      p.run (Builder.sink Person.reader) maxDepth steps input
        (Builder.fresh Person.reader Person.reader.root) = some o →
      ∀ e : ExecutionError, o.result = .error e →
      ∀ d, e.cause ≠ .defect d := by
  obtain ⟨p, hp⟩ := Person.exists_compiled
  obtain ⟨hoperands, hruns⟩ := compile_flawless hp.compiled hp.fits
    hp.writer_fits hp.reader_fits
  exact ⟨p, hp, hoperands, fun maxDepth steps input o =>
    hruns (Builder.sink Person.reader) maxDepth steps input _ o⟩

end Avro
