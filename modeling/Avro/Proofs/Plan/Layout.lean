import Avro.Proofs.Plan.Simulation

/-!
# Where plans stand

The plans of a program are the main plan, the plans of the methods that it
calls, and all parts of these. Each part stands at an address, which can be
read off the sizes of what is in front of it; that of a method is the operand
of the calls (`Program.Places`).

At these addresses stands linked code of the plans
(`Program.Places.exists_linked`), so what is known of the code of a plan, such
as what a loop does, is known of all its occurrences, however deep they are.
-/

namespace Avro

/-! ## Sizes -/

section

variable {R : Demand → Prop} {messages : List String}

mutual

/-- Linked code is as long as its plan. -/
theorem Linked.size_eq : ∀ {plan : Plan} {code : LinkedCode},
    Linked R messages plan code → code.size = plan.size
  | _, _, .nothing => by rw [Code.size, Code.size]
  | _, _, .op _ => by rw [Code.size, Code.size]
  | _, _, .call _ => by rw [Code.size, Code.size]
  | _, _, .seq h h' => by rw [Code.size, Code.size, h.size_eq, h'.size_eq]
  | _, _, .within _ h => by rw [Code.size, Code.size, h.size_eq]
  | _, _, .blocks h => by rw [Code.size, Code.size, h.size_eq]
  | _, _, .switch _ h => by
    rw [Code.size, Code.size, h.casesCount_eq, h.casesSize_eq]

/-- Linked cases are as long as the cases of the plan. -/
theorem LinkedAll.casesSize_eq : ∀ {cases : PlanCases} {cases' : LinkedCases},
    LinkedAll R messages cases cases' →
    Code.casesSize cases' = Code.casesSize cases
  | _, _, .none => by rw [Code.casesSize, Code.casesSize]
  | _, _, .case h h' => by
    rw [Code.casesSize, Code.casesSize, h.size_eq, h'.casesSize_eq]

/-- Linked cases are as many as the cases of the plan. -/
theorem LinkedAll.casesCount_eq :
    ∀ {cases : PlanCases} {cases' : LinkedCases},
      LinkedAll R messages cases cases' →
      Code.casesCount cases' = Code.casesCount cases
  | _, _, .none => by rw [Code.casesCount, Code.casesCount]
  | _, _, .case _ h => by
    rw [Code.casesCount, Code.casesCount, h.casesCount_eq]

end

end

/-! ## Addresses -/

/-- **Where the plans of cases stand**, if the cases stand at an address. -/
inductive Plan.CaseAt : PlanCases → Nat → Plan → Nat → Prop
  /-- The plan of the first case comes after its head. -/
  | first {tag : Nat} {delivered : Option Nat} {inner : Plan}
    {rest : PlanCases} {b : Nat} :
    CaseAt (.case tag delivered inner rest) b inner
      (b + Code.caseHeadSize delivered)
  /-- The other cases come after the first one. -/
  | later {tag : Nat} {delivered : Option Nat} {inner plan : Plan}
    {rest : PlanCases} {b a : Nat} :
    CaseAt rest (b + Code.caseHeadSize delivered + inner.size) plan a →
    CaseAt (.case tag delivered inner rest) b plan a

/-- **Where the plans of a program stand**, given its main plan and those of
its methods. -/
inductive Program.Places (p : Program) (body : Demand → Plan) (main : Plan) :
    Plan → Nat → Prop
  /-- The main plan stands in front. -/
  | main : Places p body main main 0
  /-- What is run first. -/
  | first {first second : Plan} {a : Nat} :
    Places p body main (.seq first second) a → Places p body main first a
  /-- What is run second. -/
  | second {first second : Plan} {a : Nat} :
    Places p body main (.seq first second) a →
    Places p body main second (a + first.size)
  /-- What runs on a part that is opened. -/
  | within {opening : Instruction} {label : String} {inner : Plan} {a : Nat} :
    Places p body main (.within opening label inner) a →
    Places p body main inner (a + 1)
  /-- A round of a loop. -/
  | blocks {label : String} {inner : Plan} {a : Nat} :
    Places p body main (.blocks label inner) a →
    Places p body main inner (a + Code.headerSize)
  /-- A case of a switch. -/
  | case {label message : String} {cases : PlanCases} {inner : Plan}
    {a b : Nat} : Places p body main (.switch label message cases) a →
    Plan.CaseAt cases (a + 2 * Code.casesCount cases + 1) inner b →
    Places p body main inner b
  /-- The method that a call enters. -/
  | method {demand : Demand} {a b : Nat} {i : Instruction} :
    Places p body main (.call demand) a → p.instructions[a]? = some i →
    address? i.operand = some b → Places p body main (body demand) b

section

variable {p : Program} {R : Demand → Prop} {address : String → Nat}

/-- The plan of a case has linked code where it stands. -/
theorem Plan.CaseAt.exists_linked {label : String} {done : Nat}
    {cases : PlanCases} {plan : Plan} {b a : Nat}
    (h : CaseAt cases b plan a) : ∀ {cases' : LinkedCases},
      LinkedAll R p.errors cases cases' →
      p.Holds b (Code.lowerCases address label done b cases') →
      ∃ code, Linked R p.errors plan code
        ∧ p.Holds a (Code.lower address a code) := by
  induction h with
  | first =>
    intro cases' hlinked hcode
    cases hlinked with
    | case hinner _ =>
      rw [Code.lowerCases] at hcode
      have hcode := hcode.left.right
      rw [Code.length_caseHead] at hcode
      exact ⟨_, hinner, hcode⟩
  | later _ ih =>
    intro cases' hlinked hcode
    cases hlinked with
    | case hinner hrest =>
      rw [Code.lowerCases] at hcode
      have hcode := hcode.right
      rw [List.length_append, Code.length_caseHead, Code.length_lower,
        ← Nat.add_assoc, hinner.size_eq] at hcode
      exact ih hrest hcode

/-- **Every plan of a program has linked code where it stands.** -/
theorem Program.Places.exists_linked {body : Demand → Plan} {main : Plan}
    {code : LinkedCode} (hp : p.Realizes body R address)
    (hlinked : Linked R p.errors main code)
    (hcode : p.Holds 0 (Code.lower address 0 code)) {plan : Plan} {a : Nat}
    (h : p.Places body main plan a) :
    ∃ code, Linked R p.errors plan code
      ∧ p.Holds a (Code.lower address a code) := by
  induction h with
  | main => exact ⟨code, hlinked, hcode⟩
  | first _ ih =>
    obtain ⟨_, hlinked, hcode⟩ := ih
    cases hlinked with
    | seq h _ =>
      rw [Code.lower] at hcode
      exact ⟨_, h, hcode.left⟩
  | second _ ih =>
    obtain ⟨_, hlinked, hcode⟩ := ih
    cases hlinked with
    | seq h h' =>
      rw [Code.lower] at hcode
      have hcode := hcode.right
      rw [Code.length_lower, h.size_eq] at hcode
      exact ⟨_, h', hcode⟩
  | within _ ih =>
    obtain ⟨_, hlinked, hcode⟩ := ih
    cases hlinked with
    | within _ h =>
      rw [Code.lower] at hcode
      have hcode := (show p.Holds _ ([_] ++ _) from hcode).right
      exact ⟨_, h, hcode.left⟩
  | blocks _ ih =>
    obtain ⟨_, hlinked, hcode⟩ := ih
    cases hlinked with
    | blocks h => exact ⟨_, h, hcode.blocks.2.1⟩
  | case _ hcase ih =>
    obtain ⟨_, hlinked, hcode⟩ := ih
    cases hlinked with
    | switch _ h =>
      rw [Code.lower] at hcode
      have hcode := (show p.Holds _ ([_] ++ _) from hcode.right).right
      rw [Code.length_tests, h.casesCount_eq] at hcode
      exact hcase.exists_linked h hcode
  | @method demand a b i _ hi hb ih =>
    obtain ⟨_, hlinked, hcode⟩ := ih
    cases hlinked with
    | call hd =>
      obtain ⟨code, label, hlinked, hmethod⟩ := hp.method demand hd
      rw [Code.lower] at hcode
      have hcall := hcode.get (n := 0) rfl
      rw [Nat.add_zero, hi] at hcall
      have hle := hmethod.length_le
      have hsize := hp.size_lt
      rw [Option.some.inj hcall, address?_target (by omega)] at hb
      rw [← Option.some.inj hb]
      exact ⟨code, hlinked, hmethod.left⟩

end

end Avro
