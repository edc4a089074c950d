import Avro.Proofs.Plan.Demands
import Avro.Proofs.Plan.Simulation
import Avro.Proofs.Value.Entries

/-!
# What compiling leaves

A program is the main code and the methods one after the other. Where names
are told apart, the table of addresses gives the address at which the code of
a name stands (`methodInstructions_holds`), so a call enters the method of its
name. Which plan that method is the code of is the other half: the code is
linked from the plan of *some* demand of the name (`Linkage.linked`), and it
is the plan of the demand that is called if no two demands of the class have
one name.

What is compiled is the plan of the two roots, but nothing depends on that, so
all is said for a plan that is compiled on its own (`Plan.program`).

`Plan.program_realizes` puts the two together: a program realizes, for
every demand, the plan of a demand of its name. `compile_realizes` is the case
in which names tell demands apart. `compile_ok` is about the other outcome:
compiling fails only where a plan rejects.
-/

namespace Avro

/-! ## Calls of known methods -/

section

variable {R : Demand → Prop} {messages names : List String}

mutual

/-- Linked code calls methods of its demands only. -/
theorem Linked.unknownCall?_eq_none (hR : ∀ d, R d → d.methodName ∈ names) :
    ∀ {plan : Plan} {code : LinkedCode}, Linked R messages plan code →
      code.unknownCall? names = none
  | _, _, .nothing | _, _, .op _ => rfl
  | _, _, .seq h h' => by
    rw [Code.unknownCall?, h.unknownCall?_eq_none hR,
      h'.unknownCall?_eq_none hR]
    rfl
  | _, _, .within _ h | _, _, .blocks h => by
    rw [Code.unknownCall?, h.unknownCall?_eq_none hR]
  | _, _, .switch _ h => by
    rw [Code.unknownCall?, h.unknownCallIn?_eq_none hR]
  | _, _, .call h => by
    rw [Code.unknownCall?, if_pos (List.contains_iff_mem.mpr (hR _ h))]

/-- Linked cases call methods of their demands only. -/
theorem LinkedAll.unknownCallIn?_eq_none
    (hR : ∀ d, R d → d.methodName ∈ names) :
    ∀ {cases : PlanCases} {cases' : LinkedCases},
      LinkedAll R messages cases cases' →
      Code.unknownCallIn? names cases' = none
  | _, _, .none => rfl
  | _, _, .case h h' => by
    rw [Code.unknownCallIn?, h.unknownCall?_eq_none hR,
      h'.unknownCallIn?_eq_none hR]
    rfl

end

end

/-! ## Where methods stand -/

namespace Assembly

/-- The table of addresses has the names of the methods. -/
theorem map_fst_addresses : ∀ (methods : List Method) (address : Nat),
    (addresses address methods).map (·.1) = methods.map (·.name)
  | [], _ => rfl
  | m :: rest, address => by
    rw [addresses, List.map_cons, map_fst_addresses rest, List.map_cons]

/-- **Every method stands at an address of the table**, its return behind
it. -/
theorem methodInstructions_holds {p : Program} {table : String → Nat} :
    ∀ {methods : List Method} {address : Nat},
      p.Holds address (methodInstructions table address methods) →
      ∀ m ∈ methods, ∃ a, (m.name, a) ∈ addresses address methods
        ∧ p.Holds a (Code.lower table a m.code ++ [⟨.return, 0, m.name⟩])
  | [], _, _, m, hm => absurd hm List.not_mem_nil
  | first :: rest, address, h, m, hm => by
    rw [methodInstructions] at h
    have h : p.Holds address ((Code.lower table address first.code
        ++ [⟨.return, 0, first.name⟩])
        ++ methodInstructions table (address + first.code.size + 1) rest) := by
      rw [List.append_assoc]
      exact h
    rcases List.mem_cons.mp hm with rfl | hm
    · exact ⟨address, List.mem_cons_self, h.left⟩
    · have hrest := h.right
      rw [List.length_append, Code.length_lower, ← Nat.add_assoc] at hrest
      obtain ⟨a, ha, hcode⟩ := methodInstructions_holds hrest m hm
      exact ⟨a, List.mem_cons_of_mem _ ha, hcode⟩

/-- The addresses by which calls of an assembly find their methods. -/
def address (a : Assembly) (name : String) : Nat :=
  (Entries.find? name (addresses (a.main.size + 1) a.methods)).getD 0

/-- **The program of an assembly** holds the main code in front and every
method at the address of its name. -/
theorem program_holds {a : Assembly} {p : Program} (h : a.program = .ok p)
    (hnodup : (a.methods.map (·.name)).Nodup) :
    p.errors = a.messages
      ∧ p.Holds 0 (Code.lower a.address 0 a.main ++ [⟨.halt, 0, "end"⟩])
      ∧ ∀ m ∈ a.methods, p.Holds (a.address m.name)
        (Code.lower a.address (a.address m.name) m.code
          ++ [⟨.return, 0, m.name⟩]) := by
  unfold program at h
  cases hu : a.unknownCall? with
  | some name => rw [hu] at h; exact absurd h (by simp)
  | none =>
    rw [hu] at h
    have h := (Except.ok.inj h).symm
    have hall : p.Holds 0 ((Code.lower a.address 0 a.main
        ++ [⟨.halt, 0, "end"⟩])
        ++ methodInstructions a.address (a.main.size + 1) a.methods) := by
      refine ⟨[], [], ?_, rfl⟩
      rw [h, List.nil_append, List.append_nil, List.append_assoc]
      rfl
    refine ⟨by rw [h], hall.left, ?_⟩
    intro m hm
    have hmethods := hall.right
    rw [List.length_append, Code.length_lower, Nat.zero_add] at hmethods
    obtain ⟨b, hb, hcode⟩ := methodInstructions_holds hmethods m hm
    rw [← map_fst_addresses _ (a.main.size + 1)] at hnodup
    have hfind : a.address m.name = b := by
      rw [address, Entries.find?_of_mem hnodup hb]
      rfl
    rw [hfind]
    exact hcode

end Assembly

/-! ## Compiling -/

section

variable (writer reader : Schema)

/-- The plan of the main code. -/
def mainPlan : Plan :=
  Plan.deliver writer writer.root reader reader.root "root"

/-- **Names tell demands apart**: no two demands of a class have methods of
one name. -/
def NamesTellApart (D : Demand → Prop) : Prop :=
  ∀ d d', D d → D d' → d.methodName = d'.methodName → d = d'

/-- **A class of demands encloses a plan** that is compiled on its own: the
plan and the methods ask for demands of the class only. -/
structure EnclosesPlan (plan : Plan) (D : Demand → Prop) : Prop where
  /-- The demands are made of records of the schemas. -/
  ofRecords : ∀ d, D d → d.OfRecords writer reader
  /-- The main plan asks for demands of the class. -/
  main : plan.Regular D
  /-- The plan of a method asks for demands of the class. -/
  body : ∀ d, D d → (d.body writer reader).Regular D

/-- **A class of demands encloses a compilation**: the root and the methods
ask for demands of the class only. -/
abbrev Encloses (D : Demand → Prop) : Prop :=
  EnclosesPlan writer reader (mainPlan writer reader) D

/-- The demands made of records enclose every compilation. -/
theorem encloses_ofRecords :
    Encloses writer reader (Demand.OfRecords writer reader) where
  ofRecords _ h := h
  main := Plan.regular_deliver _ _ _
  body d _ := d.body_regular

/-- **A class of demands is closed**: their plans are accepted for the class
itself. -/
structure ClosedClass (R : Demand → Prop) : Prop where
  /-- The demands are made of records of the schemas. -/
  ofRecords : ∀ d, R d → d.OfRecords writer reader
  /-- The plan of a method calls methods of the class. -/
  body : ∀ d, R d → (d.body writer reader).Accepted R

end

/-- Names that tell the demands of a class apart do so for a smaller one. -/
theorem NamesTellApart.mono {D E : Demand → Prop} (h : NamesTellApart E)
    (hle : ∀ d, D d → E d) : NamesTellApart D :=
  fun d d' hd hd' => h d d' (hle d hd) (hle d' hd')

/-! ## Plans on their own -/

section

variable (writer reader : Schema) (plan : Plan)

/-- **The assembly of a plan** on its own: its linked code, with the methods
that it needs. -/
def Assembly.ofPlan : Except CompileError Assembly :=
  let budget := writer.recordCount * (reader.recordCount + 1) + 1
  match (plan.link (linkCall writer reader budget)).run .empty with
  | .error e => .error e
  | .ok ((main, methods), registry) => .ok ⟨main, methods, registry.messages⟩

/-- **The program of a plan** on its own. -/
def Plan.program : Except CompileError Program :=
  match Assembly.ofPlan writer reader plan with
  | .error e => .error e
  | .ok assembly => assembly.program

/-- What is compiled is the plan of the roots. -/
theorem compile_eq :
    compile writer reader = (mainPlan writer reader).program writer reader :=
  rfl

end

variable {writer reader : Schema} {D : Demand → Prop} {plan : Plan}

variable (writer reader plan D) in
/-- **An assembly is faithful** to a plan: it has the linked code of the plan,
and every method is linked from the plan of a demand of its name. -/
structure Assembly.Faithful (a : Assembly) : Prop where
  /-- No two methods have one name. -/
  nodup : (a.methods.map (·.name)).Nodup
  /-- The main code is that of the plan. -/
  main : Linked (Registered D (a.methods.map (·.name))) a.messages plan a.main
  /-- Methods are those of demands. -/
  method : ∀ m ∈ a.methods, ∃ d, D d ∧ d.methodName = m.name
    ∧ Linked (Registered D (a.methods.map (·.name))) a.messages
      (d.body writer reader) m.code

/-- **Assembling leaves linked code**, or fails where a plan rejects. -/
theorem Assembly.ofPlan_spec (hD : EnclosesPlan writer reader plan D) :
    match Assembly.ofPlan writer reader plan with
    | .ok a => a.Faithful writer reader D plan
    | .error e => plan.Rejects e
      ∨ RejectsBelow D (Demand.body writer reader) e := by
  have hcalls : LinksCalls D (Demand.body writer reader) 0
      (linkCall writer reader
        (writer.recordCount * (reader.recordCount + 1) + 1)) := by
    have h := @linksCalls_linkCall D writer reader (methodNames writer reader)
      (fun d h => (hD.ofRecords d h).methodName_mem) hD.body
      (writer.recordCount * (reader.recordCount + 1) + 1)
    rwa [length_methodNames, Nat.sub_self] at h
  have hmeets := meets_link hcalls plan hD.main .empty
    ⟨List.nodup_nil, nofun⟩ (Nat.zero_le _)
  unfold Assembling.Meets at hmeets
  unfold Assembly.ofPlan
  dsimp only [StateT.run]
  generalize plan.link (linkCall writer reader
    (writer.recordCount * (reader.recordCount + 1) + 1)) .empty = result
    at hmeets
  cases result with
  | error e => exact hmeets
  | ok result =>
    obtain ⟨⟨main, methods⟩, after⟩ := result
    obtain ⟨h, hmain⟩ := hmeets
    have hnames : after.methods = methods.map (·.name) := h.names
    rw [hnames] at hmain
    refine ⟨?_, hmain, ?_⟩
    · show (methods.map (·.name)).Nodup
      rw [← hnames]
      exact h.ofClass.nodup
    · intro m hm
      have hlinked := h.linked m hm
      rw [hnames] at hlinked
      exact hlinked

/-- The program of a plan is the program of a faithful assembly. -/
theorem Plan.program_assembly (hD : EnclosesPlan writer reader plan D)
    {p : Program} (h : plan.program writer reader = .ok p) :
    ∃ a : Assembly, a.Faithful writer reader D plan ∧ a.program = .ok p := by
  have hspec := Assembly.ofPlan_spec hD
  unfold Plan.program at h
  cases ha : Assembly.ofPlan writer reader plan with
  | error e => rw [ha] at h; exact absurd h (by simp)
  | ok a =>
    rw [ha] at h hspec
    exact ⟨a, hspec, h⟩

/-- **A faithful assembly calls methods that it has.** -/
theorem Assembly.Faithful.unknownCall?_eq_none {a : Assembly}
    (ha : a.Faithful writer reader D plan) : a.unknownCall? = none := by
  unfold Assembly.unknownCall?
  dsimp only
  rw [ha.main.unknownCall?_eq_none (fun d h => h.2), Option.none_or]
  refine List.findSome?_eq_none_iff.mpr fun m hm => ?_
  obtain ⟨d, _, _, hlinked⟩ := ha.method m hm
  exact hlinked.unknownCall?_eq_none fun d h => h.2

/-- **A plan has a program where no plan rejects.** -/
theorem Plan.program_ok (hD : EnclosesPlan writer reader plan D)
    (hmain : ∀ e, ¬ plan.Rejects e)
    (hbody : ∀ d, D d → ∀ e, ¬ (d.body writer reader).Rejects e) :
    ∃ p, plan.program writer reader = .ok p := by
  have hspec := Assembly.ofPlan_spec hD
  unfold Plan.program
  cases ha : Assembly.ofPlan writer reader plan with
  | error e =>
    rw [ha] at hspec
    rcases hspec with h | ⟨d, hd, h⟩
    · exact absurd h (hmain e)
    · exact absurd h (hbody d hd e)
  | ok a =>
    rw [ha] at hspec
    simp only [Assembly.program, hspec.unknownCall?_eq_none]
    exact ⟨_, rfl⟩

/-- **Compiling succeeds where no plan rejects.** -/
theorem compile_ok (hD : Encloses writer reader D)
    (hmain : ∀ e, ¬ (mainPlan writer reader).Rejects e)
    (hbody : ∀ d, D d → ∀ e, ¬ (d.body writer reader).Rejects e) :
    ∃ p, compile writer reader = .ok p :=
  Plan.program_ok hD hmain hbody

/-- **Every method of a faithful assembly is linked from one plan** by its
name: the plan of a demand of that name, the same for all demands of the
name. -/
theorem Assembly.Faithful.exists_bodies {a : Assembly}
    (ha : a.Faithful writer reader D plan) :
    ∃ body : Demand → Plan,
      (∀ d, ∃ d', (D d → D d') ∧ d'.methodName = d.methodName
        ∧ body d = d'.body writer reader)
      ∧ ∀ d, Registered D (a.methods.map (·.name)) d →
        ∃ m ∈ a.methods, m.name = d.methodName
          ∧ Linked (Registered D (a.methods.map (·.name))) a.messages
            (body d) m.code := by
  have hchoose : ∀ d : Demand, ∃ plan : Plan,
      (∃ d', (D d → D d') ∧ d'.methodName = d.methodName
        ∧ plan = d'.body writer reader)
      ∧ (Registered D (a.methods.map (·.name)) d →
        ∃ m ∈ a.methods, m.name = d.methodName
          ∧ Linked (Registered D (a.methods.map (·.name))) a.messages
            plan m.code) := by
    intro d
    by_cases hname : d.methodName ∈ a.methods.map (·.name)
    · obtain ⟨m, hm, hmname⟩ := List.mem_map.mp hname
      obtain ⟨d', hd', hname', hlinked⟩ := ha.method m hm
      exact ⟨d'.body writer reader,
        ⟨d', fun _ => hd', hname'.trans hmname, rfl⟩,
        fun _ => ⟨m, hm, hmname, hlinked⟩⟩
    · exact ⟨d.body writer reader, ⟨d, id, rfl, rfl⟩,
        fun hd => absurd hd.2 hname⟩
  choose body hbody hmethod using hchoose
  exact ⟨body, hbody, hmethod⟩

/-- **The program of a plan realizes plans of methods**: to each demand belongs
the plan of a demand of its name. The methods stand where they are called, and
the code of the plan stands in front. -/
theorem Plan.program_realizes (hD : EnclosesPlan writer reader plan D)
    {p : Program} (h : plan.program writer reader = .ok p)
    (hfits : p.Fits) :
    ∃ (body : Demand → Plan) (R : Demand → Prop) (address : String → Nat)
      (code : LinkedCode),
      (∀ d, ∃ d', (D d → D d') ∧ d'.methodName = d.methodName
        ∧ body d = d'.body writer reader)
      ∧ (∀ d, R d → D d) ∧ (∀ d, R d → (body d).Accepted R)
      ∧ p.Realizes body R address ∧ Linked R p.errors plan code
      ∧ p.Holds 0 (Code.lower address 0 code ++ [⟨.halt, 0, "end"⟩]) := by
  obtain ⟨a, hfaithful, hp⟩ := Plan.program_assembly hD h
  obtain ⟨herrors, hmain, hmethods⟩ := a.program_holds hp hfaithful.nodup
  obtain ⟨body, hbody, hmethod⟩ := hfaithful.exists_bodies
  refine ⟨body, _, a.address, a.main, hbody, fun d hd => hd.1,
    fun d hd => ?_, ⟨hfits, fun d hd => ?_⟩, herrors ▸ hfaithful.main, hmain⟩
  · obtain ⟨m, _, _, hlinked⟩ := hmethod d hd
    exact hlinked.accepted
  · obtain ⟨m, hm, hname, hlinked⟩ := hmethod d hd
    refine ⟨m.code, m.name, herrors ▸ hlinked, ?_⟩
    rw [← hname]
    exact hmethods m hm

/-- **The program of a plan realizes the plans of its demands**, if their
names tell them apart. -/
theorem Plan.program_realizes_apart (hD : EnclosesPlan writer reader plan D)
    (hnames : NamesTellApart D) {p : Program}
    (h : plan.program writer reader = .ok p) (hfits : p.Fits) :
    ∃ R address code, (∀ d, R d → D d) ∧ ClosedClass writer reader R
      ∧ p.Realizes (Demand.body writer reader) R address
      ∧ Linked R p.errors plan code
      ∧ p.Holds 0 (Code.lower address 0 code ++ [⟨.halt, 0, "end"⟩]) := by
  obtain ⟨body, R, address, code, hbody, hR, haccepted, hp, hlinked, hcode⟩ :=
    Plan.program_realizes hD h hfits
  have hsame : ∀ d, R d → body d = d.body writer reader := by
    intro d hd
    obtain ⟨d', hd', hname, heq⟩ := hbody d
    rw [heq, hnames d' d (hd' (hR d hd)) (hR d hd) hname]
  refine ⟨R, address, code, hR, ⟨fun d hd => hD.ofRecords d (hR d hd),
    fun d hd => hsame d hd ▸ haccepted d hd⟩, ⟨hfits, fun d hd => ?_⟩,
    hlinked, hcode⟩
  rw [← hsame d hd]
  exact hp.method d hd

/-- **A compiled program realizes the plans of its demands**, if their names
tell them apart: the methods stand where they are called, and the main code
stands in front. -/
theorem compile_realizes (hD : Encloses writer reader D)
    (hnames : NamesTellApart D) {p : Program}
    (h : compile writer reader = .ok p) (hfits : p.Fits) :
    ∃ R address code, (∀ d, R d → D d) ∧ ClosedClass writer reader R
      ∧ p.Realizes (Demand.body writer reader) R address
      ∧ Linked R p.errors (mainPlan writer reader) code
      ∧ p.Holds 0 (Code.lower address 0 code ++ [⟨.halt, 0, "end"⟩]) :=
  Plan.program_realizes_apart hD hnames h hfits

end Avro
