import Avro.Proofs.Plan.Emission
import Mathlib

/-!
# Compiling is bounded

Compiling follows the calls of a plan into the plans of other methods, and the
schemas may refer to each other in any way. It comes to an end because a method
is registered before its plan is walked, and a registered method is not walked
again: only as many methods can be inside one another as there are pairs of a
writer's record with a reader's record or nothing.

So a limit on the number of methods inside one another changes nothing once it
exceeds the number of these pairs (`compile_bounded`). Nor does a compilation of
schemas that were read fail for the compiler's own sake, and the methods of its
program are no more than the pairs.
-/

namespace Avro

/-! ## Limits -/

namespace Assembling

variable {α β : Type}

/-- **A walk refines another**: from every registry it does the same, unless the
other one stopped for a defect. -/
def Refines (m m' : Assembling α) : Prop :=
  ∀ registry, (∃ reason, m registry = .error (.internal reason))
    ∨ m registry = m' registry

namespace Refines

theorem refl (m : Assembling α) : Refines m m := fun _ => .inr rfl

theorem bind {m m' : Assembling α} {f f' : α → Assembling β}
    (h : Refines m m') (hf : ∀ a, Refines (f a) (f' a)) :
    Refines (m >>= f) (m' >>= f') := by
  intro registry
  simp only [Bind.bind, StateT.bind, Except.bind]
  rcases h registry with ⟨reason, h⟩ | h
  · exact .inl ⟨reason, by rw [h]⟩
  · rw [← h]
    cases m registry with
    | error e => exact .inr rfl
    | ok result => exact hf result.1 result.2

end Refines

end Assembling

open Assembling (Refines)

section

variable {onCall onCall' : Demand → Assembling (String × List Method)}

mutual

/-- **Walking a plan is refined** by refining how calls are linked. -/
theorem refines_link (h : ∀ d, Refines (onCall d) (onCall' d)) :
    ∀ plan : Plan, Refines (plan.link onCall) (plan.link onCall')
  | .nothing => by rw [Plan.link, Plan.link]; exact .refl _
  | .seq first second => by
    rw [Plan.link, Plan.link]
    exact .bind (refines_link h first) fun _ =>
      .bind (refines_link h second) fun _ => .refl _
  | .op i => by rw [Plan.link, Plan.link]; exact .refl _
  | .within _ _ inner | .blocks _ inner => by
    rw [Plan.link, Plan.link]
    exact .bind (refines_link h inner) fun _ => .refl _
  | .switch _ _ cases => by
    rw [Plan.link, Plan.link]
    exact .bind (.refl _) fun _ =>
      .bind (refines_linkCases h cases) fun _ => .refl _
  | .call demand => by
    rw [Plan.link, Plan.link]
    exact .bind (h demand) fun _ => .refl _
  | .reject _ => by rw [Plan.link, Plan.link]; exact .refl _

theorem refines_linkCases (h : ∀ d, Refines (onCall d) (onCall' d)) :
    ∀ cases : PlanCases,
      Refines (Plan.linkCases onCall cases) (Plan.linkCases onCall' cases)
  | .none => by rw [Plan.linkCases, Plan.linkCases]; exact .refl _
  | .case _ _ inner rest => by
    rw [Plan.linkCases, Plan.linkCases]
    exact .bind (refines_link h inner) fun _ =>
      .bind (refines_linkCases h rest) fun _ => .refl _

end

end

section

variable {writer reader : Schema}

/-- **One more method inside another** refines linking a call. -/
theorem refines_linkCall (budget : Nat) (d : Demand) :
    Refines (linkCall writer reader budget d)
      (linkCall writer reader (budget + 1) d) := by
  induction budget generalizing d with
  | zero => exact fun _ => .inl ⟨_, rfl⟩
  | succ budget ih =>
    rw [linkCall, linkCall]
    refine .bind (.refl _) fun registry => ?_
    dsimp only
    split
    · exact .refl _
    · exact .bind (.refl _) fun _ => .bind (refines_link ih _) fun _ =>
        .refl _

/-- **A limit that did not stop a walk** can be raised. -/
theorem link_linkCall_eq {plan : Plan} {registry : Registry} {budget : Nat}
    (h : ∀ reason, plan.link (linkCall writer reader budget) registry
      ≠ .error (.internal reason)) {more : Nat} (hle : budget ≤ more) :
    plan.link (linkCall writer reader more) registry
      = plan.link (linkCall writer reader budget) registry := by
  induction more, hle using Nat.le_induction with
  | base => rfl
  | succ more hle ih =>
    rcases refines_link (refines_linkCall more) plan registry with
      ⟨reason, hreason⟩ | heq
    · exact absurd (ih ▸ hreason) (h reason)
    · rw [← heq, ih]

/-! ## Compilations of schemas that were read -/

/-- **Linking the roots succeeds or finds the schemas wrong**, and leaves a
faithful assembly. -/
theorem link_mainPlan (hw : writer.WellFormed) (hr : reader.WellFormed) :
    match Assembly.ofPlan writer reader (mainPlan writer reader) with
    | .ok a => a.Faithful writer reader (Demand.OfRecords writer reader)
        (mainPlan writer reader)
    | .error e => e.isDefect = false := by
  have hspec := Assembly.ofPlan_spec (encloses_ofRecords writer reader)
  cases ha : Assembly.ofPlan writer reader (mainPlan writer reader) with
  | ok a => rw [ha] at hspec; exact hspec
  | error e =>
    rw [ha] at hspec
    rcases hspec with he | ⟨d, hd, he⟩
    · exact (sound_mainPlan hw hr).isDefect_eq he
    · exact (Demand.sound_body hw hr hd).isDefect_eq he

/-- The limit of `compile` stops nothing, or it would have been a defect. -/
theorem link_mainPlan_eq (hw : writer.WellFormed) (hr : reader.WellFormed)
    {budget : Nat}
    (hbudget : writer.recordCount * (reader.recordCount + 1) < budget) :
    (mainPlan writer reader).link (linkCall writer reader budget) .empty
      = (mainPlan writer reader).link (linkCall writer reader
        (writer.recordCount * (reader.recordCount + 1) + 1)) .empty := by
  have hspec := link_mainPlan hw hr
  refine link_linkCall_eq (fun reason hreason => ?_) hbudget
  rw [Assembly.ofPlan, StateT.run, hreason] at hspec
  exact absurd hspec nofun

/-- **Compiling by symbolic code compiles**, if the limit exceeds the number of
pairs of a writer's record with a reader's record or nothing. -/
theorem compileSymbolic_eq (hw : writer.WellFormed) (hr : reader.WellFormed)
    {budget : Nat}
    (hbudget : writer.recordCount * (reader.recordCount + 1) < budget) :
    compileSymbolic budget writer reader = compile writer reader := by
  have hspec := link_mainPlan hw hr
  have hsymbolic := compileSymbolic_eq_of_link
    (encloses_ofRecords writer reader) (sound_mainPlan hw hr)
    (fun d hd => Demand.sound_body hw hr hd) budget
  rw [link_mainPlan_eq hw hr hbudget] at hsymbolic
  rw [compile_eq, Plan.program]
  rw [Assembly.ofPlan, StateT.run] at hspec ⊢
  cases hresult : (mainPlan writer reader).link (linkCall writer reader
      (writer.recordCount * (reader.recordCount + 1) + 1)) .empty with
  | error e =>
    rw [hresult] at hsymbolic
    exact hsymbolic
  | ok result =>
    rw [hresult] at hsymbolic hspec
    exact hsymbolic hspec.unknownCall?_eq_none

/-- **Compiling schemas that were read fails for their sake only.** -/
theorem isDefect_eq_false_of_compile (hw : writer.WellFormed)
    (hr : reader.WellFormed) {e : CompileError}
    (h : compile writer reader = .error e) :
    e.isDefect = false := by
  have hspec := link_mainPlan hw hr
  rw [compile_eq, Plan.program] at h
  cases ha : Assembly.ofPlan writer reader (mainPlan writer reader) with
  | error e' =>
    rw [ha] at h hspec
    obtain rfl := Except.error.inj h
    exact hspec
  | ok a =>
    rw [ha] at h hspec
    simp only [Assembly.program, hspec.unknownCall?_eq_none] at h
    cases h

end

/-! ## Where methods stand -/

/-- A method as it stands in a program: its name and its instructions up to
the final return. -/
abbrev MethodText := String × List Instruction

/-- All the instructions of a method. -/
def MethodText.all (m : MethodText) : List Instruction :=
  m.2 ++ [⟨.return, 0, m.1⟩]

/-- The offsets of methods of which the first begins at an offset. -/
def MethodText.offsets : (offset : Nat) → List MethodText → List (String × Nat)
  | _, [] => []
  | offset, m :: rest => (m.1, offset) :: offsets (offset + m.all.length) rest

/-- **How a program is laid out**: the main code with its halt, and behind it
the methods, each with its return; no two have one name, and the table has the
offset of each. -/
structure Program.LaidOut (p : Program) (main : List Instruction)
    (methods : List MethodText) : Prop where
  /-- The instructions are those of the main code and the methods. -/
  instructions : p.instructions.toList
    = main ++ ⟨.halt, 0, "end"⟩ :: methods.flatMap MethodText.all
  /-- Methods have different names. -/
  nodup : (methods.map (·.1)).Nodup
  /-- The table has the offsets of the methods. -/
  table : p.methods.Perm (MethodText.offsets (main.length + 1) methods)

namespace MethodText

/-- A method is not empty. -/
theorem length_all_pos (m : MethodText) : 0 < m.all.length := by
  rw [all, List.length_append]
  exact Nat.succ_pos _

theorem map_fst_offsets : ∀ (methods : List MethodText) (offset : Nat),
    (offsets offset methods).map (·.1) = methods.map (·.1)
  | [], _ => rfl
  | m :: rest, offset => by
    rw [offsets, List.map_cons, map_fst_offsets rest, List.map_cons]

/-- Offsets grow. -/
theorem pairwise_offsets : ∀ (methods : List MethodText) (offset : Nat),
    (offsets offset methods).Pairwise (fun a b => a.2 < b.2)
      ∧ ∀ x ∈ offsets offset methods, offset ≤ x.2
  | [], _ => ⟨.nil, nofun⟩
  | m :: rest, offset => by
    obtain ⟨hpairwise, hle⟩ := pairwise_offsets rest (offset + m.all.length)
    have hpos := m.length_all_pos
    rw [offsets]
    refine ⟨.cons (fun x hx => ?_) hpairwise,
      List.forall_mem_cons.mpr ⟨Nat.le_refl _, fun x hx => ?_⟩⟩
    · have := hle x hx
      show offset < x.2
      omega
    · have := hle x hx
      omega

/-- The methods of an assembly, as they stand in its program. -/
theorem exists_texts (address : String → Nat) :
    ∀ (methods : List Method) (offset : Nat), ∃ texts : List MethodText,
      texts.map (·.1) = methods.map (·.name)
      ∧ Assembly.methodInstructions address offset methods
        = texts.flatMap all
      ∧ Assembly.addresses offset methods = offsets offset texts
  | [], _ => ⟨[], rfl, rfl, rfl⟩
  | m :: rest, offset => by
    obtain ⟨texts, hnames, hinstructions, haddresses⟩ :=
      exists_texts address rest (offset + m.code.size + 1)
    refine ⟨(m.name, m.code.lower address offset) :: texts, ?_, ?_, ?_⟩
    · rw [List.map_cons, List.map_cons, hnames]
    · rw [Assembly.methodInstructions, hinstructions, List.flatMap_cons, all,
        List.append_assoc]
      rfl
    · rw [Assembly.addresses, haddresses, offsets, all, List.length_append,
        Code.length_lower]
      rfl

end MethodText

namespace Program.LaidOut

variable {p : Program} {main : List Instruction} {methods : List MethodText}

/-- **Every method stands at its own offset.** -/
theorem offsets_nodup (h : p.LaidOut main methods) :
    (p.methods.map (·.2)).Nodup := by
  rw [(h.table.map (·.2)).nodup_iff]
  exact List.pairwise_map.mpr ((MethodText.pairwise_offsets methods _).1.imp
    Nat.ne_of_lt)

/-- The table has an entry for every method. -/
theorem length_methods (h : p.LaidOut main methods) :
    p.methods.length = methods.length := by
  rw [h.table.length_eq, ← List.length_map (·.1), MethodText.map_fst_offsets,
    List.length_map]

/-- Methods that stand one after another stand at their offsets. -/
theorem holds_offsets : ∀ {methods : List MethodText} {offset : Nat},
    p.Holds offset (methods.flatMap MethodText.all) →
      ∀ x ∈ MethodText.offsets offset methods,
        ∃ m ∈ methods, m.1 = x.1 ∧ p.Holds x.2 m.all
  | [], _, _, x, hx => absurd hx List.not_mem_nil
  | m :: rest, offset, h, x, hx => by
    rw [List.flatMap_cons] at h
    rcases List.mem_cons.mp hx with rfl | hx
    · exact ⟨m, List.mem_cons_self, rfl, h.left⟩
    · obtain ⟨m', hm', hname, hholds⟩ := holds_offsets h.right x hx
      exact ⟨m', List.mem_cons_of_mem _ hm', hname, hholds⟩

/-- **Every entry of the table is where a method stands**, which ends with its
return. -/
theorem holds (h : p.LaidOut main methods) : ∀ x ∈ p.methods,
    ∃ code, p.Holds x.2 (code ++ [⟨.return, 0, x.1⟩]) := by
  intro x hx
  have hall : p.Holds (main.length + 1) (methods.flatMap MethodText.all) :=
    ⟨main ++ [⟨.halt, 0, "end"⟩], [], by rw [h.instructions]; simp, by simp⟩
  obtain ⟨m, _, hname, hholds⟩ := holds_offsets hall x (h.table.mem_iff.mp hx)
  exact ⟨m.2, hname ▸ hholds⟩

end Program.LaidOut

/-- **The program of an assembly is laid out**, if methods have different
names. -/
theorem Assembly.exists_laidOut {a : Assembly} {p : Program}
    (h : a.program = .ok p) (hnodup : (a.methods.map (·.name)).Nodup) :
    ∃ main methods, p.LaidOut main methods
      ∧ methods.length = a.methods.length := by
  unfold program at h
  cases hcalls : a.unknownCall? with
  | some name => rw [hcalls] at h; exact absurd h nofun
  | none =>
    rw [hcalls] at h
    obtain rfl := Except.ok.inj h
    obtain ⟨texts, hnames, hinstructions, haddresses⟩ :=
      MethodText.exists_texts a.address a.methods (a.main.size + 1)
    refine ⟨a.main.lower a.address 0, texts, ⟨?_, hnames ▸ hnodup, ?_⟩, ?_⟩
    · rw [← hinstructions]
      rfl
    · rw [Code.length_lower, ← haddresses]
      have hkeys : ((addresses (a.main.size + 1) a.methods).map
          (·.1)).Nodup := by
        rwa [map_fst_addresses]
      exact Entries.foldl_perm (List.nil_append _ ▸ hkeys)
    · simpa using congrArg List.length hnames

section

variable {writer reader : Schema}

/-- **A compiled program has no more methods than there are pairs** of a
writer's record with a reader's record or nothing. -/
theorem Assembly.Faithful.length_methods_le {a : Assembly} {plan : Plan}
    (ha : a.Faithful writer reader (Demand.OfRecords writer reader) plan) :
    a.methods.length ≤ writer.recordCount * (reader.recordCount + 1) := by
  rw [← length_methodNames, ← List.length_map (·.name)]
  refine (List.subperm_of_subset ha.nodup fun name hname => ?_).length_le
  obtain ⟨m, hm, rfl⟩ := List.mem_map.mp hname
  obtain ⟨d, hd, hname, -⟩ := ha.method m hm
  exact hname ▸ hd.methodName_mem

/-- **Compiling is bounded**, whichever schemas were read. No limit on the
number of methods inside one another matters once it exceeds the number of
pairs of a writer's record with a reader's record or nothing. An error never
blames the compiler. A program has no more methods than pairs; no two of them
have one name or one offset, and each stands at its offset up to its return. -/
theorem compile_bounded {source source' : String}
    (hwriter : Schema.parse source = .ok writer)
    (hreader : Schema.parse source' = .ok reader) :
    (∀ budget, writer.recordCount * (reader.recordCount + 1) < budget →
      compileSymbolic budget writer reader = compile writer reader)
    ∧ (∀ e, compile writer reader = .error e → e.isDefect = false)
    ∧ ∀ p, compile writer reader = .ok p →
      p.methods.length ≤ writer.recordCount * (reader.recordCount + 1)
      ∧ (p.methods.map (·.2)).Nodup
      ∧ (∀ x ∈ p.methods,
        ∃ code, p.Holds x.2 (code ++ [⟨.return, 0, x.1⟩]))
      ∧ ∃ main methods, p.LaidOut main methods := by
  have hw := Schema.parse_wellFormed hwriter
  have hr := Schema.parse_wellFormed hreader
  refine ⟨fun budget => compileSymbolic_eq hw hr,
    fun e => isDefect_eq_false_of_compile hw hr, fun p hp => ?_⟩
  obtain ⟨a, hfaithful, hprogram⟩ :=
    Plan.program_assembly (encloses_ofRecords writer reader) hp
  obtain ⟨main, methods, hlaid, hlength⟩ :=
    Assembly.exists_laidOut hprogram hfaithful.nodup
  refine ⟨?_, hlaid.offsets_nodup, hlaid.holds, main, methods, hlaid⟩
  rw [hlaid.length_methods, hlength]
  exact hfaithful.length_methods_le

end

/-! ### A record that refers to itself -/

namespace Chained

/-- The document: a value, and another record of the kind or null. -/
def source : String :=
  "\x7b\"type\":\"record\",\"name\":\"Node\",\"fields\":["
    ++ "\x7b\"name\":\"value\",\"type\":\"int\"\x7d,"
    ++ "\x7b\"name\":\"next\",\"type\":[\"null\",\"Node\"]\x7d]\x7d"

/-- The schema. -/
def schema : Schema where
  root := .named ⟨"Node", ""⟩
  definitions :=
    [.record ⟨⟨"Node", ""⟩, [],
      [⟨"value", .primitive .int, [], none, none⟩,
        ⟨"next", .union [.primitive .null, .named ⟨"Node", ""⟩], [], none,
          none⟩], none⟩]
  source := source

theorem parse_source : Schema.parse source = .ok schema := by cbv

theorem methods_compile : (compile schema schema).map (·.methods)
    = .ok [("record:Node->Node", 2)] := by cbv

end Chained

open Chained in
/-- **A record that refers to itself has one method**: three methods inside one
another are more than are needed, and the program is laid out. -/
theorem compile_bounded_chained : Schema.parse source = .ok schema
    ∧ ∃ p, compile schema schema = .ok p
      ∧ p.methods = [("record:Node->Node", 2)]
      ∧ compileSymbolic 3 schema schema = .ok p
      ∧ ∃ main methods, p.LaidOut main methods := by
  obtain ⟨p, hp, hmethods⟩ := exists_of_map_ok methods_compile
  obtain ⟨hbudget, -, hprogram⟩ := compile_bounded parse_source parse_source
  have hpairs : schema.recordCount * (schema.recordCount + 1) < 3 := by decide
  exact ⟨parse_source, p, hp, hmethods, (hbudget 3 hpairs).trans hp,
    (hprogram p hp).2.2.2⟩

end Avro
