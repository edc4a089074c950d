import Avro.Compile.Layout

/-!
# Plans and their linked code

Linking a plan replaces the demand of a call by the name of a method and the
message of a switch by its number, and it ends at a place where the plan has
no code. `Linked` is that as a relation between trees: every node of the plan
stands at its place in the linked code. It is stated for a class of demands,
those for which the methods have been assembled, and for the list of messages
that numbers refer to; a larger class and a longer list keep it
(`Linked.mono`).

The second part is about where linked code stands. `Program.Holds` says that
instructions are at an address of a program, and it is split along the tree by
`Holds.left` and `Holds.right`, because code takes as many instructions as its
size says (`Code.length_lower`).
-/

namespace Avro

/-- The instructions of a plan that stay on their level. -/
def Instruction.Plain (i : Instruction) : Prop :=
  i.op = .read ∨ i.op = .set ∨ i.op = .setDefault ∨ i.op = .multLong
    ∨ i.op = .addLong

/-- The instructions of a plan that open a part of the sink. -/
def Instruction.Opens (i : Instruction) : Prop :=
  i.op = .enter ∨ i.op = .appendArray ∨ i.op = .appendMap

mutual

/-- **Linked code of a plan**: the same tree, with the names of methods in
the place of the demands of a class and numbers in the place of messages. -/
inductive Linked (R : Demand → Prop) (messages : List String) :
    Plan → LinkedCode → Prop
  | nothing : Linked R messages .nothing .nothing
  | seq {first second : Plan} {first' second' : LinkedCode} :
    Linked R messages first first' → Linked R messages second second' →
    Linked R messages (.seq first second) (.seq first' second')
  | op {i : Instruction} : i.Plain → Linked R messages (.op i) (.op i)
  | within {opening : Instruction} {label : String} {inner : Plan}
    {inner' : LinkedCode} : opening.Opens → Linked R messages inner inner' →
    Linked R messages (.within opening label inner)
      (.within opening label inner')
  | blocks {label : String} {inner : Plan} {inner' : LinkedCode} :
    Linked R messages inner inner' →
    Linked R messages (.blocks label inner) (.blocks label inner')
  | switch {label message : String} {place : Nat} {cases : PlanCases}
    {cases' : LinkedCases} : messages[place]? = some message →
    LinkedAll R messages cases cases' →
    Linked R messages (.switch label message cases)
      (.switch label (place + 1) cases')
  | call {demand : Demand} : R demand →
    Linked R messages (.call demand) (.call demand.methodName)

/-- Linked cases of a switch. -/
inductive LinkedAll (R : Demand → Prop) (messages : List String) :
    PlanCases → LinkedCases → Prop
  | none : LinkedAll R messages .none .none
  | case {tag : Nat} {delivered : Option Nat} {inner : Plan}
    {inner' : LinkedCode} {rest : PlanCases} {rest' : LinkedCases} :
    Linked R messages inner inner' → LinkedAll R messages rest rest' →
    LinkedAll R messages (.case tag delivered inner rest)
      (.case tag delivered inner' rest')

end

section Mono

variable {R S : Demand → Prop} {messages more : List String}

mutual

/-- **More demands and further messages keep linked code linked.** -/
theorem Linked.mono (hR : ∀ d, R d → S d) (hm : messages <+: more) :
    ∀ {plan : Plan} {code : LinkedCode}, Linked R messages plan code →
      Linked S more plan code
  | _, _, .nothing => .nothing
  | _, _, .seq h h' => .seq (h.mono hR hm) (h'.mono hR hm)
  | _, _, .op h => .op h
  | _, _, .within ho h => .within ho (h.mono hR hm)
  | _, _, .blocks h => .blocks (h.mono hR hm)
  | _, _, .switch hp h =>
    .switch (by
      obtain ⟨_, rfl⟩ := hm
      obtain ⟨hlt, _⟩ := List.getElem?_eq_some_iff.mp hp
      rw [List.getElem?_append_left hlt]
      exact hp) (h.mono hR hm)
  | _, _, .call h => .call (hR _ h)

theorem LinkedAll.mono (hR : ∀ d, R d → S d) (hm : messages <+: more) :
    ∀ {cases : PlanCases} {cases' : LinkedCases},
      LinkedAll R messages cases cases' → LinkedAll S more cases cases'
  | _, _, .none => .none
  | _, _, .case h h' => .case (h.mono hR hm) (h'.mono hR hm)

end

end Mono

/-! ## Plans that are accepted -/

namespace Plan

mutual

/-- **A plan is accepted** for a class of demands: it rejects nowhere and
calls only methods of the class. -/
def Accepted (R : Demand → Prop) : Plan → Prop
  | .nothing | .op _ => True
  | .seq first second => Accepted R first ∧ Accepted R second
  | .within _ _ inner | .blocks _ inner => Accepted R inner
  | .switch _ _ cases => AcceptedAll R cases
  | .call demand => R demand
  | .reject _ => False

/-- Cases are accepted if the plans in them are. -/
def AcceptedAll (R : Demand → Prop) : PlanCases → Prop
  | .none => True
  | .case _ _ inner rest => Accepted R inner ∧ AcceptedAll R rest

end

/-- What is entered is accepted by itself. -/
theorem accepted_entering {R : Demand → Prop} {r : TypeExpr} {index : Nat}
    {label : String} {plan : Plan} :
    Accepted R (entering r index label plan) ↔ plan.Accepted R := by
  unfold entering
  split
  · exact Iff.rfl
  · exact Iff.rfl

end Plan

section Accepted

variable {R : Demand → Prop} {messages : List String}

mutual

/-- A plan that has linked code is accepted. -/
theorem Linked.accepted : ∀ {plan : Plan} {code : LinkedCode},
    Linked R messages plan code → plan.Accepted R
  | _, _, .nothing | _, _, .op _ => trivial
  | _, _, .seq h h' => ⟨h.accepted, h'.accepted⟩
  | _, _, .within _ h | _, _, .blocks h => h.accepted
  | _, _, .switch _ h => h.accepted
  | _, _, .call h => h

/-- Cases that have linked code are accepted. -/
theorem LinkedAll.accepted : ∀ {cases : PlanCases} {cases' : LinkedCases},
    LinkedAll R messages cases cases' → Plan.AcceptedAll R cases
  | _, _, .none => trivial
  | _, _, .case h h' => ⟨h.accepted, h'.accepted⟩

end

end Accepted

/-! ## Where code stands -/

namespace Code

/-- A case begins with a jump. -/
theorem caseHeadSize_pos (delivered : Option Nat) :
    0 < caseHeadSize delivered := by
  cases delivered <;> exact Nat.succ_pos _

mutual

/-- **Code takes as many instructions as its size says.** -/
@[simp] theorem length_lower (methods : String → Nat) :
    ∀ (code : LinkedCode) (address : Nat),
      (lower methods address code).length = code.size
  | .nothing, address => by rw [lower, size]; rfl
  | .seq first second, address => by
    rw [lower, size, List.length_append, length_lower methods first,
      length_lower methods second]
  | .op i, address => by rw [lower, size]; rfl
  | .within opening label inner, address => by
    rw [lower, size, List.length_cons, List.length_append,
      length_lower methods inner]
    rfl
  | .blocks label inner, address => by
    rw [lower, size, List.length_append, List.length_append,
      length_lower methods inner]
    rfl
  | .switch label message cases, address => by
    rw [lower, size, List.length_append, List.length_cons, length_tests,
      length_lowerCases methods label _ cases]
    omega
  | .call name, address => by rw [lower, size]; rfl
  | .reject reason, _ => nomatch reason

/-- Cases take as many instructions as their size says. -/
@[simp] theorem length_lowerCases (methods : String → Nat) (label : String)
    (done : Nat) : ∀ (cases : LinkedCases) (address : Nat),
      (lowerCases methods label done address cases).length = casesSize cases
  | .none, address => by rw [lowerCases, casesSize]; rfl
  | .case tag delivered inner rest, address => by
    rw [lowerCases, casesSize, List.length_append, List.length_append,
      length_lower methods inner, length_lowerCases methods label done rest,
      length_caseHead]

/-- A switch tests twice as many instructions as it has cases. -/
@[simp] theorem length_tests (label : String) :
    ∀ (cases : LinkedCases) (address : Nat),
      (tests label address cases).length = 2 * casesCount cases
  | .none, address => by rw [tests, casesCount]; rfl
  | .case tag delivered inner rest, address => by
    rw [tests, casesCount, List.length_cons, List.length_cons,
      length_tests label rest]
    omega

/-- The beginning of a case takes as many instructions as its size says. -/
@[simp] theorem length_caseHead (label : String) (done tag : Nat) :
    ∀ delivered : Option Nat,
      (caseHead label done tag delivered).length = caseHeadSize delivered
  | none => rfl
  | some _ => rfl

end

end Code

namespace Program

/-- **Instructions stand at an address** of a program. -/
def Holds (p : Program) (address : Nat) (code : List Instruction) : Prop :=
  ∃ before after, p.instructions.toList = before ++ code ++ after
    ∧ before.length = address

namespace Holds

variable {p : Program} {address : Nat} {first second : List Instruction}

theorem left (h : p.Holds address (first ++ second)) :
    p.Holds address first := by
  obtain ⟨before, after, hp, hb⟩ := h
  exact ⟨before, second ++ after, by rw [hp]; simp, hb⟩

theorem right (h : p.Holds address (first ++ second)) :
    p.Holds (address + first.length) second := by
  obtain ⟨before, after, hp, hb⟩ := h
  exact ⟨before ++ first, after, by rw [hp]; simp,
    by rw [List.length_append, hb]⟩

/-- The instruction at a place of code that stands at an address. -/
theorem get (h : p.Holds address first) {n : Nat} {i : Instruction}
    (hi : first[n]? = some i) : p.instructions[address + n]? = some i := by
  obtain ⟨before, after, hp, hb⟩ := h
  obtain ⟨hlt, _⟩ := List.getElem?_eq_some_iff.mp hi
  rw [← Array.getElem?_toList, hp, List.append_assoc,
    List.getElem?_append_right (by omega),
    List.getElem?_append_left (by omega), ← hi]
  exact congrArg (first[·]?) (by omega)

/-- Code stands inside its program. -/
theorem length_le (h : p.Holds address first) :
    address + first.length ≤ p.instructions.size := by
  obtain ⟨before, after, hp, hb⟩ := h
  have hsize : p.instructions.size = p.instructions.toList.length :=
    Array.length_toList.symm
  rw [hsize, hp, List.length_append, List.length_append, hb]
  omega

end Holds

end Program

end Avro
