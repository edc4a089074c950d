import Avro.Proofs.Plan.Symbols

/-!
# Jumps stay between their brackets

The instructions that open a part of the sink or a round of a loop, and those
that end it, are brackets. Read from front to back, instructions have brackets
open (`bracketsBehind`), and a program is at a level that is the number of those
that are open (`Program.Open`). Levels follow from where instructions stand, not
from a run, but a run follows jumps, and these keep the brackets that are open:
linked code ends with the brackets with which it begins
(`Linked.bracketsBehind_eq`), and every jump in it goes to an instruction of the
same code, or right behind it, in front of which the same brackets are open
(`Linked.jumpsStay`).
-/

namespace Avro

open Code (headerSize footerSize caseHeadSize target header footer caseHead
  casesCount casesSize)

/-! ## Brackets -/

/-- **A bracket that is open**, with the address of its opening. -/
inductive Bracket
  /-- A part of the sink. -/
  | part (opening : Nat)
  /-- A round of a loop. -/
  | round (opening : Nat)
  deriving DecidableEq, Repr

/-- The brackets open behind an instruction at an address, the innermost first;
`none` if it ends one that is not open. -/
def Instruction.brackets (i : Instruction) (address : Nat)
    (outer : List Bracket) : Option (List Bracket) :=
  match i.op, outer with
  | .enter, _ | .appendArray, _ | .appendMap, _ => some (.part address :: outer)
  | .pushLoop, _ => some (.round address :: outer)
  | .exit, .part _ :: rest => some rest
  | .popLoop, .round _ :: rest => some rest
  | .exit, _ | .popLoop, _ => none
  | _, _ => some outer

/-- **The brackets open behind instructions** of which the first stands at an
address. -/
def bracketsBehind : (address : Nat) → (outer : List Bracket) →
    List Instruction → Option (List Bracket)
  | _, outer, [] => some outer
  | address, outer, i :: rest =>
    (i.brackets address outer).bind fun inner =>
      bracketsBehind (address + 1) inner rest

theorem bracketsBehind_append (code code' : List Instruction) :
    ∀ (address : Nat) (outer : List Bracket),
      bracketsBehind address outer (code ++ code')
        = (bracketsBehind address outer code).bind fun inner =>
          bracketsBehind (address + code.length) inner code' := by
  induction code with
  | nil => intro address outer; rfl
  | cons i rest ih =>
    intro address outer
    rw [List.cons_append, bracketsBehind, bracketsBehind, Option.bind_assoc,
      List.length_cons]
    refine congrArg _ (funext fun inner => ?_)
    rw [ih, Nat.add_right_comm, Nat.add_assoc]

section

variable {address : Nat} {outer : List Bracket} {i : Instruction}

theorem Instruction.Plain.brackets_eq (h : i.Plain) :
    i.brackets address outer = some outer := by
  unfold Instruction.brackets
  rcases h with h | h | h | h | h <;> rw [h]

theorem Instruction.Opens.brackets_eq (h : i.Opens) :
    i.brackets address outer = some (.part address :: outer) := by
  unfold Instruction.brackets
  rcases h with h | h | h <;> rw [h]

end

/-! ## Linked code is balanced -/

section

variable {R : Demand → Prop} {messages : List String} {methods : String → Nat}

/-- The tests of a switch open nothing. -/
theorem Code.bracketsBehind_tests (label : String) :
    ∀ (cases : LinkedCases) (first address : Nat) (outer : List Bracket),
      bracketsBehind address outer (tests label first cases) = some outer
  | .none, _, _, _ => by rw [tests]; rfl
  | .case tag delivered body rest, first, address, outer => by
    rw [tests]
    exact bracketsBehind_tests label rest _ _ outer

/-- The beginning of a case opens nothing. -/
theorem Code.bracketsBehind_caseHead (label : String) (done tag address : Nat)
    (outer : List Bracket) (delivered : Option Nat) :
    bracketsBehind address outer (caseHead label done tag delivered)
      = some outer := by
  cases delivered <;> rfl

mutual

/-- **Linked code ends with the brackets with which it begins**, wherever it
stands and for whichever address it was lowered. -/
theorem Linked.bracketsBehind_eq : ∀ {plan : Plan} {code : LinkedCode},
    Linked R messages plan code → ∀ (first address : Nat)
      (outer : List Bracket),
      bracketsBehind address outer (code.lower methods first) = some outer
  | _, _, .nothing, _, _, _ => by rw [Code.lower]; rfl
  | _, _, .seq h h', _, _, _ => by
    rw [Code.lower, bracketsBehind_append, h.bracketsBehind_eq,
      Option.bind_some, h'.bracketsBehind_eq]
  | _, _, .op h, _, _, _ => by
    rw [Code.lower, bracketsBehind, h.brackets_eq]
    rfl
  | _, _, .within ho h, _, _, _ => by
    rw [Code.lower, bracketsBehind, ho.brackets_eq, Option.bind_some,
      bracketsBehind_append, h.bracketsBehind_eq]
    rfl
  | _, _, .blocks h, first, address, outer => by
    rw [Code.lower, List.append_assoc, bracketsBehind_append]
    show (bracketsBehind (address + headerSize)
      (.round (address + 7) :: outer) _) = _
    rw [bracketsBehind_append, h.bracketsBehind_eq]
    rfl
  | _, _, .switch _ h, _, _, _ => by
    rw [Code.lower, bracketsBehind_append, Code.bracketsBehind_tests,
      Option.bind_some]
    exact h.bracketsBehind_eq _ _ _ _ _
  | _, _, .call _, _, _, _ => by rw [Code.lower]; rfl

/-- Linked cases end with the brackets with which they begin. -/
theorem LinkedAll.bracketsBehind_eq : ∀ {cases : PlanCases}
    {cases' : LinkedCases}, LinkedAll R messages cases cases' →
      ∀ (label : String) (done first address : Nat) (outer : List Bracket),
      bracketsBehind address outer
        (Code.lowerCases methods label done first cases') = some outer
  | _, _, .none, _, _, _, _, _ => by rw [Code.lowerCases]; rfl
  | _, _, .case h h', _, _, _, _, _ => by
    rw [Code.lowerCases, bracketsBehind_append, bracketsBehind_append,
      Code.bracketsBehind_caseHead, Option.bind_some, h.bracketsBehind_eq,
      Option.bind_some, h'.bracketsBehind_eq]

end

end

/-! ## The level of a program -/

namespace Program

/-- **The brackets that are open in front of an address** of a part of a
program that begins at a base, the innermost first. -/
def Open (p : Program) (base address : Nat) (open' : List Bracket) : Prop :=
  base ≤ address ∧ bracketsBehind base []
    ((p.instructions.toList.drop base).take (address - base)) = some open'

variable {p : Program} {base a : Nat} {outer inner : List Bracket}
  {code : List Instruction}

namespace Open

/-- At the base nothing is open. -/
theorem start (p : Program) (base : Nat) : p.Open base base [] :=
  ⟨Nat.le_refl _, by rw [Nat.sub_self]; rfl⟩

/-- The brackets behind instructions that stand at an address. -/
theorem behind (h : p.Open base a outer) (hcode : p.Holds a code)
    (hinner : bracketsBehind a outer code = some inner) :
    p.Open base (a + code.length) inner := by
  obtain ⟨hle, hopen⟩ := h
  obtain ⟨before, after, hp, rfl⟩ := hcode
  refine ⟨Nat.le_add_right_of_le hle, ?_⟩
  have hdrop : p.instructions.toList.drop base
      = before.drop base ++ (code ++ after) := by
    rw [hp, List.append_assoc, List.drop_append_of_le_length hle]
  have hlength : (before.drop base).length = before.length - base :=
    List.length_drop
  rw [hdrop, List.take_append_of_le_length (Nat.le_of_eq hlength.symm),
    List.take_of_length_le (Nat.le_of_eq hlength)] at hopen
  rw [hdrop, Nat.sub_add_comm hle, ← hlength, List.take_length_add_append,
    List.take_left, bracketsBehind_append, hopen, Option.bind_some, hlength,
    Nat.add_sub_cancel' hle, hinner]

/-- The brackets inside instructions that stand at an address. -/
theorem inside (h : p.Open base a outer) (hcode : p.Holds a code) (n : Nat)
    (hn : n ≤ code.length)
    (hinner : bracketsBehind a outer (code.take n) = some inner) :
    p.Open base (a + n) inner := by
  rw [← List.take_append_drop n code] at hcode
  have hbehind := h.behind hcode.left hinner
  rwa [List.length_take, Nat.min_eq_left hn] at hbehind

end Open

/-- **The jumps of instructions stay**: each goes to an address between two
others, in front of which the brackets are open that are open at the jump. -/
def JumpsStay (p : Program) (base first last a : Nat)
    (code : List Instruction) : Prop :=
  ∀ n i, code[n]? = some i → i.op = .jump ∨ i.op = .condJump →
    ∃ t outer, i.operand = target t ∧ first ≤ t ∧ t ≤ last
      ∧ p.Open base (a + n) outer ∧ p.Open base t outer

namespace JumpsStay

variable {first last first' last' : Nat} {i : Instruction}
  {code' : List Instruction} {label : String}

theorem nil : p.JumpsStay base first last a [] := nofun

theorem append (h : p.JumpsStay base first last a code)
    (h' : p.JumpsStay base first last (a + code.length) code') :
    p.JumpsStay base first last a (code ++ code') := by
  intro n i hi hjump
  rcases Nat.lt_or_ge n code.length with hlt | hge
  · rw [List.getElem?_append_left hlt] at hi
    exact h n i hi hjump
  · rw [List.getElem?_append_right hge] at hi
    have hn : a + code.length + (n - code.length) = a + n := by omega
    exact hn ▸ h' _ i hi hjump

theorem mono (h : p.JumpsStay base first last a code) (hfirst : first' ≤ first)
    (hlast : last ≤ last') : p.JumpsStay base first' last' a code := by
  intro n i hi hjump
  obtain ⟨t, outer, ht, hle, hle', hopen, htarget⟩ := h n i hi hjump
  exact ⟨t, outer, ht, hfirst.trans hle, hle'.trans hlast, hopen, htarget⟩

/-- In front of other instructions stands one that is no jump. -/
theorem cons (hjump : i.op ≠ .jump) (hcondJump : i.op ≠ .condJump)
    (h : p.JumpsStay base first last (a + 1) code) :
    p.JumpsStay base first last a (i :: code) := by
  have hi : p.JumpsStay base first last a [i] := by
    intro n j hj hor
    obtain rfl : j = i := by
      cases n with
      | zero => exact (Option.some.inj hj).symm
      | succ n => exact absurd hj (by simp)
    exact absurd hor (not_or.mpr ⟨hjump, hcondJump⟩)
  exact hi.append h

/-- In front of other instructions stands one that may be a jump, and goes to
the same brackets. -/
theorem jump {op : Opcode} {t : Nat} (hfirst : first ≤ t) (hlast : t ≤ last)
    (hopen : p.Open base a outer) (htarget : p.Open base t outer)
    (h : p.JumpsStay base first last (a + 1) code) :
    p.JumpsStay base first last a (⟨op, target t, label⟩ :: code) := by
  have hi : p.JumpsStay base first last a [⟨op, target t, label⟩] := by
    intro n j hj _
    cases n with
    | zero =>
      obtain rfl := Option.some.inj hj
      exact ⟨t, outer, rfl, hfirst, hlast, hopen, htarget⟩
    | succ n => exact absurd hj (by simp)
  exact hi.append h

/-- **The header of a loop** goes to its end and to its own `pushLoop`. -/
theorem header {exit entry : Nat}
    (hcode : p.Holds a (Code.header exit entry label))
    (hopen : p.Open base a outer) (hexit : p.Open base exit outer)
    (hentry : p.Open base entry outer) (hfirst : first ≤ exit ∧ first ≤ entry)
    (hlast : exit ≤ last ∧ entry ≤ last) :
    p.JumpsStay base first last a (Code.header exit entry label) := by
  refine .cons nofun nofun (.cons nofun nofun (.jump hfirst.1 hlast.1
    (hopen.inside hcode 2 ?_ rfl) hexit (.cons nofun nofun
    (.jump hfirst.2 hlast.2 (hopen.inside hcode 4 ?_ rfl) hentry
    (.cons nofun nofun (.cons nofun nofun (.cons nofun nofun .nil)))))))
  all_goals simp [Code.header]

/-- **The end of a loop** goes to its header and to its `pushLoop`. -/
theorem footer {start entry opening : Nat}
    (hcode : p.Holds a (Code.footer start entry label))
    (hopen : p.Open base a (.round opening :: outer))
    (hstart : p.Open base start outer) (hentry : p.Open base entry outer)
    (hfirst : first ≤ start ∧ first ≤ entry)
    (hlast : start ≤ last ∧ entry ≤ last) :
    p.JumpsStay base first last a (Code.footer start entry label) := by
  refine .cons nofun nofun (.cons nofun nofun (.cons nofun nofun
    (.jump hfirst.1 hlast.1 (hopen.inside hcode 3 ?_ rfl) hstart
    (.jump hfirst.2 hlast.2 (hopen.inside hcode 4 ?_ rfl) hentry .nil))))
  all_goals simp [Code.footer]

/-- **A loop stays** if its items do: it is left right behind its end, where the
brackets are open again that are open in front of it. -/
theorem block {text : List Instruction} {size : Nat}
    (hsize : text.length = size)
    (hcode : p.Holds a
      (Code.header (a + headerSize + size + footerSize) (a + headerSize - 1)
        label ++ text ++ Code.footer a (a + headerSize - 1) label))
    (hopen : p.Open base a outer)
    (hkeeps : bracketsBehind (a + headerSize) (.round (a + 7) :: outer) text
      = some (.round (a + 7) :: outer))
    (hitems : p.Holds (a + headerSize) text →
      p.Open base (a + headerSize) (.round (a + 7) :: outer) →
      p.JumpsStay base (a + headerSize) (a + headerSize + size)
        (a + headerSize) text) :
    p.JumpsStay base a (a + (headerSize + size + footerSize)) a
      (Code.header (a + headerSize + size + footerSize) (a + headerSize - 1)
        label ++ text ++ Code.footer a (a + headerSize - 1) label) := by
  have hheader := hcode.left.left
  have htext : p.Holds (a + headerSize) text := hcode.left.right
  have hfront : (Code.header (a + headerSize + size + footerSize)
      (a + headerSize - 1) label ++ text).length = headerSize + size := by
    rw [List.length_append, hsize]
    rfl
  have hfooter := hcode.right
  rw [hfront, ← Nat.add_assoc] at hfooter
  have hentry : p.Open base (a + headerSize - 1) outer :=
    hopen.inside hheader 7 (Nat.le_succ 7) rfl
  have hin : p.Open base (a + headerSize) (.round (a + 7) :: outer) :=
    hopen.behind hheader rfl
  have hout := hin.behind htext hkeeps
  rw [hsize] at hout
  have hexit : p.Open base (a + headerSize + size + footerSize) outer :=
    hout.behind hfooter rfl
  have hends : a ≤ a + headerSize - 1
      ∧ a + headerSize - 1 ≤ a + (headerSize + size + footerSize) := by
    unfold headerSize
    omega
  refine .append (.append (.header hheader hopen hexit hentry
    ⟨by omega, hends.1⟩ ⟨by omega, hends.2⟩)
    ((hitems htext hin).mono (Nat.le_add_right _ _) (by omega))) ?_
  rw [hfront]
  exact .footer (Nat.add_assoc _ _ _ ▸ hfooter) (Nat.add_assoc _ _ _ ▸ hout)
    hopen hentry ⟨Nat.le_refl _, hends.1⟩ ⟨Nat.le_add_right _ _, hends.2⟩

/-- **The tests of a switch** go behind the leading jumps of its cases. -/
theorem tests : ∀ {cases : LinkedCases} {b a : Nat},
    p.Holds a (Code.tests label b cases) → p.Open base a outer →
      (∀ x ∈ Code.caseOffsets b cases, first ≤ x.2 + 1 ∧ x.2 + 1 ≤ last
        ∧ p.Open base (x.2 + 1) outer) →
      p.JumpsStay base first last a (Code.tests label b cases)
  | .none, _, _, _, _, _ => by rw [Code.tests]; exact .nil
  | .case tag delivered body rest, b, a, hcode, hopen, htargets => by
    rw [Code.caseOffsets] at htargets
    obtain ⟨⟨hfirst, hlast, htarget⟩, hrest⟩ := List.forall_mem_cons.mp htargets
    rw [Code.tests] at hcode ⊢
    have hbehind := (show p.Holds a ([_, _] ++ _) from hcode).right
    exact .cons (by simp) (by simp) (.jump hfirst hlast
      (hopen.inside hcode 1 (by simp) rfl) htarget
      (tests hbehind (hopen.inside hcode 2 (by simp) rfl) hrest))

/-- **The beginning of a case** goes to the end of its switch. -/
theorem caseHead {done tag : Nat} {delivered : Option Nat}
    (hopen : p.Open base a outer) (hdone : p.Open base done outer)
    (hfirst : first ≤ done) (hlast : done ≤ last) :
    p.JumpsStay base first last a
      (Code.caseHead label done tag delivered) := by
  cases delivered with
  | none => exact .jump hfirst hlast hopen hdone .nil
  | some index =>
    exact .jump hfirst hlast hopen hdone
      (.cons nofun nofun (.cons nofun nofun .nil))

end JumpsStay

end Program

/-! ## The jumps of linked code -/

section

variable {p : Program} {R : Demand → Prop} {messages : List String}
  {methods : String → Nat} {base : Nat} {label : String} {done : Nat}

/-- **The cases of a switch stand between the same brackets**, behind their
leading jumps. -/
theorem LinkedAll.open_caseOffsets : ∀ {cases : PlanCases}
    {cases' : LinkedCases}, LinkedAll R messages cases cases' →
      ∀ {a : Nat} {outer : List Bracket},
      p.Holds a (Code.lowerCases methods label done a cases') →
      p.Open base a outer → ∀ x ∈ Code.caseOffsets a cases',
        a ≤ x.2 + 1 ∧ x.2 + 1 ≤ a + casesSize cases'
          ∧ p.Open base (x.2 + 1) outer
  | _, _, .none, _, _, _, _, x, hx => absurd hx List.not_mem_nil
  | _, _, @LinkedAll.case _ _ tag delivered _ inner _ rest h h', a, outer,
      hcode, hopen, x, hx => by
    have hpos := Code.caseHeadSize_pos delivered
    rw [Code.lowerCases] at hcode
    rw [Code.casesSize]
    rcases List.mem_cons.mp hx with rfl | hx
    · refine ⟨Nat.le_succ a, ?_, ?_⟩
      · show a + 1 ≤ _
        omega
      · refine hopen.inside hcode.left.left 1 ?_ ?_
        · rwa [Code.length_caseHead]
        · cases delivered <;> rfl
    · have hbehind : p.Open base (a + caseHeadSize delivered + inner.size)
          outer := by
        have hboth := hopen.behind hcode.left (by
          rw [bracketsBehind_append, Code.bracketsBehind_caseHead,
            Option.bind_some, h.bracketsBehind_eq])
        rwa [List.length_append, Code.length_caseHead, Code.length_lower,
          ← Nat.add_assoc] at hboth
      have hrest := hcode.right
      rw [List.length_append, Code.length_caseHead, Code.length_lower,
        ← Nat.add_assoc] at hrest
      obtain ⟨hle, hle', htarget⟩ := h'.open_caseOffsets hrest hbehind x hx
      exact ⟨by omega, by omega, htarget⟩

mutual

/-- **The jumps of linked code stay** in it or go right behind it, and keep the
brackets that are open. -/
theorem Linked.jumpsStay : ∀ {plan : Plan} {code : LinkedCode},
    Linked R messages plan code → ∀ {a : Nat} {outer : List Bracket},
      p.Holds a (code.lower methods a) → p.Open base a outer →
      p.JumpsStay base a (a + code.size) a (code.lower methods a)
  | _, _, .nothing, _, _, _, _ => by rw [Code.lower]; exact .nil
  | _, _, @Linked.seq _ _ _ _ first second h h', a, outer, hcode, hopen => by
    rw [Code.lower] at hcode ⊢
    rw [Code.size]
    have hbehind := hopen.behind hcode.left (h.bracketsBehind_eq _ _ _)
    have hsecond := hcode.right
    rw [Code.length_lower] at hbehind hsecond
    refine ((h.jumpsStay hcode.left hopen).mono (Nat.le_refl _)
      (by omega)).append ?_
    rw [Code.length_lower]
    exact (h'.jumpsStay hsecond hbehind).mono (Nat.le_add_right _ _)
      (by omega)
  | _, _, .op h, _, _, _, _ => by
    rw [Code.lower]
    refine .cons ?_ ?_ .nil
    all_goals rcases h with h | h | h | h | h <;> rw [h] <;> exact nofun
  | _, _, @Linked.within _ _ opening label _ inner ho h, a, outer, hcode,
      hopen => by
    rw [Code.lower] at hcode ⊢
    rw [Code.size]
    have hin := hopen.inside hcode 1 (by simp) (by
      rw [List.take_succ_cons, List.take_zero, bracketsBehind, ho.brackets_eq]
      rfl)
    have hinner : p.Holds (a + 1) (inner.lower methods (a + 1)) :=
      (show p.Holds a ([opening] ++ _) from hcode).right.left
    refine .cons ?_ ?_ (((h.jumpsStay hinner hin).mono (Nat.le_succ a)
      (by omega)).append (.cons nofun nofun .nil))
    all_goals rcases ho with ho | ho | ho <;> rw [ho] <;> exact nofun
  | _, _, .blocks h, a, outer, hcode, hopen => by
    rw [Code.lower] at hcode ⊢
    rw [Code.size]
    exact .block (Code.length_lower _ _ _) hcode hopen
      (h.bracketsBehind_eq _ _ _) fun hitems hin => h.jumpsStay hitems hin
  | _, _, @Linked.switch _ _ label message _ _ cases _ h, a, outer, hcode,
      hopen => by
    rw [Code.lower] at hcode ⊢
    rw [Code.size]
    have htests := hcode.left
    have hcases := (show p.Holds _ ([_] ++ _) from hcode.right).right
    rw [Code.length_tests, List.length_singleton] at hcases
    have hfirst : p.Open base (a + 2 * casesCount cases + 1) outer := by
      have hhalt := (show p.Holds _ ([_] ++ _) from hcode.right).left
      rw [Code.length_tests] at hhalt
      have hbehind := hopen.behind htests (Code.bracketsBehind_tests _ _ _ _ _)
      rw [Code.length_tests] at hbehind
      exact hbehind.behind hhalt rfl
    have hdone := hfirst.behind hcases (h.bracketsBehind_eq _ _ _ _ _)
    rw [Code.length_lowerCases] at hdone
    have hall : a + 2 * casesCount cases + 1 + casesSize cases
        = a + (2 * casesCount cases + 1 + casesSize cases) := by omega
    have htargets := h.open_caseOffsets hcases hfirst
    refine .append (.tests htests hopen fun x hx => ?_)
      (.cons nofun nofun ?_)
    · obtain ⟨hle, hle', htarget⟩ := htargets x hx
      exact ⟨by omega, by omega, htarget⟩
    · rw [Code.length_tests]
      exact (h.jumpsStay hcases hfirst hdone rfl).mono (by omega) hall.le
  | _, _, .call _, _, _, _, _ => by
    rw [Code.lower]
    exact .cons nofun nofun .nil

/-- The jumps of linked cases stay in them or go to the end of the switch. -/
theorem LinkedAll.jumpsStay : ∀ {cases : PlanCases} {cases' : LinkedCases},
    LinkedAll R messages cases cases' → ∀ {a done : Nat} {label : String}
      {outer : List Bracket},
      p.Holds a (Code.lowerCases methods label done a cases') →
      p.Open base a outer → p.Open base done outer →
      a + casesSize cases' = done →
      p.JumpsStay base a done a (Code.lowerCases methods label done a cases')
  | _, _, .none, _, _, _, _, _, _, _, _ => by rw [Code.lowerCases]; exact .nil
  | _, _, @LinkedAll.case _ _ tag delivered _ inner _ rest h h', a, done, label,
      outer, hcode, hopen, hdone, heq => by
    rw [Code.lowerCases] at hcode ⊢
    rw [Code.casesSize] at heq
    have hinner := hcode.left.right
    have hrest := hcode.right
    rw [Code.length_caseHead] at hinner
    rw [List.length_append, Code.length_caseHead, Code.length_lower,
      ← Nat.add_assoc] at hrest
    have hin := hopen.behind hcode.left.left
      (Code.bracketsBehind_caseHead _ _ _ _ _ _)
    rw [Code.length_caseHead] at hin
    have hout := hin.behind hinner (h.bracketsBehind_eq _ _ _)
    rw [Code.length_lower] at hout
    refine .append (.append (.caseHead hopen hdone (by omega)
      (Nat.le_refl _)) ?_) ?_
    · rw [Code.length_caseHead]
      exact (h.jumpsStay hinner hin).mono (by omega) (by omega)
    · rw [List.length_append, Code.length_caseHead, Code.length_lower,
        ← Nat.add_assoc]
      exact (h'.jumpsStay hrest hout hdone (by omega)).mono (by omega)
        (Nat.le_refl _)

end

end

end Avro
