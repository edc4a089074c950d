import Avro.Proofs.Machine.Steps
import Avro.Proofs.Plan.Demands
import Avro.Proofs.Plan.Performs
import Avro.Proofs.Value.Conformity

/-!
# Operands

An operand is a 64-bit integer whatever it stands for: a kind, the position of
a field or branch, an address, or the number of a message. Whether it can be
what it stands for is looked at when the instruction is executed, and one that
cannot is a defect of the program.

`Instruction.Legal` says that it can, and then no step fails with a defect
(`Instruction.Legal.step_ne_defect`). The operands in a plan are kinds and
positions, which take their numbers from the schemas. What has to be shown of
them is that these numbers are 64-bit integers: the size of a fixed, which
shares its operand with the other kinds, and positions in a record or a union
(`Plan.deliverClosed_legal`).
-/

namespace Avro

/-- The size of a fixed shares its operand with the other kinds. -/
def Kind.Fits : Kind → Prop
  | fixed size => size + 17 < 0x8000000000000000
  | _ => True

/-- A kind that fits is found again in its operand. -/
theorem Kind.Fits.ofOperand?_operand {kind : Kind} (h : kind.Fits) :
    Kind.ofOperand? kind.operand = some kind :=
  Kind.ofOperand?_operand (by rintro n rfl; exact h)

/-- The kind of a primitive type has no size. -/
theorem Kind.fits_ofPrimitive (p : Primitive) : (Kind.ofPrimitive p).Fits := by
  cases p <;> trivial

/-- **A kind can be delivered** if it is that of a primitive type. -/
def Kind.Deliverable (kind : Kind) : Prop :=
  ∃ p : Primitive, kind = .ofPrimitive p

/-- Every register that can be delivered has a content. -/
theorem Kind.Deliverable.delivery_ne {kind : Kind} (h : kind.Deliverable)
    (frame : Frame) : frame.delivery kind ≠ .impossible := by
  obtain ⟨p, rfl⟩ := h
  cases p <;> nofun

/-- **The operand of an instruction is legal** in a program of a size with a
number of messages: a kind that the operation can use, a position, an address
inside the program, or the number of a message. -/
def Instruction.Legal (size messages : Nat) (i : Instruction) : Prop :=
  match i.op with
  | .read => ∃ kind, Kind.ofOperand? i.operand = some kind
  | .set => ∃ kind, Kind.ofOperand? i.operand = some kind ∧ kind.Deliverable
  | .setDefault | .enter => ∃ index, address? i.operand = some index
  | .call | .jump | .condJump =>
    ∃ target, address? i.operand = some target ∧ target < size
  | .halt => i.operand = 0
    ∨ ∃ number, address? i.operand = some number ∧ 0 < number
      ∧ number ≤ messages
  | _ => True

namespace Instruction.Legal

variable {size size' messages messages' : Nat} {i : Instruction}

/-- What is legal in a program is legal in a larger one. -/
theorem mono (h : i.Legal size messages) (hsize : size ≤ size')
    (hmessages : messages ≤ messages') : i.Legal size' messages' := by
  obtain ⟨op, operand, label⟩ := i
  have hinside : (∃ target, address? operand = some target ∧ target < size) →
      ∃ target, address? operand = some target ∧ target < size' :=
    fun ⟨target, ht, hlt⟩ => ⟨target, ht, Nat.lt_of_lt_of_le hlt hsize⟩
  cases op with
  | call | jump | condJump => exact hinside h
  | halt =>
    rcases h with h | ⟨number, hn, hpos, hle⟩
    · exact .inl h
    · exact .inr ⟨number, hn, hpos, Nat.le_trans hle hmessages⟩
  | _ => exact h

/-- A legal operand can be used. -/
theorem usable (h : i.Legal size messages) (frame : Frame) :
    ¬ i.Unusable frame := by
  obtain ⟨op, operand, label⟩ := i
  intro hunusable
  have hnot : ∀ {n : Nat}, address? operand = some n → ¬ operand.toInt < 0 :=
    fun hn hneg => by
      rw [address?_eq_none.mpr hneg] at hn
      cases hn
  cases op with
  | read =>
    obtain ⟨kind, hkind⟩ := h
    have hnone := Kind.ofOperand?_eq_none.mpr hunusable
    exact absurd (hkind.symm.trans hnone) nofun
  | set =>
    obtain ⟨kind, hkind, hdeliverable⟩ := h
    rcases hunusable with hneg | hlarge
    · have hnone := Kind.ofOperand?_eq_none.mpr hneg
      exact absurd (hkind.symm.trans hnone) nofun
    · exact hdeliverable.delivery_ne frame
        ((Frame.delivery_eq_impossible hkind frame).mpr hlarge)
  | setDefault | enter =>
    obtain ⟨index, hindex⟩ := h
    exact hnot hindex hunusable
  | call | jump =>
    obtain ⟨target, htarget, -⟩ := h
    exact hnot htarget hunusable
  | condJump =>
    obtain ⟨target, htarget, -⟩ := h
    exact hnot htarget hunusable.2
  | exit | appendArray | appendMap | «return» | evalEqual | evalGreater
  | addLong | multLong | pushLoop | popLoop | halt => exact hunusable

/-- A legal operand is that of a message, if it is that of one. -/
theorem worded {errors : List String} (h : i.Legal size errors.length) :
    ¬ i.Wordless errors := by
  obtain ⟨op, operand, label⟩ := i
  rintro ⟨rfl, hzero, hnone⟩
  rcases h with rfl | ⟨number, hnumber, hpos, hle⟩
  · exact hzero rfl
  · have hint := address?_eq_some.mp hnumber
    have hmissing := hnone (number - 1) (by omega)
    rw [List.getElem?_eq_none_iff] at hmissing
    omega

/-- **A step with a legal operand does not fail with a defect.** -/
theorem step_ne_defect {σ : Type} (errors : List String)
    (h : i.Legal size errors.length) (k : Sink σ) (pc : Nat) (frame : Frame)
    (input left : Input) (state state' : σ) (d : Defect) :
    step errors k i pc frame input state ≠ .fail (.defect d) left state' := by
  intro hfails
  cases step_fails hfails with
  | operand unusable => exact h.usable frame unusable
  | message wordless => exact h.worded wordless

/-- Reading a kind that fits. -/
theorem read {kind : Kind} (h : kind.Fits) (label : String) :
    (Instruction.read kind label).Legal size messages :=
  ⟨kind, h.ofOperand?_operand⟩

/-- Delivering the register of a primitive type. -/
theorem set (p : Primitive) (label : String) :
    (Instruction.set (.ofPrimitive p) label).Legal size messages :=
  ⟨.ofPrimitive p, (Kind.fits_ofPrimitive p).ofOperand?_operand, p, rfl⟩

/-- A jump to an address inside the program. -/
theorem jump {target : Nat} (h : target < size)
    (hsize : size ≤ 0x8000000000000000) (label : String) :
    (⟨.jump, Code.target target, label⟩ : Instruction).Legal size messages :=
  ⟨target, address?_target (Nat.lt_of_lt_of_le h hsize), h⟩

/-- A conditional jump to an address inside the program. -/
theorem condJump {target : Nat} (h : target < size)
    (hsize : size ≤ 0x8000000000000000) (label : String) :
    (⟨.condJump, Code.target target, label⟩ : Instruction).Legal size
      messages :=
  ⟨target, address?_target (Nat.lt_of_lt_of_le h hsize), h⟩

end Instruction.Legal

namespace Plan

/-! ## Plans -/

mutual

/-- **The operands of a plan are legal** in every program. -/
def Legal : Plan → Prop
  | .nothing | .call _ | .reject _ => True
  | .seq first second => Legal first ∧ Legal second
  | .op i => i.Legal 0 0
  | .within opening _ inner => opening.Legal 0 0 ∧ Legal inner
  | .blocks _ inner => Legal inner
  | .switch _ _ cases => LegalCases cases

/-- The operands of the plans in cases are legal. -/
def LegalCases : PlanCases → Prop
  | .none => True
  | .case _ _ inner rest => Legal inner ∧ LegalCases rest

end

mutual

/-- A plan with legal operands is made of legal instructions. -/
theorem Legal.uses : ∀ {plan : Plan}, plan.Legal →
    plan.Uses (·.Legal 0 0) (·.Legal 0 0) (fun _ => True)
  | .nothing, _ | .call _, _ | .reject _, _ => trivial
  | .seq _ _, h => ⟨h.1.uses, h.2.uses⟩
  | .op _, h => h
  | .within _ _ _, h => ⟨h.1, h.2.uses⟩
  | .blocks _ inner, h =>
    have hinner : Legal inner := h
    hinner.uses
  | .switch _ _ cases, h =>
    have hcases : LegalCases cases := h
    hcases.uses

theorem LegalCases.uses : ∀ {cases : PlanCases}, LegalCases cases →
    AllUse (·.Legal 0 0) (·.Legal 0 0) (fun _ => True) cases
  | .none, _ => trivial
  | .case _ _ _ _, h => ⟨h.1.uses, h.2.uses⟩

end

/-! ## The plans of two schemas -/

variable {writer reader : Schema}

/-- The kinds that are read for a schema that fits fit. -/
theorem fits_of_readsKind (hwriter : writer.Fits) {kind : Kind}
    (h : writer.ReadsKind kind) : kind.Fits := by
  cases kind with
  | fixed size =>
    obtain ⟨t, f, hf, rfl⟩ := h
    exact hwriter.definition? (Schema.shape?_named (d := .fixed f) hf).2
  | _ => trivial

/-- A position that is a 64-bit integer is found again. -/
theorem exists_address? {index : Nat} (h : index < 0x8000000000000000) :
    ∃ n, address? (Int64.ofNat index) = some n :=
  ⟨index, address?_target h⟩

/-- **The plans of schemas that fit have legal operands.** -/
theorem deliverClosed_legal (hwriter : writer.Fits) (hreader : reader.Fits) :
    DeliverClosed writer reader (fun _ => True) TypeExpr.Fits
      (· < 0x8000000000000000) Legal (fun _ => LegalCases) where
  items _ := trivial
  values _ := trivial
  branches _ _ _ := trivial
  nothing := trivial
  seq h h' := ⟨h, h'⟩
  read label h := .read (fits_of_readsKind hwriter h) label
  blocks _ h := h
  switch _ _ h := h
  noCase _ := trivial
  case h h' := ⟨h, h'⟩
  discards _ := trivial
  undefined _ _ := trivial
  readItems h := h
  readValues h := h
  readBranches h _ ht := by
    obtain ⟨index, hindex⟩ := List.getElem?_of_mem ht
    exact h.2.getElem? hindex
  branch h hlt := Nat.lt_trans hlt h.1
  writtenField _ _ _ := trivial
  readField hrd := (hreader.definition? hrd).2
  field hrd hlt := Nat.lt_trans hlt (hreader.definition? hrd).1
  set p label := .set p label
  clear _ := trivial
  number _ _ := trivial
  default _ hindex := exists_address? hindex
  opened _ hindex h := ⟨exists_address? hindex, h⟩
  item _ h := ⟨trivial, h⟩
  entry _ h := ⟨trivial, h⟩
  numbered h h' := ⟨h, h'⟩
  skip h := h
  delivers _ _ := trivial
  rejects _ := trivial
  undefinedRead _ _ := trivial

/-- **Plans that deliver have legal operands.** -/
theorem legal_deliver (hwriter : writer.Fits) (hreader : reader.Fits)
    (t : TypeExpr) {r : TypeExpr} (hr : r.Fits) (label : String) :
    Legal (deliver writer t reader r label) :=
  (deliverClosed_legal hwriter hreader).deliver t r label trivial hr

end Plan

/-- **The plan of a method has legal operands.** -/
theorem Demand.body_legal {writer reader : Schema} (hwriter : writer.Fits)
    (hreader : reader.Fits) (d : Demand) :
    Plan.Legal (d.body writer reader) :=
  (Plan.deliverClosed_legal hwriter hreader).body d fun _ _ => trivial

end Avro
