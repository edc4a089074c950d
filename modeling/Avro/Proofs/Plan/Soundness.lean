import Avro.Proofs.Plan.Parts
import Avro.Proofs.Plan.Symbols
import Avro.Proofs.Schema.Parsing

/-!
# Plans reject for the sake of the schemas

Some errors do not say what is wrong with a pair of schemas but that something
went wrong in compiling it (`CompileError.isDefect`). The plans of schemas whose
names are all defined reject with none of them: a type is resolved before
anything is done with it, and every name in it has a definition
(`Demand.sound_body`, `sound_mainPlan`).

The switches of these plans have their tags in the order of the branches or
symbols of the writer, so no tag has two cases.
-/

namespace Avro

/-! ## Sound plans -/

namespace Code

variable {χ μ ε : Type}

/-- **Tags grow** from a number on. -/
def TagsFrom : (least : Nat) → Cases χ μ ε → Prop
  | _, .none => True
  | least, .case tag _ _ rest => least ≤ tag ∧ TagsFrom (tag + 1) rest

namespace TagsFrom

theorem mono {least more : Nat} (hle : least ≤ more) :
    ∀ {cases : Cases χ μ ε}, TagsFrom more cases → TagsFrom least cases
  | .none, _ => trivial
  | .case _ _ _ _, h => ⟨Nat.le_trans hle h.1, h.2⟩

theorem le_of_mem {tag : Nat} : ∀ {least : Nat} {cases : Cases χ μ ε},
    TagsFrom least cases → tag ∈ tags cases → least ≤ tag
  | _, .none, _, hmem => absurd hmem List.not_mem_nil
  | _, .case _ _ _ _, h, hmem => by
    rcases List.mem_cons.mp hmem with rfl | hmem
    · exact h.1
    · exact Nat.le_trans h.1 (Nat.le_of_succ_le (h.2.le_of_mem hmem))

/-- **Tags that grow** are different. -/
theorem nodup : ∀ {least : Nat} {cases : Cases χ μ ε},
    TagsFrom least cases → (tags cases).Nodup
  | _, .none, _ => List.nodup_nil
  | _, .case tag _ _ _, h =>
    List.nodup_cons.mpr ⟨fun hmem =>
      absurd (h.2.le_of_mem hmem) (Nat.not_succ_le_self tag), h.2.nodup⟩

end TagsFrom

end Code

namespace Plan

open Code (TagsFrom)

mutual

/-- **A plan is sound**: it rejects for the sake of the schemas only, and the
tags of its switches grow. -/
def Sound : Plan → Prop
  | .nothing | .op _ | .call _ => True
  | .seq first second => Sound first ∧ Sound second
  | .within _ _ inner | .blocks _ inner => Sound inner
  | .switch _ _ cases => TagsFrom 0 cases ∧ AllSound cases
  | .reject reason => reason.isDefect = false

/-- Cases are sound if the plans in them are. -/
def AllSound : PlanCases → Prop
  | .none => True
  | .case _ _ inner rest => Sound inner ∧ AllSound rest

end

mutual

/-- **A sound plan rejects for the sake of the schemas.** -/
theorem Sound.isDefect_eq {e : CompileError} : ∀ {plan : Plan},
    plan.Sound → plan.Rejects e → e.isDefect = false
  | .nothing, _, he | .op _, _, he | .call _, _, he => he.elim
  | .seq _ _, h, he => he.elim h.1.isDefect_eq h.2.isDefect_eq
  | .within _ _ inner, h, he | .blocks _ inner, h, he =>
    (show Sound inner from h).isDefect_eq he
  | .switch _ _ _, h, he => h.2.isDefect_eq he
  | .reject _, h, he => he ▸ h

theorem AllSound.isDefect_eq {e : CompileError} : ∀ {cases : PlanCases},
    AllSound cases → RejectsIn e cases → e.isDefect = false
  | .none, _, he => he.elim
  | .case _ _ _ _, h, he => he.elim h.1.isDefect_eq h.2.isDefect_eq

end

/-! ## The plans of two schemas -/

variable {writer reader : Schema}

/-- **The plans of well-formed schemas are sound**, for types whose names are
defined. -/
theorem deliverClosed_sound (hw : writer.WellFormed) (hr : reader.WellFormed) :
    DeliverClosed writer reader
      (TypeExpr.NamesIn (writer.definitions.map (·.name)))
      (TypeExpr.NamesIn (reader.definitions.map (·.name))) (fun _ => True)
      Sound (fun tag cases => TagsFrom tag cases ∧ AllSound cases) where
  items h := h
  values h := h
  branches h := TypeExpr.AllNamesIn.mem_branches h
  nothing := trivial
  seq h h' := ⟨h, h'⟩
  read _ _ := trivial
  blocks _ h := h
  switch _ _ h := h
  noCase _ := ⟨trivial, trivial⟩
  case h h' := ⟨⟨Nat.le_refl _, h'.1⟩, h, h'.2⟩
  discards _ := trivial
  undefined h hnone := absurd hnone (h.shape?_ne_none)
  readItems h := h
  readValues h := h
  readBranches h := TypeExpr.AllNamesIn.mem_branches h
  branch _ _ := trivial
  writtenField hwd := hw.field _ (List.mem_of_find?_eq_some hwd)
  readField hrd := hr.field _ (List.mem_of_find?_eq_some hrd)
  field _ _ := trivial
  set _ _ := trivial
  clear _ := trivial
  number _ _ := trivial
  default _ _ := trivial
  opened _ _ h := h
  item _ h := h
  entry _ h := h
  numbered h h' := ⟨⟨Nat.le_refl _, h'.1⟩, h, h'.2⟩
  skip h := ⟨h.1.mono (Nat.le_succ _), h.2⟩
  delivers _ _ := trivial
  rejects h := h
  undefinedRead h hnone := absurd hnone (h.shape?_ne_none)

end Plan

section

variable {writer reader : Schema}

/-- **The plan of a method is sound.** -/
theorem Demand.sound_body (hw : writer.WellFormed) (hr : reader.WellFormed)
    {d : Demand} (hd : d.OfRecords writer reader) :
    (d.body writer reader).Sound :=
  (Plan.deliverClosed_sound hw hr).body d fun hnot => absurd hd hnot

/-- **The plan of the roots is sound.** -/
theorem sound_mainPlan (hw : writer.WellFormed) (hr : reader.WellFormed) :
    (mainPlan writer reader).Sound :=
  (Plan.deliverClosed_sound hw hr).deliver _ _ _ hw.root hr.root

end

end Avro
