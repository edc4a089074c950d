import Avro.Proofs.Plan.Symbols

/-!
# Where symbolic instructions stand

Symbolic code is measured by adding up sizes, and lowered one instruction after
another. The two agree because a symbolic instruction is lowered to as many
instructions as its size says (`Symbolic.length_lower`): what stands at an
offset of symbolic code (`StandsIn`) stands at this address of the program
(`Symbolic.holds_of_lowerAll`).

What is looked up when an instruction is lowered is where the other ends of its
loop or switch stand, in the same code (`Offsets.Resolves`). That is an
induction over the code, in which each loop and each switch has the offsets of
its own ends (`Numbered.resolves`).
-/

namespace Avro

open Code (headerSize footerSize caseHeadSize target casesCount casesSize)

/-! ## Rows -/

/-- **Where something stands in a row** that begins at an offset, everything in
the row being as long as its size says. -/
inductive StandsIn {α : Type} (size : α → Nat) (x : α) (a : Nat) :
    Nat → List α → Prop
  /-- It is the first in the row. -/
  | here {rest : List α} : StandsIn size x a a (x :: rest)
  /-- It stands behind the first. -/
  | later {base : Nat} {y : α} {rest : List α}
    (h : StandsIn size x a (base + size y) rest) :
    StandsIn size x a base (y :: rest)

namespace StandsIn

variable {α : Type} {size : α → Nat} {x : α} {a base : Nat} {row row' : List α}

theorem append_left (h : StandsIn size x a base row) :
    StandsIn size x a base (row ++ row') := by
  induction h with
  | here => exact .here
  | later _ ih => exact .later ih

theorem append_right (h : StandsIn size x a (base + (row.map size).sum) row') :
    StandsIn size x a base (row ++ row') := by
  induction row generalizing base with
  | nil => exact h
  | cons y rest ih =>
    rw [List.map_cons, List.sum_cons, ← Nat.add_assoc] at h
    exact .later (ih h)

theorem of_append (h : StandsIn size x a base (row ++ row')) :
    StandsIn size x a base row
      ∨ StandsIn size x a (base + (row.map size).sum) row' := by
  induction row generalizing base with
  | nil => exact .inr h
  | cons y rest ih =>
    cases h with
    | here => exact .inl .here
    | later h =>
      rw [List.map_cons, List.sum_cons, ← Nat.add_assoc]
      exact (ih h).imp .later id

/-- **An offset is the base and all sizes in front** of what stands there. -/
theorem iff_exists : StandsIn size x a base row ↔ ∃ before behind,
    row = before ++ x :: behind ∧ a = base + (before.map size).sum := by
  constructor
  · intro h
    induction h with
    | here => exact ⟨[], _, rfl, rfl⟩
    | @later base y rest _ ih =>
      obtain ⟨before, behind, rfl, rfl⟩ := ih
      exact ⟨y :: before, behind, rfl, by
        rw [List.map_cons, List.sum_cons, Nat.add_assoc]⟩
  · rintro ⟨before, behind, rfl, rfl⟩
    exact append_right .here

theorem singleton {y : α} (h : StandsIn size x a base [y]) :
    x = y ∧ a = base := by
  cases h with
  | here => exact ⟨rfl, rfl⟩
  | later h => cases h

end StandsIn

namespace Symbolic

variable {o : Offsets} {s : Symbolic} {code : List Symbolic}
  {text : List Instruction} {base a : Nat}

/-! ## What stands at a position -/

/-- The tests of a switch are two for each tag. -/
theorem length_tests {label : String} {number : Nat}
    {cases : List (Nat × Nat)} :
    ∀ {tags : List Nat} {text : List Instruction},
      tests label number cases tags = .ok text →
      text.length = 2 * tags.length
  | [], _, h => by
    obtain rfl := Except.ok.inj h
    rfl
  | tag :: rest, text, h => by
    rw [tests] at h
    cases hlook : cases.lookup tag with
    | none => rw [hlook] at h; cases h
    | some offset =>
      rw [hlook] at h
      cases hrest : tests label number cases rest with
      | error e => simp only [hrest] at h; cases h
      | ok others =>
        simp only [hrest] at h
        obtain rfl := Except.ok.inj h
        rw [List.length_cons, List.length_cons, length_tests hrest,
          List.length_cons]
        omega

/-- **The test for a tag** goes behind the leading jump of the case that is
found for it. -/
theorem exists_of_tests {label : String} {number : Nat}
    {cases : List (Nat × Nat)} : ∀ {tags : List Nat} {text : List Instruction},
      tests label number cases tags = .ok text → ∀ {n tag : Nat},
      tags[n]? = some tag → ∃ c, cases.lookup tag = some c
        ∧ text[2 * n]? = some ⟨.evalEqual, target tag, label⟩
        ∧ text[2 * n + 1]? = some ⟨.condJump, target (c + 1), label⟩
  | [], _, _, _, _, hn => absurd hn (by simp)
  | tag :: rest, text, h, n, tag', hn => by
    rw [tests] at h
    cases hlook : cases.lookup tag with
    | none => rw [hlook] at h; cases h
    | some offset =>
      rw [hlook] at h
      cases hrest : tests label number cases rest with
      | error e => simp only [hrest] at h; cases h
      | ok others =>
        simp only [hrest] at h
        obtain rfl := Except.ok.inj h
        cases n with
        | zero =>
          obtain rfl : tag = tag' := Option.some.inj hn
          exact ⟨offset, hlook, rfl, rfl⟩
        | succ n => exact exists_of_tests hrest hn

/-- **A symbolic instruction is lowered to as many instructions as its size
says.** -/
theorem length_lower (h : s.lower o = .ok text) : text.length = s.size := by
  cases s with
  | literal i => obtain rfl := Except.ok.inj h; rfl
  | call name =>
    rw [lower] at h
    cases hfind : Entries.find? name o.methods <;> rw [hfind] at h
    · cases h
    · obtain rfl := Except.ok.inj h; rfl
  | blockStart number label | blockEnd number label =>
    rw [lower] at h
    cases hb : o.blocks[number]? <;> rw [hb] at h
    · cases h
    · obtain rfl := Except.ok.inj h; rfl
  | switchStart number tags message label =>
    rw [lower] at h
    cases hw : o.switches[number]? with
    | none => rw [hw] at h; cases h
    | some w =>
      rw [hw] at h
      cases htests : tests label number w.cases tags with
      | error e => simp only [htests] at h; cases h
      | ok first =>
        simp only [htests] at h
        obtain rfl := Except.ok.inj h
        rw [List.length_append, length_tests htests]
        rfl
  | switchCase number tag delivered label =>
    rw [lower] at h
    cases hw : o.switches[number]? <;> rw [hw] at h
    · cases h
    · obtain rfl := Except.ok.inj h
      exact Code.length_caseHead _ _ _ _
  | switchEnd number => obtain rfl := Except.ok.inj h; rfl

/-- Symbolic code is lowered one instruction after another. -/
theorem exists_of_lowerAll_cons {rest : List Symbolic}
    (h : lowerAll o (s :: rest) = .ok text) :
    ∃ first others, s.lower o = .ok first ∧ lowerAll o rest = .ok others
      ∧ text = first ++ others := by
  rw [lowerAll] at h
  cases hs : s.lower o with
  | error e => simp only [hs] at h; cases h
  | ok first =>
    cases hrest : lowerAll o rest with
    | error e => simp only [hs, hrest] at h; cases h
    | ok others =>
      simp only [hs, hrest] at h
      exact ⟨first, others, rfl, rfl, (Except.ok.inj h).symm⟩

theorem length_lowerAll : ∀ {code : List Symbolic} {text : List Instruction},
    lowerAll o code = .ok text → text.length = extent code
  | [], _, h => by obtain rfl := Except.ok.inj h; rfl
  | s :: rest, _, h => by
    obtain ⟨first, others, hs, hrest, rfl⟩ := exists_of_lowerAll_cons h
    rw [List.length_append, length_lower hs, length_lowerAll hrest, extent_cons]

/-- **What stands in symbolic code stands in the program** at the same place,
if the code begins where its instructions do. -/
theorem holds_of_lowerAll {p : Program} (h : StandsIn size s a base code)
    (hcode : lowerAll o code = .ok text) (hp : p.Holds base text) :
    ∃ part, s.lower o = .ok part ∧ p.Holds a part := by
  induction h generalizing text with
  | here =>
    obtain ⟨first, others, hs, -, rfl⟩ := exists_of_lowerAll_cons hcode
    exact ⟨first, hs, hp.left⟩
  | later _ ih =>
    obtain ⟨first, others, hs, hrest, rfl⟩ := exists_of_lowerAll_cons hcode
    have hbehind := hp.right
    rw [length_lower hs] at hbehind
    exact ih hrest hbehind

/-- Symbolic code is lowered part by part, so its parts are lowered. -/
theorem exists_of_lowerAll_append {first second : List Symbolic}
    (h : lowerAll o (first ++ second) = .ok text) :
    ∃ text₁ text₂, lowerAll o first = .ok text₁ ∧ lowerAll o second = .ok text₂
      ∧ text = text₁ ++ text₂ := by
  induction first generalizing text with
  | nil => exact ⟨[], text, rfl, h, rfl⟩
  | cons s rest ih =>
    obtain ⟨part, others, hs, hrest, rfl⟩ := exists_of_lowerAll_cons h
    obtain ⟨text₁, text₂, h₁, h₂, rfl⟩ := ih hrest
    exact ⟨part ++ text₁, text₂, lowerAll_cons hs h₁, h₂,
      (List.append_assoc _ _ _).symm⟩

/-- **A part of symbolic code is lowered by itself**, to what stands in the
program where the part begins. -/
theorem holds_of_lowerAll_flatten {p : Program} {parts : List (List Symbolic)}
    {part : List Symbolic} (h : StandsIn extent part a base parts)
    (hcode : lowerAll o parts.flatten = .ok text) (hp : p.Holds base text) :
    ∃ text', lowerAll o part = .ok text' ∧ p.Holds a text' := by
  induction h generalizing text with
  | here =>
    rw [List.flatten_cons] at hcode
    obtain ⟨first, others, hfirst, -, rfl⟩ := exists_of_lowerAll_append hcode
    exact ⟨first, hfirst, hp.left⟩
  | later _ ih =>
    rw [List.flatten_cons] at hcode
    obtain ⟨first, others, hfirst, hrest, rfl⟩ :=
      exists_of_lowerAll_append hcode
    have hbehind := hp.right
    rw [length_lowerAll hfirst] at hbehind
    exact ih hrest hbehind

end Symbolic

/-! ## Offsets that are known -/

open Symbolic

/-- **Offsets resolve a symbolic instruction** at an offset of symbolic code
that begins at a base: they are those of the ends of its loop or of the cases
and the end of its switch, all of which stand in the same code. -/
def Offsets.Resolves (o : Offsets) (base : Nat) (code : List Symbolic)
    (a : Nat) : Symbolic → Prop
  | .literal _ | .call _ => True
  | .blockStart number label => ∃ b,
    StandsIn size (.blockEnd number label) b base code
      ∧ o.blocks[number]? = some ⟨a, b⟩
  | .blockEnd number label => ∃ b,
    StandsIn size (.blockStart number label) b base code
      ∧ o.blocks[number]? = some ⟨b, a⟩
  | .switchStart number tags _ label => ∃ w, o.switches[number]? = some w
      ∧ w.cases.map (·.1) = tags ∧ tags.Nodup
      ∧ StandsIn size (.switchEnd number) w.finish base code
      ∧ ∀ x ∈ w.cases, ∃ delivered,
        StandsIn size (.switchCase number x.1 delivered label) x.2 base code
  | .switchCase number tag _ label => ∃ w tags message b,
    o.switches[number]? = some w ∧ w.cases.lookup tag = some a
      ∧ StandsIn size (.switchEnd number) w.finish base code
      ∧ StandsIn size (.switchStart number tags message label) b base code
      ∧ tag ∈ tags
  | .switchEnd number => ∃ w, o.switches[number]? = some w ∧ w.finish = a

/-- **Offsets note a symbolic instruction** at an offset. -/
def Offsets.Notes (o : Offsets) (a : Nat) : Symbolic → Prop
  | .blockStart number _ => ∃ b, o.blocks[number]? = some b ∧ b.start = a
  | .blockEnd number _ => ∃ b, o.blocks[number]? = some b ∧ b.finish = a
  | .switchCase number tag _ _ =>
    ∃ w, o.switches[number]? = some w ∧ w.cases.lookup tag = some a
  | .switchEnd number => ∃ w, o.switches[number]? = some w ∧ w.finish = a
  | .literal _ | .call _ | .switchStart .. => True

/-- Offsets note what they resolve. -/
theorem Offsets.Resolves.notes {o : Offsets} {base a : Nat}
    {code : List Symbolic} {s : Symbolic} (h : o.Resolves base code a s) :
    o.Notes a s := by
  cases s with
  | literal i | call name | switchStart number tags message label => trivial
  | blockStart number label | blockEnd number label =>
    obtain ⟨b, -, heq⟩ := h
    exact ⟨_, heq, rfl⟩
  | switchCase number tag delivered label =>
    obtain ⟨w, _, _, _, hw, hlook, -⟩ := h
    exact ⟨w, hw, hlook⟩
  | switchEnd number => exact h

/-- What offsets resolve in a part of symbolic code, they resolve in all of
it. -/
theorem Offsets.Resolves.mono {o : Offsets} {base base' a : Nat}
    {code code' : List Symbolic} {s : Symbolic} (h : o.Resolves base code a s)
    (hmono : ∀ s a, StandsIn size s a base code →
      StandsIn size s a base' code') :
    o.Resolves base' code' a s := by
  cases s with
  | literal i | call name => trivial
  | blockStart number label | blockEnd number label =>
    obtain ⟨b, hb, heq⟩ := h
    exact ⟨b, hmono _ _ hb, heq⟩
  | switchStart number tags message label =>
    obtain ⟨w, hw, htags, hnodup, hend, hcases⟩ := h
    refine ⟨w, hw, htags, hnodup, hmono _ _ hend, fun x hx => ?_⟩
    obtain ⟨delivered, hcase⟩ := hcases x hx
    exact ⟨delivered, hmono _ _ hcase⟩
  | switchCase number tag delivered label =>
    obtain ⟨w, tags, message, b, hw, hlook, hend, hstart, hmem⟩ := h
    exact ⟨w, tags, message, b, hw, hlook, hmono _ _ hend, hmono _ _ hstart,
      hmem⟩
  | switchEnd number => exact h

/-- **The cases of a switch stand where they are noted.** -/
theorem NumberedCases.stands : ∀ {label : String} {number : Nat}
    {cases : LinkedCases} {code : List Symbolic},
    NumberedCases label number cases code → ∀ offset,
      ∀ x ∈ Code.caseOffsets offset cases, ∃ delivered,
        StandsIn size (.switchCase number x.1 delivered label) x.2 offset code
  | _, _, _, _, .none, _, _, hx => absurd hx List.not_mem_nil
  | label, number, .case tag delivered _ _, _, .case h h', offset, x, hx => by
    rcases List.mem_cons.mp hx with rfl | hx
    · exact ⟨delivered, .here⟩
    · rw [← h.extent_eq] at hx
      obtain ⟨delivered', hstands⟩ := h'.stands _ x hx
      exact ⟨delivered', .later hstands.append_right⟩

/-- Offsets resolve a symbolic instruction of the cases of a switch, or it is
the beginning of a case and has been noted. -/
def Offsets.ResolvesCase (o : Offsets) (base : Nat) (code : List Symbolic)
    (label : String) (number : Nat) (cases : List (Nat × Nat)) (a : Nat)
    (s : Symbolic) : Prop :=
  o.Resolves base code a s
    ∨ ∃ tag delivered, s = .switchCase number tag delivered label
      ∧ (tag, a) ∈ cases

mutual

/-- **Settled offsets resolve all of numbered code.** -/
theorem Numbered.resolves : ∀ {c : LinkedCode} {code : List Symbolic},
    Numbered c code → ∀ {before after : Offsets} {offset : Nat},
      Settled before after offset code →
      ∀ {s a}, StandsIn size s a offset code → after.Resolves offset code a s
  | _, _, .nothing, _, _, _, _, _, _, hstands => nomatch hstands
  | _, _, .seq h h', _, _, _, hs, _, _, hstands => by
    rcases hstands.of_append with hstands | hstands
    · exact (h.resolves (hs.left fun x hx => h'.leaves (hs.disjoint x hx))
        hstands).mono fun _ _ => .append_left
    · exact (h'.resolves (hs.right fun x hx =>
        h.leaves fun hmem => hs.disjoint x hmem hx) hstands).mono
        fun _ _ => .append_right
  | _, _, .op i, _, _, _, _, _, _, hstands => by
    obtain ⟨rfl, -⟩ := hstands.singleton
    trivial
  | _, _, .within h, _, _, _, hs, _, _, hstands => by
    cases hstands with
    | here => trivial
    | later hstands =>
      rcases hstands.of_append with hstands | hstands
      · exact (h.resolves ((hs.tail nofun).left fun x _ => by simp [symbol?])
          hstands).mono fun _ _ h => .later (.append_left h)
      · obtain ⟨rfl, -⟩ := hstands.singleton
        trivial
  | .blocks label body, _, @Numbered.blocks _ _ inner number h, _, _, offset,
      hs, _, _, hstands => by
    have hb := h.blocks_eq hs
    have hend : StandsIn size (.blockEnd number label)
        (offset + headerSize + body.size) offset
        (.blockStart number label :: (inner ++ [.blockEnd number label])) := by
      refine .later (.append_right ?_)
      show StandsIn size _ _ (offset + headerSize + extent inner) _
      rw [h.extent_eq]
      exact .here
    obtain ⟨-, hbody⟩ := hs.inside (x := .block number) rfl
      (by simp [symbol?]) (by simp [symbol?]) rfl
    cases hstands with
    | here => exact ⟨_, hend, hb⟩
    | later hstands =>
      rcases hstands.of_append with hstands | hstands
      · exact (h.resolves hbody hstands).mono
          fun _ _ h => .later (.append_left h)
      · obtain ⟨rfl, rfl⟩ := hstands.singleton
        refine ⟨offset, .here, ?_⟩
        rw [hb, ← h.extent_eq]
        rfl
  | .switch label message cases, _, @Numbered.switch _ _ _ inner number htags h,
      _, after, offset, hs, _, _, hstands => by
    have hw := h.switches_eq hs
    obtain ⟨hnew, hcases⟩ := hs.inside (x := .switch number) rfl
      (by simp [symbol?]) (by simp [symbol?]) rfl
    have hfirst := @size_switchStart offset number message label cases
    have hfst := Code.map_fst_caseOffsets cases
      (offset + 2 * casesCount cases + 1)
    have hend : StandsIn size (.switchEnd number)
        (offset + 2 * casesCount cases + 1 + casesSize cases) offset
        (.switchStart number (Code.tags cases) message label ::
          (inner ++ [.switchEnd number])) := by
      refine .later (.append_right ?_)
      rw [hfirst, ← h.extent_eq]
      exact .here
    cases hstands with
    | here =>
      refine ⟨_, hw, hfst, htags, hend, fun x hx => ?_⟩
      obtain ⟨delivered, hcase⟩ := h.stands _ x hx
      exact ⟨delivered, .later (.append_left (hfirst ▸ hcase))⟩
    | later hstands =>
      rcases hstands.of_append with hstands | hstands
      · rcases h.resolves hnew hcases hstands with hres | ⟨tag, _, rfl, hmem⟩
        · exact hres.mono fun _ _ h => .later (.append_left h)
        · rw [hfirst] at hmem
          refine ⟨_, _, message, offset, hw, ?_, hend, .here, ?_⟩
          · exact lookup_of_mem (hfst ▸ htags) hmem
          · rw [← hfst]
            exact List.mem_map_of_mem hmem
      · obtain ⟨rfl, rfl⟩ := hstands.singleton
        refine ⟨_, hw, ?_⟩
        rw [hfirst, ← h.extent_eq]
        rfl
  | _, _, .call name, _, _, _, _, _, _, hstands => by
    obtain ⟨rfl, -⟩ := hstands.singleton
    trivial

/-- Settled offsets resolve the cases of a switch, apart from their
beginnings, which are noted. -/
theorem NumberedCases.resolves : ∀ {label : String} {number : Nat}
    {cases : LinkedCases} {code : List Symbolic},
    NumberedCases label number cases code →
      Symbol.switch number ∉ opened code →
      ∀ {before after : Offsets} {offset : Nat},
      Settled before after offset code → ∀ {s a},
      StandsIn size s a offset code →
        after.ResolvesCase offset code label number
          (Code.caseOffsets offset cases) a s
  | _, _, _, _, .none, _, _, _, _, _, _, _, hstands => nomatch hstands
  | label, number, .case tag delivered body rest, _,
      @NumberedCases.case _ _ _ _ _ _ inner others h h', hnew, _, after,
      offset, hs, _, _, hstands => by
    have hne : ∀ x ∈ opened (inner ++ others), x ≠ .switch number :=
      fun x hx heq => hnew (heq ▸ hx)
    have htail := hs.tail fun x hx heq =>
      hne x hx (Option.some.inj heq).symm
    have hright := htail.right fun x hx =>
      h.leaves fun hmem => htail.disjoint x hmem hx
    cases hstands with
    | here => exact .inr ⟨tag, delivered, rfl, List.mem_cons_self⟩
    | later hstands =>
      rcases hstands.of_append with hstands | hstands
      · have hleft := htail.left fun x hx => h'.leaves
          (hne x (by simp [hx])) (htail.disjoint x hx)
        exact .inl ((h.resolves hleft hstands).mono
          fun _ _ h => .later (.append_left h))
      · have hrest := h'.resolves (fun hmem => hne _ (by simp [hmem]) rfl)
          hright hstands
        rcases hrest with hres | ⟨tag', delivered', rfl, hmem⟩
        · exact .inl (hres.mono fun _ _ h => .later (.append_right h))
        · refine .inr ⟨tag', delivered', rfl, List.mem_cons_of_mem _ ?_⟩
          rwa [h.extent_eq] at hmem

end

end Avro
