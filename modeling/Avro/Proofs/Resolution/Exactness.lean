import Avro.Proofs.Plan.Compatibility
import Avro.Proofs.Resolution.OwnBranch

/-!
# The same type, and types that can be read

A union of a reader picks the first branch that is the same type as the
writer's, and only if there is none the first as which the data can be read.
The two are different questions: whether types are the same does not look at
the sizes of fixed types, whether data can be read does. So a branch that is
picked can be read unless it is the same type but for a size, and no branch is
picked only where none can be read (`Schema.branchFor?_readable_iff`).

A fixed of another size that comes first hides a later branch of the right
size, and the pair of schemas is not compiled (`Sizes.hidden`).
-/

namespace Avro

variable {writer reader : Schema}

namespace Plan

/-- A plan for a union is accepted only if that for the branch it picks is. -/
theorem accepted_of_picked {R : Demand → Prop} {w r : TypeExpr}
    (hw : w.isUnion = false) {readers : List TypeExpr} {index : Nat}
    (hindex : writer.branchFor? w reader readers = some index)
    (hr : readers[index]? = some r) {label : String}
    (h : Accepted R (deliver writer w reader (.union readers) label)) :
    Accepted R (deliver writer w reader r label) := by
  cases w with
  | union branches => exact absurd hw (by simp [TypeExpr.isUnion])
  | primitive p =>
    rw [deliver] at h ⊢
    simp only [choosing, hindex, choosingBranch_getElem? hr] at h
    exact accepted_entering.mp h.2.2.2
  | array items =>
    rw [deliver] at h ⊢
    simp only [choosing, hindex, choosingBranch_getElem? hr] at h
    exact accepted_entering.mp h.2.2.2
  | map values =>
    rw [deliver] at h ⊢
    simp only [choosing, hindex, choosingBranch_getElem? hr] at h
    exact accepted_entering.mp h.2.2.2
  | named name =>
    rw [deliver] at h ⊢
    cases hshape : writer.shape? (.named name) with
    | none =>
      rw [hshape] at h
      exact h.elim
    | some shape =>
      simp only [hshape, choosing, hindex, choosingBranch_getElem? hr] at h
      exact accepted_entering.mp h.2.2.2

end Plan

namespace Schema

/-- The branch that is picked is the same type, or its data can be read. -/
theorem exact_or_readable_of_picked {w : TypeExpr} {branches : List TypeExpr}
    {index : Nat} (h : writer.branchFor? w reader branches = some index) :
    ∃ r, branches[index]? = some r
      ∧ (writer.exact w reader r = true ∨ writer.readable w reader r = true) := by
  rcases Option.or_eq_some_iff.mp h with hexact | ⟨-, hreadable⟩
  · obtain ⟨hlt, hsame, -⟩ := List.findIdx?_eq_some_iff_getElem.mp hexact
    exact ⟨_, List.getElem?_eq_getElem hlt, .inl hsame⟩
  · obtain ⟨hlt, hread, -⟩ := List.findIdx?_eq_some_iff_getElem.mp hreadable
    exact ⟨_, List.getElem?_eq_getElem hlt, .inr hread⟩

/-- Nothing is picked if and only if no branch is the same type and none can be
read. -/
theorem branchFor?_eq_none_iff {w : TypeExpr} {branches : List TypeExpr} :
    writer.branchFor? w reader branches = none ↔
      ∀ r ∈ branches, writer.exact w reader r = false
        ∧ writer.readable w reader r = false := by
  rw [branchFor?, Option.or_eq_none_iff, List.findIdx?_eq_none_iff,
    List.findIdx?_eq_none_iff]
  exact ⟨fun h r hr => ⟨h.1 r hr, h.2 r hr⟩,
    fun h => ⟨fun r hr => (h r hr).1, fun r hr => (h r hr).2⟩⟩

/-- Nothing is the same type as a union. -/
theorem isUnion_of_exact {w r : TypeExpr}
    (h : writer.exact w reader r = true) : w.isUnion = false := by
  cases w with
  | union branches => exact absurd h (by simp [exact])
  | _ => rfl

/-- **Which branches are picked, and whether they can be read.** Data can be
read as the same type unless a size differs. The branch that is picked can be
read unless it is the same type and a size differs, and then no plan for the
union is accepted, whatever the branches after it. No branch is picked only
where none can be read. -/
theorem branchFor?_readable_iff (writer reader : Schema) (w : TypeExpr)
    (branches : List TypeExpr) :
    (∀ r, writer.exact w reader r = true →
      (writer.readable w reader r = true ↔ ¬ writer.SizesDiffer reader w r))
    ∧ (∀ index, writer.branchFor? w reader branches = some index →
      ∃ r, branches[index]? = some r
        ∧ (writer.readable w reader r = true ↔
          ¬ (writer.exact w reader r = true ∧ writer.SizesDiffer reader w r))
        ∧ (writer.readable w reader r = false → ∀ R label,
          ¬ Plan.Accepted R
            (Plan.deliver writer w reader (.union branches) label)))
    ∧ (writer.branchFor? w reader branches = none ↔
      ∀ r ∈ branches, writer.exact w reader r = false
        ∧ writer.readable w reader r = false) := by
  refine ⟨fun r => readable_iff_of_exact w r, fun index hindex => ?_,
    branchFor?_eq_none_iff⟩
  obtain ⟨r, hr, hchoice⟩ := exact_or_readable_of_picked hindex
  refine ⟨r, hr, ?_, fun hnot R label haccepted => ?_⟩
  · constructor
    · rintro hread ⟨hexact, hsizes⟩
      exact (readable_iff_of_exact w r hexact).mp hread hsizes
    · intro hnot
      refine hchoice.elim (fun hexact => ?_) id
      exact (readable_iff_of_exact w r hexact).mpr fun hsizes =>
        hnot ⟨hexact, hsizes⟩
  · -- A branch that cannot be read was picked as the same type, so the
    -- writer's type is no union.
    have hexact := hchoice.resolve_right (Bool.eq_false_iff.mp hnot)
    have hread := Plan.readable_of_accepted w r label
      (Plan.accepted_of_picked (isUnion_of_exact hexact) hindex hr haccepted)
    exact absurd hread (Bool.eq_false_iff.mp hnot)

end Schema

/-! ## Fixed types of one name and two sizes -/

namespace Sizes

/-- The document of the data. -/
def written : String :=
  "\x7b\"type\":\"fixed\",\"name\":\"a.N\",\"size\":1\x7d"

/-- The document of the reader. -/
def text : String :=
  "[\x7b\"type\":\"fixed\",\"name\":\"b.N\",\"size\":2\x7d," ++
    "\x7b\"type\":\"fixed\",\"name\":\"c.N\",\"size\":1\x7d]"

/-- The type of the data. -/
def type : TypeExpr := .named ⟨"N", "a"⟩

/-- The branches. -/
def branches : List TypeExpr := [.named ⟨"N", "b"⟩, .named ⟨"N", "c"⟩]

/-- The writer's schema. -/
def single : Schema where
  root := type
  definitions := [.fixed ⟨⟨"N", "a"⟩, [], 1⟩]
  source := written

/-- The reader's schema. -/
def choice : Schema where
  root := .union branches
  definitions := [.fixed ⟨⟨"N", "b"⟩, [], 2⟩, .fixed ⟨⟨"N", "c"⟩, [], 1⟩]
  source := text

theorem parse_written : Schema.parse written = .ok single := by
  have hchars : written.toList = _ := String.toList_ofList
  rw [Schema.parse, Json.parse, hchars]
  cbv

theorem parse_text : Schema.parse text = .ok choice := by
  have hchars : text.toList = _ :=
    toList_append_eq String.toList_ofList String.toList_ofList
  rw [Schema.parse, Json.parse, hchars]
  cbv

end Sizes

/-- Of two fixed types of one name the first is picked, and its size differs. -/
theorem Schema.branchFor?_readable_iff_sizes :
    Sizes.single.branchFor? Sizes.type Sizes.choice Sizes.branches = some 0
    ∧ Sizes.single.exact Sizes.type Sizes.choice (.named ⟨"N", "b"⟩) = true
    ∧ Sizes.single.SizesDiffer Sizes.choice Sizes.type (.named ⟨"N", "b"⟩)
    ∧ ¬ Plan.Accepted (fun _ => True) (Plan.deliver Sizes.single Sizes.type
      Sizes.choice (.union Sizes.branches) "root") := by
  have hpick : Sizes.single.branchFor? Sizes.type Sizes.choice Sizes.branches
      = some 0 := by decide
  have hexact : Sizes.single.exact Sizes.type Sizes.choice
      (.named ⟨"N", "b"⟩) = true := by decide
  obtain ⟨hsame, hpicked, -⟩ := Schema.branchFor?_readable_iff Sizes.single
    Sizes.choice Sizes.type Sizes.branches
  have hnot : Sizes.single.readable Sizes.type Sizes.choice
      (.named ⟨"N", "b"⟩) = false := by decide
  obtain ⟨r, hr, -, hrejected⟩ := hpicked 0 hpick
  obtain rfl := Option.some.inj hr
  refine ⟨hpick, hexact, ?_, hrejected hnot _ _⟩
  exact not_not.mp fun h => Bool.eq_false_iff.mp hnot ((hsame _ hexact).mpr h)

/-- **A branch of another size hides a later one of the right size**: it is
picked although its data cannot be read, and the schemas are not compiled,
although the data can be read as the second branch. -/
theorem Sizes.hidden :
    (∃ source, Schema.parse source = .ok Sizes.single)
    ∧ (∃ source, Schema.parse source = .ok Sizes.choice)
    ∧ Sizes.single.root = Sizes.type
    ∧ Sizes.choice.root = .union Sizes.branches
    ∧ Sizes.single.branchFor? Sizes.type Sizes.choice Sizes.branches = some 0
    ∧ Sizes.branches[0]? = some (.named ⟨"N", "b"⟩)
    ∧ Sizes.single.exact Sizes.type Sizes.choice (.named ⟨"N", "b"⟩) = true
    ∧ Sizes.single.readable Sizes.type Sizes.choice (.named ⟨"N", "b"⟩) = false
    ∧ Sizes.branches[1]? = some (.named ⟨"N", "c"⟩)
    ∧ Sizes.single.readable Sizes.type Sizes.choice (.named ⟨"N", "c"⟩) = true
    ∧ compile Sizes.single Sizes.choice
      = .error (.fixedSizeMismatch "b.N" 1 2) :=
  ⟨⟨_, Sizes.parse_written⟩, ⟨_, Sizes.parse_text⟩, rfl, rfl, by decide, rfl,
    by decide, by decide, rfl, by decide, by cbv⟩

end Avro
