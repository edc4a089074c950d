import Mathlib
import Avro.Proofs.Decoding.Plans
import Avro.Proofs.Plan.SameSchema

/-!
# Compatibility of types and their plans

Whether data of a type can be read as another is asked twice: by
`Schema.readable`, which looks at the two types, and by the compiler, which
builds a plan for them. The two agree as far as types go. A plan that is
accepted reads a type as one it can be read as (`Plan.readable_of_accepted`),
so a pair of schemas that compiles has readable roots.

## What a predicate on types cannot see

The converse holds for schemas of enums alone (`Schema.OnlyEnums`). A record is
readable by its name, and whether its fields have a plan is only seen when its
method is assembled. A fixed of another size is not readable, but a union may
still pick it: a branch of the same name is *the same type* (`Schema.exact`),
and is preferred to one that is readable. Unless a size differs, the branch
that is the same type is readable as well (`Schema.readable_iff_of_exact`), and
so the branch that a union picks is readable if any is
(`Schema.exists_branchFor?`).
-/

namespace Avro

/-! ## Branches -/

namespace TypeExpr

/-- A test holds of some type of a list if it holds of one of them. -/
theorem someBranchOf_eq (test : TypeExpr → Bool) :
    ∀ branches : List TypeExpr,
      someBranchOf test branches = branches.any (someBranch test)
  | [] => rfl
  | t :: rest => by
    rw [someBranchOf, List.any_cons, someBranchOf_eq test rest]

/-- A test holds of some branch of a union if it does so for one that is
written in it. -/
theorem someBranch_union (test : TypeExpr → Bool) (branches : List TypeExpr) :
    someBranch test (.union branches) = branches.any (someBranch test) := by
  rw [someBranch, someBranchOf_eq]

/-- A type that is no union is its only branch. -/
theorem someBranch_leaf (test : TypeExpr → Bool) {t : TypeExpr}
    (h : t.isUnion = false) : someBranch test t = test t := by
  cases t with
  | union branches => exact absurd h (by simp [isUnion])
  | _ => rw [someBranch]; simp

mutual

/-- A test that holds of some branch holds of some type. -/
theorem exists_of_someBranch {test : TypeExpr → Bool} : ∀ t : TypeExpr,
    t.someBranch test = true → ∃ branch, test branch = true
  | .union branches, h => exists_of_someBranchOf branches h
  | .primitive _, h | .array _, h | .map _, h | .named _, h =>
    ⟨_, (someBranch_leaf test rfl).symm.trans h⟩

theorem exists_of_someBranchOf {test : TypeExpr → Bool} :
    ∀ branches : List TypeExpr,
      someBranchOf test branches = true → ∃ branch, test branch = true
  | [], h => absurd h Bool.false_ne_true
  | t :: rest, h => (Bool.or_eq_true_iff.mp h).elim (exists_of_someBranch t)
      (exists_of_someBranchOf rest)

end

end TypeExpr

namespace Schema

variable {writer reader : Schema}

/-- Data of some branch can be read if that of one can. -/
theorem readableSome_eq (r : TypeExpr) : ∀ branches : List TypeExpr,
    writer.readableSome branches reader r
      = branches.any fun branch => writer.readable branch reader r
  | [] => rfl
  | branch :: rest => by
    rw [readableSome, List.any_cons, readableSome_eq r rest]

mutual

/-- **What can be read as a union can be read as one of its branches.** -/
theorem readable_union {readers : List TypeExpr} : ∀ t : TypeExpr,
    writer.readable t reader (.union readers)
      = readers.any fun r => writer.readable t reader r
  | .union branches => by
    unfold readable
    exact readableSome_union branches
  | .primitive p => by
    unfold readable
    exact TypeExpr.someBranch_union _ readers
  | .array items => by
    unfold readable
    exact TypeExpr.someBranch_union _ readers
  | .map values => by
    unfold readable
    exact TypeExpr.someBranch_union _ readers
  | .named name => by
    unfold readable
    exact TypeExpr.someBranch_union _ readers

/-- What can be read as a union from some type can be read as one of its
branches from some type. -/
theorem readableSome_union {readers : List TypeExpr} :
    ∀ branches : List TypeExpr,
      writer.readableSome branches reader (.union readers)
        = readers.any fun r => writer.readableSome branches reader r
  | [] => by
    unfold readableSome
    exact (List.any_eq_false.mpr fun _ _ => Bool.false_ne_true).symm
  | branch :: rest => by
    unfold readableSome
    rw [readable_union branch, readableSome_union rest, Bool.eq_iff_iff]
    simp only [Bool.or_eq_true, List.any_eq_true, and_or_left, exists_or]

end

end Schema

/-! ## Accepted plans read readable types -/

namespace Plan

variable {R : Demand → Prop} {writer reader : Schema}

section Choosing

variable {w : TypeExpr} {label : String} {pick : List TypeExpr → Option Nat}
  {leaf : TypeExpr → Plan} {test : TypeExpr → Bool}

mutual

/-- **An accepted choice has a branch of which the test of its leaves
holds.** -/
theorem someBranch_of_choosing
    (hpick : ∀ branches index, pick branches = some index →
      index < branches.length)
    (hleaf : ∀ t, t.isUnion = false → Accepted R (leaf t) → test t = true) :
    ∀ r : TypeExpr, Accepted R (choosing w label pick leaf r) →
      r.someBranch test = true
  | .union branches, h => by
    rw [choosing] at h
    cases hindex : pick branches with
    | none => rw [hindex] at h; exact h.elim
    | some index =>
      rw [hindex] at h
      rw [TypeExpr.someBranch_union]
      exact any_of_choosingBranch hpick hleaf index branches index
        (hpick branches index hindex) h.2.2.2
  | .primitive p, h => by
    rw [choosing_leaf rfl] at h
    rw [TypeExpr.someBranch_leaf test rfl]
    exact hleaf _ rfl h
  | .array items, h => by
    rw [choosing_leaf rfl] at h
    rw [TypeExpr.someBranch_leaf test rfl]
    exact hleaf _ rfl h
  | .map values, h => by
    rw [choosing_leaf rfl] at h
    rw [TypeExpr.someBranch_leaf test rfl]
    exact hleaf _ rfl h
  | .named name, h => by
    rw [choosing_leaf rfl] at h
    rw [TypeExpr.someBranch_leaf test rfl]
    exact hleaf _ rfl h

/-- The test holds of the branch at the position that is gone on with. -/
theorem any_of_choosingBranch
    (hpick : ∀ branches index, pick branches = some index →
      index < branches.length)
    (hleaf : ∀ t, t.isUnion = false → Accepted R (leaf t) → test t = true)
    (index : Nat) : ∀ (branches : List TypeExpr) (position : Nat),
      position < branches.length →
      Accepted R (choosingBranch w label pick leaf index position branches) →
      branches.any (TypeExpr.someBranch test) = true
  | [], _, hlt, _ => absurd hlt (Nat.not_lt_zero _)
  | branch :: rest, 0, _, h => by
    rw [choosingBranch, accepted_entering] at h
    rw [List.any_cons, someBranch_of_choosing hpick hleaf branch h,
      Bool.true_or]
  | branch :: rest, position + 1, hlt, h => by
    rw [choosingBranch] at h
    rw [List.any_cons, any_of_choosingBranch hpick hleaf index rest position
      (Nat.lt_of_succ_lt_succ hlt) h, Bool.or_true]

end

end Choosing

/-- A promoted primitive is one that its data can be read as. -/
theorem promotesTo_of_accepted {w r : Primitive} {label : String}
    (h : Accepted R (deliverPrimitive w r label)) : w.promotesTo r = true := by
  unfold deliverPrimitive at h
  cases w <;> cases r <;> first | rfl | exact h.elim

/-- **A named type is accepted where its name is**, and for a fixed its size:
the reader's type is a name as which its data can be read. -/
theorem readableName_of_accepted {w : FullName} {r : TypeExpr} {label : String}
    (h : Accepted R (deliverNamed writer w reader r label)) :
    ∃ r', r = .named r' ∧ writer.readableName w reader r' = true := by
  cases namesMatch_of_accepted h with
  | @record wd rd hw hr hstands =>
    obtain ⟨hname, hwd⟩ := Schema.shape?_named (d := .record wd) hw
    obtain ⟨rfl, hrd⟩ := Schema.shape?_named (d := .record rd) hr
    obtain rfl := TypeExpr.named.inj hname
    exact ⟨_, rfl, by rw [Schema.readableName, hwd, hrd]; exact hstands⟩
  | @enum wd rd hw hr hstands =>
    obtain ⟨hname, hwd⟩ := Schema.shape?_named (d := .enum wd) hw
    obtain ⟨rfl, hrd⟩ := Schema.shape?_named (d := .enum rd) hr
    obtain rfl := TypeExpr.named.inj hname
    exact ⟨_, rfl, by rw [Schema.readableName, hwd, hrd]; exact hstands⟩
  | @fixed wd rd hw hr hstands =>
    -- The plan compares the sizes last; the predicate does so first.
    have hsize : wd.size = rd.size := by
      simp only [deliverNamed, hw, hr, if_pos hstands, deliverFixed] at h
      by_contra hsize
      rw [if_neg hsize] at h
      exact h.elim
    obtain ⟨hname, hwd⟩ := Schema.shape?_named (d := .fixed wd) hw
    obtain ⟨rfl, hrd⟩ := Schema.shape?_named (d := .fixed rd) hr
    obtain rfl := TypeExpr.named.inj hname
    refine ⟨_, rfl, ?_⟩
    rw [Schema.readableName, hwd, hrd]
    show (decide (wd.size = rd.size) && _) = true
    rw [decide_eq_true hsize, hstands, Bool.and_true]

mutual

/-- **A type is delivered only as one that its data can be read as.** -/
theorem readable_of_accepted : ∀ (t r : TypeExpr) (label : String),
    Accepted R (deliver writer t reader r label) →
    writer.readable t reader r = true
  | .union branches, r, label, h => by
    rw [deliver] at h
    cases hshape : reader.shape? r with
    | none => rw [hshape] at h; exact h.elim
    | some shape =>
      rw [hshape] at h
      by_cases hnone :
          noCases (branchCases writer label 0 branches reader r) = true
      · simp only [hnone, if_true] at h
        exact h.elim
      · simp only [hnone] at h
        rw [Schema.readable]
        exact readableSome_of_accepted branches r label 0
          (Bool.eq_false_of_not_eq_true hnone) h.2
  | .primitive p, r, label, h => by
    rw [deliver] at h
    rw [Schema.readable]
    refine someBranch_of_choosing (fun _ _ => branchFor?_lt)
      (fun t ht h => ?_) r h
    cases t with
    | primitive q => exact promotesTo_of_accepted h
    | _ => exact (not_accepted_mismatched h).elim
  | .array items, r, label, h => by
    rw [deliver] at h
    rw [Schema.readable]
    refine someBranch_of_choosing (fun _ _ => branchFor?_lt)
      (fun t ht h => ?_) r h
    cases t with
    | array items' => exact readable_of_accepted items items' _ h
    | _ => exact (not_accepted_mismatched h).elim
  | .map values, r, label, h => by
    rw [deliver] at h
    rw [Schema.readable]
    refine someBranch_of_choosing (fun _ _ => branchFor?_lt)
      (fun t ht h => ?_) r h
    cases t with
    | map values' => exact readable_of_accepted values values' _ h.2
    | _ => exact (not_accepted_mismatched h).elim
  | .named name, r, label, h => by
    rw [deliver] at h
    cases hshape : writer.shape? (.named name) with
    | none => rw [hshape] at h; exact h.elim
    | some shape =>
      rw [hshape] at h
      rw [Schema.readable]
      refine someBranch_of_choosing (fun _ _ => branchFor?_lt)
        (fun t ht h => ?_) r h
      obtain ⟨r', rfl, hreadable⟩ := readableName_of_accepted h
      exact hreadable

/-- Cases that are accepted, if there are any, read a branch as a type that its
data can be read as. -/
theorem readableSome_of_accepted :
    ∀ (branches : List TypeExpr) (r : TypeExpr) (label : String) (tag : Nat),
      noCases (branchCases writer label tag branches reader r) = false →
      AcceptedAll R (branchCases writer label tag branches reader r) →
      writer.readableSome branches reader r = true
  | [], r, label, tag, hsome, _ => by
    rw [branchCases] at hsome
    exact absurd hsome (by simp [noCases])
  | branch :: rest, r, label, tag, hsome, h => by
    rw [Schema.readableSome, Bool.or_eq_true]
    cases hr : r.isUnion with
    | false =>
      rw [branchCases_cons hr] at hsome h
      by_cases hbranch : writer.readable branch reader r = true
      · exact .inl hbranch
      · rw [if_neg hbranch] at hsome h
        exact .inr (readableSome_of_accepted rest r label _ hsome h)
    | true =>
      obtain ⟨readers, rfl⟩ := TypeExpr.isUnion_iff.mp hr
      rw [branchCases] at hsome h
      cases hpick : writer.branchFor? branch reader readers with
      | none =>
        simp only [hpick] at hsome h
        exact .inr (readableSome_of_accepted rest _ label _ hsome h)
      | some index =>
        have hlt := branchFor?_lt hpick
        simp only [hpick, List.getElem?_eq_getElem hlt] at h
        have hbody := accepted_entering.mp h.1
        rw [Schema.readable_union]
        exact .inl (List.any_eq_true.mpr ⟨_, List.getElem_mem hlt,
          readable_of_accepted branch _ label hbody⟩)

end

end Plan

/-! ## Readable types have accepted plans -/

namespace Schema

/-- **A schema of enums**: it declares no record and no fixed. -/
def OnlyEnums (s : Schema) : Prop :=
  ∀ d ∈ s.definitions, ∃ e, d = .enum e

variable {writer reader : Schema}

/-- What is declared in a schema of enums is an enum of that name. -/
theorem OnlyEnums.definition? {s : Schema} (hs : s.OnlyEnums)
    {name : FullName} {d : Definition} (h : s.definition? name = some d) :
    ∃ e : EnumType, d = .enum e ∧ e.name = name := by
  obtain ⟨e, rfl⟩ := hs d (List.mem_of_find?_eq_some h)
  exact ⟨e, rfl, definition?_name h⟩

/-- **Two types differ in a size**: fixed types do, and arrays or maps of types
that do. -/
inductive SizesDiffer (writer reader : Schema) : TypeExpr → TypeExpr → Prop
  /-- Two fixed types of different sizes, whatever their names. -/
  | fixed {w r : FullName} {wd rd : FixedType}
      (hw : writer.definition? w = some (.fixed wd))
      (hr : reader.definition? r = some (.fixed rd))
      (hsize : wd.size ≠ rd.size) : SizesDiffer writer reader (.named w) (.named r)
  /-- The items of two arrays. -/
  | array {items items' : TypeExpr} (h : SizesDiffer writer reader items items') :
      SizesDiffer writer reader (.array items) (.array items')
  /-- The values of two maps. -/
  | map {values values' : TypeExpr} (h : SizesDiffer writer reader values values') :
      SizesDiffer writer reader (.map values) (.map values')

/-- Two fixed types differ in a size if their sizes do. -/
theorem sizesDiffer_fixed_iff {w r : FullName} {wd rd : FixedType}
    (hw : writer.definition? w = some (.fixed wd))
    (hr : reader.definition? r = some (.fixed rd)) :
    writer.SizesDiffer reader (.named w) (.named r) ↔ wd.size ≠ rd.size := by
  constructor
  · rintro (⟨hw', hr', hsize⟩ | _ | _)
    obtain rfl := Definition.fixed.inj (Option.some.inj (hw.symm.trans hw'))
    obtain rfl := Definition.fixed.inj (Option.some.inj (hr.symm.trans hr'))
    exact hsize
  · exact .fixed hw hr

/-- A name that is not declared as a fixed has no size. -/
theorem not_sizesDiffer_named {w r : FullName} {wd : Definition}
    (hw : writer.definition? w = some wd) (hnot : ∀ f, wd ≠ .fixed f) :
    ¬ writer.SizesDiffer reader (.named w) (.named r) := by
  rintro (⟨hw', -, -⟩ | _ | _)
  exact hnot _ (Option.some.inj (hw.symm.trans hw'))

/-- Data can be read as a definition of its kind that answers to its name,
unless a size differs. -/
theorem readableName_iff_of_accepts {w r : FullName} {wd rd : Definition}
    (hw : writer.definition? w = some wd) (hr : reader.definition? r = some rd)
    (hkind : wd.kind = rd.kind) (haccepts : rd.acceptsName w = true) :
    writer.readableName w reader r = true
      ↔ ¬ writer.SizesDiffer reader (.named w) (.named r) := by
  obtain rfl : wd.name = w := definition?_name hw
  rw [readableName, hw, hr]
  cases wd with
  | record wd =>
    cases rd with
    | record rd =>
      exact iff_of_true haccepts
        (not_sizesDiffer_named hw fun _ => Definition.noConfusion)
    | _ => exact absurd hkind (by simp [Definition.kind])
  | enum wd =>
    cases rd with
    | enum rd =>
      exact iff_of_true haccepts
        (not_sizesDiffer_named hw fun _ => Definition.noConfusion)
    | _ => exact absurd hkind (by simp [Definition.kind])
  | fixed wd =>
    cases rd with
    | fixed rd =>
      have hstands : rd.name.standsFor rd.aliases wd.name = true := haccepts
      rw [sizesDiffer_fixed_iff hw hr, not_not]
      show (decide (wd.size = rd.size) && _) = true ↔ _
      rw [hstands, Bool.and_true, decide_eq_true_iff]
    | _ => exact absurd hkind (by simp [Definition.kind])

/-- **Data can be read as the same type unless a size differs**: no other type
is the same as one that its data cannot be read as. -/
theorem readable_iff_of_exact : ∀ t r : TypeExpr,
    writer.exact t reader r = true →
    (writer.readable t reader r = true ↔ ¬ writer.SizesDiffer reader t r)
  | .primitive p, r, h => by
    cases r with
    | primitive q =>
      rw [exact] at h
      obtain rfl : p = q := of_decide_eq_true h
      unfold readable
      exact iff_of_true (Primitive.promotesTo_self p) (by rintro ⟨⟩)
    | _ => exact absurd h (by simp [exact])
  | .array items, r, h => by
    cases r with
    | array items' =>
      rw [exact] at h
      unfold readable
      refine (readable_iff_of_exact items items' h).trans (not_congr ?_)
      exact ⟨.array, fun | .array h => h⟩
    | _ => exact absurd h (by simp [exact])
  | .map values, r, h => by
    cases r with
    | map values' =>
      rw [exact] at h
      unfold readable
      refine (readable_iff_of_exact values values' h).trans (not_congr ?_)
      exact ⟨.map, fun | .map h => h⟩
    | _ => exact absurd h (by simp [exact])
  | .union branches, r, h => absurd h (by simp [exact])
  | .named name, r, h => by
    cases r with
    | named name' =>
      rw [exact] at h
      split at h
      · rename_i wd rd hwd hrd
        obtain ⟨hkind, haccepts⟩ := Bool.and_eq_true_iff.mp h
        unfold readable
        exact readableName_iff_of_accepts hwd hrd (of_decide_eq_true hkind)
          haccepts
      · exact absurd h Bool.false_ne_true
    | _ => exact absurd h (by simp [exact])

/-- No size differs from one of a schema of enums. -/
theorem OnlyEnums.not_sizesDiffer (hw : writer.OnlyEnums) {t r : TypeExpr} :
    ¬ writer.SizesDiffer reader t r := by
  intro h
  induction h with
  | fixed hd _ _ =>
    obtain ⟨e, he, -⟩ := hw.definition? hd
    cases he
  | array _ ih => exact ih
  | map _ ih => exact ih

/-- **Among enums, data can be read as the same type.** -/
theorem readable_of_exact (hw : writer.OnlyEnums) (t r : TypeExpr)
    (h : writer.exact t reader r = true) :
    writer.readable t reader r = true :=
  (readable_iff_of_exact t r h).mpr hw.not_sizesDiffer

mutual

/-- Nothing can be read as a name without definition. -/
theorem readable_undefined {name : FullName}
    (hnone : reader.definition? name = none) : ∀ t : TypeExpr,
      writer.readable t reader (.named name) = false
  | .union branches => by
    rw [readable]
    exact readableSome_undefined hnone branches
  | .primitive p => by rw [readable]; rfl
  | .array items => by rw [readable]; rfl
  | .map values => by rw [readable]; rfl
  | .named w => by
    rw [readable]
    show writer.readableName w reader name = false
    rw [readableName, hnone]
    cases writer.definition? w with
    | none => rfl
    | some wd => cases wd <;> rfl

theorem readableSome_undefined {name : FullName}
    (hnone : reader.definition? name = none) : ∀ branches : List TypeExpr,
      writer.readableSome branches reader (.named name) = false
  | [] => rfl
  | branch :: rest => by
    rw [readableSome, readable_undefined hnone branch,
      readableSome_undefined hnone rest, Bool.or_false]

end

/-- Only a type that has a shape can be read as. -/
theorem exists_shape?_of_readable {t r : TypeExpr}
    (h : writer.readable t reader r = true) :
    ∃ shape, reader.shape? r = some shape := by
  cases r with
  | named name =>
    rw [shape?_eq]
    cases hd : reader.definition? name with
    | some d => exact ⟨_, rfl⟩
    | none => exact absurd h (by rw [readable_undefined hd]; exact Bool.false_ne_true)
  | _ => exact ⟨_, rfl⟩

/-- **Among enums, the branch that a union picks can be read as**, be it the
first that is the same type or the first that is readable. -/
theorem readable_of_branchFor? (hw : writer.OnlyEnums)
    {t : TypeExpr} {readers : List TypeExpr} {index : Nat}
    (h : writer.branchFor? t reader readers = some index) :
    ∃ r, readers[index]? = some r ∧ writer.readable t reader r = true := by
  rcases Option.or_eq_some_iff.mp h with hexact | ⟨-, hfirst⟩
  · obtain ⟨hlt, hsame, _⟩ := List.findIdx?_eq_some_iff_getElem.mp hexact
    exact ⟨_, List.getElem?_eq_getElem hlt,
      readable_of_exact hw t _ hsame⟩
  · obtain ⟨hlt, hreadable, _⟩ := List.findIdx?_eq_some_iff_getElem.mp hfirst
    exact ⟨_, List.getElem?_eq_getElem hlt, hreadable⟩

/-- A union that can be read as picks a branch. -/
theorem exists_branchFor? {t : TypeExpr} {readers : List TypeExpr}
    (h : writer.readable t reader (.union readers) = true) :
    ∃ index, writer.branchFor? t reader readers = some index := by
  rw [readable_union] at h
  refine Option.ne_none_iff_exists'.mp fun hnone => ?_
  obtain ⟨r, hmem, hreadable⟩ := List.any_eq_true.mp h
  have hnot := List.findIdx?_eq_none_iff.mp
    (Option.or_eq_none_iff.mp hnone).2 r hmem
  exact absurd hreadable (by rw [hnot]; exact Bool.false_ne_true)

end Schema

namespace Plan

variable {R : Demand → Prop} {writer reader : Schema}

section Choosing

variable {w : TypeExpr} {label : String} {pick : List TypeExpr → Option Nat}
  {leaf : TypeExpr → Plan} {test : TypeExpr → Bool}

mutual

/-- **A choice is accepted** if a union of which a test holds picks a branch of
which it holds, and the leaves of which it holds are accepted. -/
theorem accepted_choosing
    (hpick : ∀ readers, TypeExpr.someBranch test (.union readers) = true →
      ∃ index r, pick readers = some index ∧ readers[index]? = some r
        ∧ r.someBranch test = true)
    (hleaf : ∀ t, t.isUnion = false → test t = true → Accepted R (leaf t)) :
    ∀ r : TypeExpr, r.someBranch test = true →
      Accepted R (choosing w label pick leaf r)
  | .union readers, h => by
    obtain ⟨index, r, hindex, hr, htest⟩ := hpick readers h
    rw [choosing, hindex]
    exact ⟨trivial, trivial, trivial, accepted_choosingBranch hpick hleaf index
      readers index r hr htest⟩
  | .primitive p, h => by
    rw [choosing_leaf rfl]
    rw [TypeExpr.someBranch_leaf test rfl] at h
    exact hleaf _ rfl h
  | .array items, h => by
    rw [choosing_leaf rfl]
    rw [TypeExpr.someBranch_leaf test rfl] at h
    exact hleaf _ rfl h
  | .map values, h => by
    rw [choosing_leaf rfl]
    rw [TypeExpr.someBranch_leaf test rfl] at h
    exact hleaf _ rfl h
  | .named name, h => by
    rw [choosing_leaf rfl]
    rw [TypeExpr.someBranch_leaf test rfl] at h
    exact hleaf _ rfl h

/-- Going on with a branch of which the test holds is accepted. -/
theorem accepted_choosingBranch
    (hpick : ∀ readers, TypeExpr.someBranch test (.union readers) = true →
      ∃ index r, pick readers = some index ∧ readers[index]? = some r
        ∧ r.someBranch test = true)
    (hleaf : ∀ t, t.isUnion = false → test t = true → Accepted R (leaf t))
    (index : Nat) :
    ∀ (readers : List TypeExpr) (position : Nat) (r : TypeExpr),
      readers[position]? = some r → r.someBranch test = true →
      Accepted R (choosingBranch w label pick leaf index position readers)
  | [], _, _, hr, _ => absurd hr (by simp)
  | branch :: _, 0, r, hr, h => by
    obtain rfl : branch = r := Option.some.inj hr
    rw [choosingBranch]
    exact accepted_entering.mpr (accepted_choosing hpick hleaf branch h)
  | _ :: rest, position + 1, r, hr, h => by
    rw [choosingBranch]
    exact accepted_choosingBranch hpick hleaf index rest position r hr h

end

/-- A choice among what a type can be read as is accepted if its leaves are. -/
theorem accepted_choosing_of_readable (hw : writer.OnlyEnums) {t : TypeExpr}
    (ht : ∀ r, writer.readable t reader r = r.someBranch test)
    (hleaf : ∀ r, r.isUnion = false → test r = true → Accepted R (leaf r))
    {r : TypeExpr} (h : writer.readable t reader r = true) :
    Accepted R (choosing w label (writer.branchFor? t reader) leaf r) := by
  refine accepted_choosing (fun readers hsome => ?_) hleaf r (ht r ▸ h)
  rw [← ht] at hsome
  obtain ⟨index, hindex⟩ := Schema.exists_branchFor? hsome
  obtain ⟨branch, hbranch, hreadable⟩ :=
    Schema.readable_of_branchFor? hw hindex
  exact ⟨index, branch, hindex, hbranch, ht branch ▸ hreadable⟩

end Choosing

/-- A primitive is delivered as one that it promotes to. -/
theorem accepted_promoted {w r : Primitive} {label : String}
    (h : w.promotesTo r = true) : Accepted R (deliverPrimitive w r label) := by
  unfold deliverPrimitive
  cases w <;> cases r <;>
    first
    | exact ⟨trivial, trivial⟩
    | exact trivial
    | exact absurd h Bool.false_ne_true

/-- An enum is delivered as one that its name stands for. -/
theorem accepted_named_of_readable (hw : writer.OnlyEnums)
    (hr : reader.OnlyEnums) {w r : FullName} {label : String}
    (h : writer.readableName w reader r = true) :
    Accepted R (deliverNamed writer w reader (.named r) label) := by
  unfold Schema.readableName at h
  unfold deliverNamed
  rw [Schema.shape?_eq, Schema.shape?_eq]
  cases hwd : writer.definition? w with
  | none => rw [hwd] at h; exact absurd h Bool.false_ne_true
  | some wd =>
    cases hrd : reader.definition? r with
    | none => rw [hwd, hrd] at h; exact absurd h (by cases wd <;> simp)
    | some rd =>
      obtain ⟨we, rfl, rfl⟩ := hw.definition? hwd
      obtain ⟨re, rfl, rfl⟩ := hr.definition? hrd
      rw [hwd, hrd] at h
      have hstands : re.name.standsFor re.aliases we.name = true := h
      simp only [Option.map_some, Definition.shape, hstands, if_true]
      exact ⟨trivial, accepted_symbolCases re _ 0 we.symbols⟩

mutual

/-- **Among enums, a type is delivered as every type that its data can be read
as.** -/
theorem accepted_of_readable (hw : writer.OnlyEnums) (hr : reader.OnlyEnums) :
    ∀ (t r : TypeExpr) (label : String),
      writer.readable t reader r = true →
      Accepted R (deliver writer t reader r label)
  | .union branches, r, label, h => by
    obtain ⟨shape, hshape⟩ := Schema.exists_shape?_of_readable h
    unfold Schema.readable at h
    obtain ⟨hsome, hcases⟩ := accepted_branchCases hw hr branches r label 0
    rw [deliver, hshape]
    simp only [hsome h]
    exact ⟨trivial, hcases⟩
  | .primitive p, r, label, h => by
    rw [deliver]
    refine accepted_choosing_of_readable hw
      (fun r => by rw [Schema.readable]) (fun t _ ht => ?_) h
    cases t with
    | primitive q => exact accepted_promoted ht
    | _ => exact absurd ht Bool.false_ne_true
  | .array items, r, label, h => by
    rw [deliver]
    refine accepted_choosing_of_readable hw
      (fun r => by rw [Schema.readable]) (fun t _ ht => ?_) h
    cases t with
    | array items' => exact accepted_of_readable hw hr items items' _ ht
    | _ => exact absurd ht Bool.false_ne_true
  | .map values, r, label, h => by
    rw [deliver]
    refine accepted_choosing_of_readable hw
      (fun r => by rw [Schema.readable]) (fun t _ ht => ?_) h
    cases t with
    | map values' =>
      exact ⟨trivial, accepted_of_readable hw hr values values' _ ht⟩
    | _ => exact absurd ht Bool.false_ne_true
  | .named name, r, label, h => by
    have hplan : Accepted R (choosing (.named name) label
        (writer.branchFor? (.named name) reader)
        (fun r => deliverNamed writer name reader r label) r) := by
      refine accepted_choosing_of_readable hw
        (fun r => by rw [Schema.readable]) (fun t _ ht => ?_) h
      cases t with
      | named name' => exact accepted_named_of_readable hw hr ht
      | _ => exact absurd ht Bool.false_ne_true
    rw [deliver]
    cases hshape : writer.shape? (.named name) with
    | some shape => exact hplan
    | none =>
      -- What a writer does not define is readable as nothing at all.
      rw [Schema.shape?_eq, Option.map_eq_none_iff] at hshape
      unfold Schema.readable at h
      obtain ⟨t, ht⟩ := TypeExpr.exists_of_someBranch r h
      cases t with
      | named name' =>
        exact absurd ht (by simp [Schema.readableName, hshape])
      | _ => exact absurd ht Bool.false_ne_true

/-- Every branch that can be read has an accepted case, and there is one if
some branch can be read. -/
theorem accepted_branchCases (hw : writer.OnlyEnums) (hr : reader.OnlyEnums) :
    ∀ (branches : List TypeExpr) (r : TypeExpr) (label : String) (tag : Nat),
      (writer.readableSome branches reader r = true →
        noCases (branchCases writer label tag branches reader r) = false)
      ∧ AcceptedAll R (branchCases writer label tag branches reader r)
  | [], r, label, tag => by
    rw [branchCases]
    exact ⟨fun h => absurd h Bool.false_ne_true, trivial⟩
  | branch :: rest, r, label, tag => by
    obtain ⟨hsome, hrest⟩ := accepted_branchCases hw hr rest r label (tag + 1)
    rw [Schema.readableSome, Bool.or_eq_true]
    cases hr' : r.isUnion with
    | false =>
      rw [branchCases_cons hr']
      by_cases hbranch : writer.readable branch reader r = true
      · rw [if_pos hbranch]
        exact ⟨fun _ => rfl,
          accepted_of_readable hw hr branch r label hbranch, hrest⟩
      · rw [if_neg hbranch]
        exact ⟨fun h => hsome (h.resolve_left hbranch), hrest⟩
    | true =>
      obtain ⟨readers, rfl⟩ := TypeExpr.isUnion_iff.mp hr'
      rw [branchCases]
      cases hpick : writer.branchFor? branch reader readers with
      | none =>
        refine ⟨fun h => hsome (h.resolve_left fun hbranch => ?_), hrest⟩
        obtain ⟨index, hindex⟩ := Schema.exists_branchFor? hbranch
        exact absurd (hpick.symm.trans hindex) (by simp)
      | some index =>
        obtain ⟨r, hr', hreadable⟩ :=
          Schema.readable_of_branchFor? hw hpick
        simp only [hr']
        exact ⟨fun _ => rfl, accepted_entering.mpr
          (accepted_of_readable hw hr branch r label hreadable), hrest⟩

end

end Plan

/-! ## Schemas that compile -/

section

variable {writer reader : Schema}

/-- What is compiled has an accepted plan of its roots. -/
theorem exists_accepted_of_compile {p : Program}
    (h : compile writer reader = .ok p) :
    ∃ R, (mainPlan writer reader).Accepted R := by
  rw [compile_eq] at h
  obtain ⟨a, hfaithful, _⟩ := Plan.program_assembly encloses_requested h
  exact ⟨_, hfaithful.main.accepted⟩

/-- **Schemas of enums compile if their roots are readable**: no plan calls a
method, so the plan of the roots is all there is. -/
theorem exists_compiled_of_readable (hw : writer.OnlyEnums)
    (hr : reader.OnlyEnums)
    (h : writer.readable writer.root reader reader.root = true) :
    ∃ p, compile writer reader = .ok p := by
  have haccepted : (mainPlan writer reader).Accepted fun _ => False :=
    Plan.accepted_of_readable hw hr writer.root reader.root "root" h
  have hencloses : Encloses writer reader fun _ => False :=
    { ofRecords := fun _ hd => hd.elim
      main := (Plan.regular_deliver _ _ _).of_calls fun _ hd _ =>
        haccepted.calls hd
      body := fun _ hd => hd.elim }
  exact compile_ok hencloses (fun _ => haccepted.not_rejects)
    fun _ hd => hd.elim

end

/-- **The compiler and the compatibility of types agree.** Schemas that compile
have readable roots; schemas that declare neither records nor fixeds compile if
their roots are readable. -/
theorem compile_compatible (writer reader : Schema) :
    ((∃ p, compile writer reader = .ok p) →
      writer.readable writer.root reader reader.root = true)
    ∧ (writer.OnlyEnums → reader.OnlyEnums →
      writer.readable writer.root reader reader.root = true →
      ∃ p, compile writer reader = .ok p) := by
  refine ⟨fun ⟨p, hp⟩ => ?_, fun hw hr h => exists_compiled_of_readable hw hr h⟩
  obtain ⟨R, haccepted⟩ := exists_accepted_of_compile hp
  exact Plan.readable_of_accepted writer.root reader.root "root" haccepted

/-! ### A union read as a wider one -/

namespace Wider

/-- The enum of both schemas. -/
def letter : EnumType := ⟨⟨"E", ""⟩, [], ["a"], none, none⟩

/-- A writer's schema. -/
def writer : Schema where
  root := .union [.primitive .null, .named ⟨"E", ""⟩]
  definitions := [.enum letter]
  source :=
    "[\"null\",\x7b\"type\":\"enum\",\"name\":\"E\",\"symbols\":[\"a\"]\x7d]"

/-- A schema of a reader, with one more branch in another order. -/
def reader : Schema where
  root := .union [.named ⟨"E", ""⟩, .primitive .int, .primitive .null]
  definitions := [.enum letter]
  source := "[\x7b\"type\":\"enum\",\"name\":\"E\",\"symbols\":[\"a\"]\x7d," ++
    "\"int\",\"null\"]"

theorem parse_writer : Schema.parse writer.source = .ok writer := by
  have hchars : writer.source.toList = _ := String.toList_ofList
  rw [Schema.parse, Json.parse, hchars]
  cbv

theorem parse_reader : Schema.parse reader.source = .ok reader := by
  have hchars : reader.source.toList = _ :=
    toList_append_eq String.toList_ofList String.toList_ofList
  rw [Schema.parse, Json.parse, hchars]
  cbv

end Wider

/-- Schemas of documents that are compatible either way. -/
theorem compile_compatible_wider :
    (Schema.parse Wider.writer.source = .ok Wider.writer
      ∧ Schema.parse Wider.reader.source = .ok Wider.reader)
    ∧ Wider.writer.readable Wider.writer.root Wider.reader
      Wider.reader.root = true
    ∧ ∃ p, compile Wider.writer Wider.reader = .ok p := by
  have hcompiles := (compile_compatible Wider.writer Wider.reader).2
    (fun d hd => ⟨_, List.mem_singleton.mp hd⟩)
    (fun d hd => ⟨_, List.mem_singleton.mp hd⟩) (by decide)
  exact ⟨⟨Wider.parse_writer, Wider.parse_reader⟩,
    (compile_compatible Wider.writer Wider.reader).1 hcompiles, hcompiles⟩

end Avro
