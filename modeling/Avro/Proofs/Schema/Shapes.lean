import Avro.Schema.Basic

/-!
# Shapes and definitions

A type that has the shape of a definition is a name, and the definition is
found under its own name (`Schema.shape?_named`). So a shape of a record, an
enum or a fixed says which type it is the shape of.
-/

namespace Avro

/-- A definition is found by its own name. -/
theorem Schema.definition?_name {s : Schema} {name : FullName}
    {d : Definition} (h : s.definition? name = some d) : d.name = name := by
  have hfound := List.find?_some h
  exact of_decide_eq_true hfound

/-- The shape of a named type. -/
def Definition.shape : Definition → Shape
  | record r => .record r
  | enum e => .enum e
  | fixed f => .fixed f

/-- Definitions of one shape are the same. -/
theorem Definition.shape_inj {d d' : Definition} (h : d.shape = d'.shape) :
    d = d' := by
  cases d <;> cases d' <;> first | injection h with h; rw [h] | injection h

/-- The shape of a name is that of its definition. -/
theorem Schema.shape?_eq (s : Schema) (name : FullName) :
    s.shape? (.named name) = (s.definition? name).map Definition.shape := by
  rw [shape?]
  cases s.definition? name with
  | none => rfl
  | some d => cases d <;> rfl

/-- What a union is. -/
theorem TypeExpr.isUnion_iff {t : TypeExpr} :
    t.isUnion = true ↔ ∃ branches, t = union branches := by
  cases t <;> simp [isUnion]

/-- **A type with a definition is named like it**: what is no definition has
its shape from itself. -/
theorem Schema.shape?_named {s : Schema} {t : TypeExpr} {d : Definition}
    (h : s.shape? t = some d.shape) :
    t = .named d.name ∧ s.definition? d.name = some d := by
  cases t with
  | named name =>
    rw [shape?_eq, Option.map_eq_some_iff] at h
    obtain ⟨d', hd, hshape⟩ := h
    obtain rfl := Definition.shape_inj hshape
    rw [definition?_name hd]
    exact ⟨rfl, hd⟩
  | primitive p => cases d <;> exact absurd h (by simp [shape?, Definition.shape])
  | array items => cases d <;> exact absurd h (by simp [shape?, Definition.shape])
  | map values => cases d <;> exact absurd h (by simp [shape?, Definition.shape])
  | union branches => cases d <;> exact absurd h (by simp [shape?, Definition.shape])

end Avro
