/-!
# Full names

A record, enum or fixed type is identified by its **full name**: a name and the namespace it lives
in. Two documents agree on a named type when their full names agree, so nothing here looks at the
definition behind a name.

A written name is dotted or bare. A dotted one carries its own namespace, everything before the
*last* dot; a bare one inherits the namespace around it (`FullName.ofString`).
-/

namespace Avro

/-- **The identity of a named type.** The namespace is empty for types of the null namespace. -/
structure FullName where
  /-- The name inside its namespace. -/
  name : String
  /-- The namespace, dotted, or empty. -/
  space : String
  deriving DecidableEq, Repr, Inhabited

namespace FullName

/-- The text before the last dot and the text after it, when there is a dot. -/
def splitLastDot : List Char → Option (List Char × List Char)
  | [] => none
  | c :: rest =>
    match splitLastDot rest with
    | some (before, after) => some (c :: before, after)
    | none => if c = '.' then some ([], rest) else none

/-- **Reads a written name.** A dotted name carries its own namespace, a bare one takes
`enclosing`. -/
def ofString (text enclosing : String) : FullName :=
  match splitLastDot text.toList with
  | some (before, after) => ⟨String.ofList after, String.ofList before⟩
  | none => ⟨text, enclosing⟩

/-- The written form: the name alone in the null namespace, else namespace, dot and name. -/
def text (n : FullName) : String :=
  if n.space.isEmpty then n.name else n.space ++ "." ++ n.name

/-- The same name in the null namespace. -/
def bare (n : FullName) : FullName := ⟨n.name, ""⟩

/-- The order of full names: by name, then by namespace, each by code points. -/
def le (a b : FullName) : Bool :=
  a.name < b.name || (a.name = b.name && a.space ≤ b.space)

@[simp] theorem bare_name (n : FullName) : n.bare.name = n.name := rfl

@[simp] theorem bare_space (n : FullName) : n.bare.space = "" := rfl

/-- A name without a dot keeps the namespace around it. -/
theorem ofString_of_not_mem {text : String} (h : '.' ∉ text.toList) (enclosing : String) :
    ofString text enclosing = ⟨text, enclosing⟩ := by
  have none_of : ∀ cs : List Char, '.' ∉ cs → splitLastDot cs = none := by
    intro cs
    induction cs with
    | nil => intro _; rfl
    | cons c rest ih =>
      intro hc
      simp only [List.mem_cons, not_or] at hc
      simp [splitLastDot, ih hc.2, Ne.symm hc.1]
  simp [ofString, none_of _ h]

end FullName

end Avro
