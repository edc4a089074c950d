import Avro.Proofs.Schema.CanonicalText
import Avro.Proofs.Schema.Reachability
import Mathlib.Data.List.Perm.Subperm

/-!
# What a canonical form tells about a schema

Two schemas are *alike* if they have one root and, under every name,
definitions that differ in aliases, defaults and documentation only
(`Schema.Alike`). Schemas that were read are alike if their canonical forms
have one text, provided that no definition has the name of a primitive type
(`Schema.alike_of_canonicalForm`).

A form gives back the type and, stripped, the definitions that it writes out
(`Canonical.type`, `Canonical.definitions`). The walk that builds it keeps the
names that it met, and what it does between two of its states is said by
`Spelled`: the names are those of definitions, each of them that is new has its
definition written out, and what is mentioned in there was met as well. At the
end of the walk the names are closed under the definitions, so it has met all
of a schema all of which can be reached.
-/

namespace Avro

/-! ## Stripping -/

/-- A field without aliases, default and documentation. -/
def Field.stripped (field : Field) : Field :=
  ⟨field.name, field.type, [], none, none⟩

namespace Definition

/-- **A definition without what its data do not depend on.** -/
def stripped : Definition → Definition
  | record r => record ⟨r.name, [], r.fields.map Field.stripped, none⟩
  | enum e => enum ⟨e.name, [], e.symbols, none, none⟩
  | fixed f => fixed ⟨f.name, [], f.size⟩

theorem name_stripped (d : Definition) : d.stripped.name = d.name := by
  cases d <;> rfl

/-- Stripping keeps what is mentioned. -/
theorem mentions_stripped {d : Definition} {name : FullName} :
    d.stripped.Mentions name ↔ d.Mentions name := by
  cases d with
  | record r =>
    refine ⟨fun h => ?_, fun h => ?_⟩
    · obtain ⟨bare, hbare, hname⟩ := h
      obtain ⟨field, hfield, rfl⟩ := List.mem_map.mp hbare
      exact ⟨field, hfield, hname⟩
    · obtain ⟨field, hfield, hname⟩ := h
      exact ⟨field.stripped, List.mem_map_of_mem hfield, hname⟩
  | enum e => exact .rfl
  | fixed f => exact .rfl

end Definition

/-- **Schemas are alike**: they have one root, and their definitions are the
same if they are stripped. -/
structure Schema.Alike (s s' : Schema) : Prop where
  /-- The root types. -/
  root : s.root = s'.root
  /-- The definitions. -/
  definition : ∀ name, (s.definition? name).map Definition.stripped
    = (s'.definition? name).map Definition.stripped

/-! ## What a form writes -/

namespace Canonical

mutual

/-- The type of which a form is the form. -/
def type : Canonical → TypeExpr
  | primitive p => .primitive p
  | array items => .array items.type
  | map values => .map values.type
  | union branches => .union (types branches)
  | reference name | record name _ | enum name _ | fixed name _ => .named name

/-- The types of branches. -/
def types : List Canonical → List TypeExpr
  | [] => []
  | branch :: rest => branch.type :: types rest

end

/-- The fields of which forms are the forms. -/
def fields (forms : List (String × Canonical)) : List Field :=
  forms.map fun form => ⟨form.1, form.2.type, [], none, none⟩

mutual

/-- The definitions that a form writes out. -/
def definitions : Canonical → List Definition
  | primitive _ | reference _ => []
  | array items => items.definitions
  | map values => values.definitions
  | union branches => definitionsAll branches
  | record name forms =>
    .record ⟨name, [], fields forms, none⟩ :: definitionsFields forms
  | enum name symbols => [.enum ⟨name, [], symbols, none, none⟩]
  | fixed name size => [.fixed ⟨name, [], size⟩]

/-- The definitions that branches write out. -/
def definitionsAll : List Canonical → List Definition
  | [] => []
  | branch :: rest => branch.definitions ++ definitionsAll rest

/-- The definitions that fields write out. -/
def definitionsFields : List (String × Canonical) → List Definition
  | [] => []
  | (_, form) :: rest => form.definitions ++ definitionsFields rest

end

end Canonical

namespace Schema

/-- **A schema is clear**: no definition has the name of a primitive type. -/
def Clear (s : Schema) : Prop :=
  ∀ d ∈ s.definitions, ∀ p : Primitive, d.name.text ≠ p.name

variable {s : Schema}

/-! ## The walk over a schema -/

variable (s) in
/-- **Names that were met**: different names of definitions. -/
structure Seen (seen : List FullName) : Prop where
  /-- They are different. -/
  nodup : seen.Nodup
  /-- They have definitions. -/
  defined : ∀ name ∈ seen, ∃ d, s.definition? name = some d

/-- No more names are met than there are definitions. -/
theorem Seen.length_le {seen : List FullName} (h : s.Seen seen) :
    seen.length ≤ s.definitions.length := by
  have hsubset : seen ⊆ s.definitions.map (·.name) := by
    intro name hname
    obtain ⟨d, hd⟩ := h.defined name hname
    exact List.mem_map.mpr ⟨d, List.mem_of_find?_eq_some hd, definition?_name hd⟩
  have hle := (List.subperm_of_subset h.nodup hsubset).length_le
  rwa [List.length_map] at hle

variable (s) in
/-- **What is written between two states of the walk**, for something in which
some names occur. -/
structure Spelled (mentions : FullName → Prop) (seen after : List FullName)
    (ds : List Definition) : Prop where
  /-- The names that were met are kept. -/
  kept : seen <:+ after
  /-- They are names of definitions. -/
  met : s.Seen after
  /-- What occurs was met. -/
  mentioned : ∀ name, mentions name → name ∈ after
  /-- What is new was written out. -/
  written : ∀ name ∈ after, name ∈ seen ∨ ∃ d ∈ ds, d.name = name
  /-- What was written out is the stripped definition. -/
  stripped : ∀ d ∈ ds, (s.definition? d.name).map Definition.stripped = some d
  /-- What occurs in it was met. -/
  closed : ∀ d ∈ ds, ∀ name, d.Mentions name → name ∈ after

namespace Spelled

variable {mentions mentions' : FullName → Prop}
  {seen middle after : List FullName} {ds ds' : List Definition}

/-- Nothing is written. -/
theorem nil (h : s.Seen seen) (hmentions : ∀ name, mentions name → name ∈ seen) :
    s.Spelled mentions seen seen [] where
  kept := List.suffix_rfl
  met := h
  mentioned := hmentions
  written _ := .inl
  stripped _ hd := absurd hd List.not_mem_nil
  closed _ hd := absurd hd List.not_mem_nil

theorem append (h : s.Spelled mentions seen middle ds)
    (h' : s.Spelled mentions' middle after ds') :
    s.Spelled (fun name => mentions name ∨ mentions' name) seen after
      (ds ++ ds') where
  kept := h.kept.trans h'.kept
  met := h'.met
  mentioned name hname :=
    hname.elim (fun hname => h'.kept.subset (h.mentioned name hname))
      (h'.mentioned name)
  written name hname := by
    rcases h'.written name hname with hmiddle | ⟨d, hd, hdname⟩
    · rcases h.written name hmiddle with hseen | ⟨d, hd, hdname⟩
      · exact .inl hseen
      · exact .inr ⟨d, List.mem_append_left _ hd, hdname⟩
    · exact .inr ⟨d, List.mem_append_right _ hd, hdname⟩
  stripped d hd :=
    (List.mem_append.mp hd).elim (h.stripped d) (h'.stripped d)
  closed d hd name hname :=
    (List.mem_append.mp hd).elim
      (fun hd => h'.kept.subset (h.closed d hd name hname))
      (fun hd => h'.closed d hd name hname)

theorem mono (h : s.Spelled mentions seen after ds)
    (hmentions : ∀ name, mentions' name → mentions name) :
    s.Spelled mentions' seen after ds :=
  { h with mentioned := fun name hname => h.mentioned name (hmentions name hname) }

/-- **A definition that is written out** where its name is met first. -/
theorem define {name : FullName} {d : Definition}
    (hd : s.definition? name = some d)
    (h : s.Spelled (d.Mentions ·) (name :: seen) after ds) :
    s.Spelled (name = ·) seen after (d.stripped :: ds) where
  kept := (List.suffix_cons name seen).trans h.kept
  met := h.met
  mentioned other hother := hother ▸ h.kept.subset List.mem_cons_self
  written other hother := by
    rcases h.written other hother with hmem | ⟨x, hx, hname⟩
    · rcases List.mem_cons.mp hmem with rfl | hmem
      · exact .inr ⟨d.stripped, List.mem_cons_self,
          d.name_stripped.trans (definition?_name hd)⟩
      · exact .inl hmem
    · exact .inr ⟨x, List.mem_cons_of_mem _ hx, hname⟩
  stripped x hx := by
    rcases List.mem_cons.mp hx with rfl | hx
    · rw [d.name_stripped, definition?_name hd, hd]
      rfl
    · exact h.stripped x hx
  closed x hx other hother := by
    rcases List.mem_cons.mp hx with rfl | hx
    · exact h.mentioned other (Definition.mentions_stripped.mp hother)
    · exact h.closed x hx other hother

end Spelled

/-! ## What is spelled -/

variable (s) in
/-- **A type is spelled**: its form gives it back, and is clear. -/
structure SpelledAs (t : TypeExpr) (seen : List FullName)
    (form : Canonical × List FullName) : Prop where
  /-- The type. -/
  type : form.1.type = t
  /-- No reference is written as a primitive type is. -/
  clear : form.1.Clear
  /-- What the walk does. -/
  spelled : s.Spelled t.Mentions seen form.2 form.1.definitions

variable (s) in
/-- The names of definitions are spelled, if some names were met. -/
def SpellsNames (least : Nat)
    (onName : FullName → List FullName → Canonical × List FullName) : Prop :=
  ∀ name seen, s.Seen seen → least ≤ seen.length →
    (∃ d, s.definition? name = some d) →
    s.SpelledAs (.named name) seen (onName name seen)

variable {least : Nat}
  {onName : FullName → List FullName → Canonical × List FullName}

mutual

/-- **A type is spelled if its names are.** -/
theorem spelledAs_canonicalWith (honName : s.SpellsNames least onName) :
    ∀ (t : TypeExpr) (seen : List FullName), s.Seen seen →
      least ≤ seen.length →
      (∀ name, t.Mentions name → ∃ d, s.definition? name = some d) →
      s.SpelledAs t seen (t.canonicalWith onName seen)
  | .primitive p, _, hseen, _, _ =>
    ⟨rfl, trivial, .nil hseen fun _ h => absurd h id⟩
  | .array items, seen, hseen, hleast, hnames => by
    have h := spelledAs_canonicalWith honName items seen hseen hleast hnames
    exact ⟨congrArg TypeExpr.array h.type, h.clear, h.spelled⟩
  | .map values, seen, hseen, hleast, hnames => by
    have h := spelledAs_canonicalWith honName values seen hseen hleast hnames
    exact ⟨congrArg TypeExpr.map h.type, h.clear, h.spelled⟩
  | .union branches, seen, hseen, hleast, hnames => by
    obtain ⟨htypes, hclear, hspelled⟩ :=
      spelled_canonicalAll honName branches seen hseen hleast hnames
    exact ⟨congrArg TypeExpr.union htypes, hclear, hspelled⟩
  | .named name, seen, hseen, hleast, hnames =>
    honName name seen hseen hleast (hnames name rfl)

/-- Branches are spelled if their names are. -/
theorem spelled_canonicalAll (honName : s.SpellsNames least onName) :
    ∀ (branches : List TypeExpr) (seen : List FullName), s.Seen seen →
      least ≤ seen.length →
      (∀ name, TypeExpr.AnyMentions name branches →
        ∃ d, s.definition? name = some d) →
      Canonical.types (TypeExpr.canonicalAll onName branches seen).1 = branches
        ∧ Canonical.ClearAll (TypeExpr.canonicalAll onName branches seen).1
        ∧ s.Spelled (TypeExpr.AnyMentions · branches) seen
          (TypeExpr.canonicalAll onName branches seen).2
          (Canonical.definitionsAll
            (TypeExpr.canonicalAll onName branches seen).1)
  | [], _, hseen, _, _ => ⟨rfl, trivial, .nil hseen fun _ h => absurd h id⟩
  | branch :: rest, seen, hseen, hleast, hnames => by
    have h := spelledAs_canonicalWith honName branch seen hseen hleast
      fun name hname => hnames name (.inl hname)
    obtain ⟨htypes, hclear, hspelled⟩ := spelled_canonicalAll honName rest _
      h.spelled.met (hleast.trans h.spelled.kept.length_le)
      fun name hname => hnames name (.inr hname)
    exact ⟨congrArg₂ List.cons h.type htypes, ⟨h.clear, hclear⟩,
      h.spelled.append hspelled⟩

end

/-- The types of fields are spelled if their names are. -/
theorem spelled_canonicalFields (honName : s.SpellsNames least onName) :
    ∀ (fields : List Field) (seen : List FullName), s.Seen seen →
      least ≤ seen.length →
      (∀ name, MentionedIn fields name → ∃ d, s.definition? name = some d) →
      Canonical.fields (canonicalFields onName fields seen).1
          = fields.map Field.stripped
        ∧ Canonical.ClearFields (canonicalFields onName fields seen).1
        ∧ s.Spelled (MentionedIn fields) seen
          (canonicalFields onName fields seen).2
          (Canonical.definitionsFields (canonicalFields onName fields seen).1)
  | [], _, hseen, _, _ =>
    ⟨rfl, trivial, .nil hseen fun _ h => absurd h (by simp [MentionedIn])⟩
  | field :: rest, seen, hseen, hleast, hnames => by
    have h := spelledAs_canonicalWith honName field.type seen hseen hleast
      fun name hname => hnames name ⟨field, List.mem_cons_self, hname⟩
    obtain ⟨hfields, hclear, hspelled⟩ := spelled_canonicalFields honName rest _
      h.spelled.met (hleast.trans h.spelled.kept.length_le) (by
        rintro name ⟨other, hother, hname⟩
        exact hnames name ⟨other, List.mem_cons_of_mem _ hother, hname⟩)
    refine ⟨congrArg₂ List.cons ?_ hfields, ⟨h.clear, hclear⟩,
      (h.spelled.append hspelled).mono ?_⟩
    · exact congrArg (fun t => (⟨field.name, t, [], none, none⟩ : Field)) h.type
    · rintro name ⟨other, hother, hname⟩
      rcases List.mem_cons.mp hother with rfl | hother
      · exact .inl hname
      · exact .inr ⟨other, hother, hname⟩

/-- What is mentioned in a definition has one. -/
theorem WellFormed.defined_of_mentions (h : s.WellFormed) {name other : FullName}
    {d : Definition} (hd : s.definition? name = some d)
    (hother : d.Mentions other) : ∃ d', s.definition? other = some d' := by
  cases d with
  | record r =>
    obtain ⟨field, hfield, hmention⟩ := hother
    exact WellFormed.definition?_of_mem
      ((h.field r (List.mem_of_find?_eq_some hd) field hfield).mem hmention)
  | enum e => exact absurd hother id
  | fixed f => exact absurd hother id

/-- **Names are spelled**, as long as there is one definition more than names
were met. -/
theorem spellsNames_canonicalName (h : s.WellFormed) (hclear : s.Clear) :
    ∀ budget least : Nat, s.definitions.length + 1 ≤ budget + least →
      s.SpellsNames least (s.canonicalName budget)
  | 0, least, hbudget, name, seen, hseen, hleast, _ => by
    have hle := hseen.length_le
    omega
  | budget + 1, least, hbudget, name, seen, hseen, hleast, hdefined => by
    obtain ⟨d, hd⟩ := hdefined
    have hmem := List.mem_of_find?_eq_some hd
    have hname := definition?_name hd
    have hplain : '.' ∉ name.name.toList := hname ▸ (h.regular d hmem).plain
    have hprimitive : ∀ p : Primitive, name.text ≠ p.name :=
      hname ▸ hclear d hmem
    unfold canonicalName
    by_cases hold : name ∈ seen
    · rw [if_pos (List.contains_iff_mem.mpr hold)]
      exact ⟨rfl, ⟨hplain, hprimitive⟩,
        .nil hseen fun _ hother => hother ▸ hold⟩
    · rw [if_neg fun hcontains => hold (List.contains_iff_mem.mp hcontains)]
      have hnew : s.Seen (name :: seen) := by
        refine ⟨List.nodup_cons.mpr ⟨hold, hseen.nodup⟩, fun other hother => ?_⟩
        rcases List.mem_cons.mp hother with rfl | hother
        · exact ⟨d, hd⟩
        · exact hseen.defined other hother
      have hmore : least + 1 ≤ (name :: seen).length := by
        rw [List.length_cons]
        omega
      dsimp only
      cases d with
      | record r =>
        obtain ⟨hfields, hfieldsClear, hspelled⟩ := spelled_canonicalFields
          (spellsNames_canonicalName h hclear budget (least + 1) (by omega))
          r.fields (name :: seen) hnew hmore
          fun _ hother => h.defined_of_mentions hd hother
        rw [hd]
        refine ⟨rfl, ⟨hplain, hfieldsClear⟩, ?_⟩
        have hwritten := hspelled.define (d := .record r) hd
        rw [Definition.stripped, ← hfields, show r.name = name from hname]
          at hwritten
        exact hwritten
      | enum e =>
        rw [hd]
        refine ⟨rfl, hplain, ?_⟩
        have hwritten := (Spelled.nil hnew fun _ hother => absurd hother id).define
          (d := .enum e) hd
        rw [Definition.stripped, show e.name = name from hname] at hwritten
        exact hwritten
      | fixed f =>
        rw [hd]
        refine ⟨rfl, hplain, ?_⟩
        have hwritten := (Spelled.nil hnew fun _ hother => absurd hother id).define
          (d := .fixed f) hd
        rw [Definition.stripped, show f.name = name from hname] at hwritten
        exact hwritten

/-! ## What the form of a schema tells -/

/-- **The form of a schema** gives back the root and is clear. -/
theorem spelledAs_canonical (h : s.WellFormed) (hclear : s.Clear) :
    s.SpelledAs s.root [] (s.root.canonicalWith
      (s.canonicalName (s.definitions.length + 1)) []) :=
  spelledAs_canonicalWith
    (spellsNames_canonicalName h hclear (s.definitions.length + 1) 0 le_rfl)
    s.root [] ⟨List.nodup_nil, fun _ hname => absurd hname List.not_mem_nil⟩
    (Nat.zero_le _)
    fun _ hname => WellFormed.definition?_of_mem (h.root.mem hname)

/-- **Every definition of a schema is written out**, stripped. -/
theorem stripped_mem_definitions (h : s.WellFormed) (hcomplete : s.Complete)
    (hclear : s.Clear) {name : FullName} {d : Definition}
    (hd : s.definition? name = some d) :
    d.stripped ∈ s.canonical.definitions := by
  have hspelled := (spelledAs_canonical h hclear).spelled
  generalize (s.root.canonicalWith
    (s.canonicalName (s.definitions.length + 1)) []).2 = met at hspelled
  -- A name that was met has its definition written out.
  have hwritten : ∀ x ∈ s.definitions, x.name ∈ met →
      x.stripped ∈ s.canonical.definitions := by
    intro x hx hmet
    rcases hspelled.written x.name hmet with hnone | ⟨y, hy, hname⟩
    · exact absurd hnone List.not_mem_nil
    · have hfound := hspelled.stripped y hy
      rw [hname, definition?, find?_of_nodup hcomplete.nodup hx] at hfound
      exact Option.some.inj hfound ▸ hy
  have hall := hcomplete.reaches (· ∈ met) hspelled.mentioned
    fun x hx hmet other hother =>
      hspelled.closed _ (hwritten x hx hmet) other
        (Definition.mentions_stripped.mpr hother)
  have hmem := List.mem_of_find?_eq_some hd
  exact hwritten d hmem (hall d hmem)

/-- What is written out is a stripped definition. -/
theorem definition?_of_mem_definitions (h : s.WellFormed) (hclear : s.Clear)
    {d : Definition} (hd : d ∈ s.canonical.definitions) :
    (s.definition? d.name).map Definition.stripped = some d :=
  (spelledAs_canonical h hclear).spelled.stripped d hd

/-- **Canonical forms tell schemas apart** that are not alike. -/
theorem alike_of_canonicalForm {s' : Schema} (h : s.WellFormed)
    (h' : s'.WellFormed) (hcomplete : s.Complete) (hcomplete' : s'.Complete)
    (hclear : s.Clear) (hclear' : s'.Clear)
    (heq : s.canonicalForm = s'.canonicalForm) : s.Alike s' := by
  have hspelled := spelledAs_canonical h hclear
  have hspelled' := spelledAs_canonical h' hclear'
  have hsame : s.canonical = s'.canonical :=
    Canonical.text_inj hspelled.clear hspelled'.clear heq
  refine ⟨?_, fun name => ?_⟩
  · exact hspelled.type.symm.trans
      ((congrArg Canonical.type hsame).trans hspelled'.type)
  · cases hd : s.definition? name with
    | some d =>
      have hfound := definition?_of_mem_definitions h' hclear'
        (hsame ▸ stripped_mem_definitions h hcomplete hclear hd)
      rw [d.name_stripped, definition?_name hd] at hfound
      exact hfound.symm
    | none =>
      cases hd' : s'.definition? name with
      | none => rfl
      | some d' =>
        have hfound := definition?_of_mem_definitions h hclear
          (hsame ▸ stripped_mem_definitions h' hcomplete' hclear' hd')
        rw [d'.name_stripped, definition?_name hd', hd] at hfound
        exact absurd hfound (by simp)

end Schema

end Avro
