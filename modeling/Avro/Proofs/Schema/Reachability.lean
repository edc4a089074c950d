import Avro.Proofs.Schema.Parsing
import Mathlib.Data.List.Nodup
import Mathlib.Data.List.Perm.Basic

/-!
# Every definition of a document can be reached

The definitions of a schema that was read have different names, and each of
them is met on the way from the root through the types of fields
(`Schema.parse_complete`): a document has no place for a definition but inside
the type it reads. A set of names that has those of the root and is closed
under the definitions therefore has them all, and this is how it is said
(`Reaches`).

A document declares a name where a definition begins and finishes the
definition where it ends, so it is an induction on what the document says that
the type it denotes reaches what it declares (`Json.Denotes.declared`).
References are linked afterwards. Linking may move a reference to the null
namespace, but not one to a name that has a definition.
-/

namespace Avro

/-! ## Names in types -/

namespace TypeExpr

mutual

/-- A name occurs in a type. -/
def Mentions (name : FullName) : TypeExpr → Prop
  | primitive _ => False
  | array items => items.Mentions name
  | map values => values.Mentions name
  | union branches => AnyMentions name branches
  | named other => other = name

/-- A name occurs in a type of a list. -/
def AnyMentions (name : FullName) : List TypeExpr → Prop
  | [] => False
  | branch :: rest => branch.Mentions name ∨ AnyMentions name rest

end

variable {known : List FullName} {name : FullName}

mutual

/-- What occurs in a type of known names is known. -/
theorem NamesIn.mem : ∀ {t : TypeExpr}, t.NamesIn known → t.Mentions name →
    name ∈ known
  | primitive _, _, h => absurd h id
  | array items, hnames, h => NamesIn.mem (t := items) hnames h
  | map values, hnames, h => NamesIn.mem (t := values) hnames h
  | union _, hnames, h => AllNamesIn.mem hnames h
  | named _, hnames, h => h ▸ hnames

/-- What occurs in types of known names is known. -/
theorem AllNamesIn.mem : ∀ {branches : List TypeExpr},
    AllNamesIn known branches → AnyMentions name branches → name ∈ known
  | [], _, h => absurd h id
  | _ :: _, hnames, h =>
    h.elim (NamesIn.mem hnames.1) (AllNamesIn.mem hnames.2)

end

mutual

/-- **Linking keeps the references to known names.** -/
theorem Mentions.link (hname : name ∈ known) : ∀ {t t' : TypeExpr},
    t.link known = .ok t' → t.Mentions name → t'.Mentions name
  | primitive _, _, _, h => absurd h id
  | array items, t', hlink, h => by
    obtain ⟨items', hitems, rfl⟩ := exists_of_map_ok hlink
    rw [Mentions] at h ⊢
    exact Mentions.link hname hitems h
  | map values, t', hlink, h => by
    obtain ⟨values', hvalues, rfl⟩ := exists_of_map_ok hlink
    rw [Mentions] at h ⊢
    exact Mentions.link hname hvalues h
  | union branches, t', hlink, h => by
    obtain ⟨branches', hbranches, rfl⟩ := exists_of_map_ok hlink
    exact AnyMentions.link hname hbranches h
  | named other, t', hlink, h => by
    obtain rfl : other = name := h
    rw [TypeExpr.link, if_pos (List.contains_iff_mem.mpr hname)] at hlink
    exact Except.ok.inj hlink ▸ rfl

/-- Linking keeps the references to known names in each branch. -/
theorem AnyMentions.link (hname : name ∈ known) :
    ∀ {branches branches' : List TypeExpr},
      linkAll known branches = .ok branches' → AnyMentions name branches →
      AnyMentions name branches'
  | [], _, _, h => absurd h id
  | branch :: rest, branches', hlink, h => by
    obtain ⟨branch', rest', hb, hrest, rfl⟩ := linkAll_cons_ok hlink
    exact h.imp (Mentions.link hname hb) (AnyMentions.link hname hrest)

end

end TypeExpr

/-- A name occurs in the type of a field of a list. -/
def MentionedIn (fields : List Field) (name : FullName) : Prop :=
  ∃ field ∈ fields, field.type.Mentions name

/-- A name occurs in a definition. -/
def Definition.Mentions (name : FullName) : Definition → Prop
  | record r => MentionedIn r.fields name
  | enum _ | fixed _ => False

/-! ## Reaching definitions -/

/-- **Names reach definitions**: whatever holds of the names and is handed on
by the definitions holds of all of them. -/
def Reaches (start : FullName → Prop) (definitions : List Definition) : Prop :=
  ∀ known : FullName → Prop, (∀ name, start name → known name) →
    (∀ d ∈ definitions, known d.name → ∀ name, d.Mentions name → known name) →
    ∀ d ∈ definitions, known d.name

namespace Reaches

variable {start start' : FullName → Prop} {ds ds' : List Definition}

theorem nil : Reaches start [] := fun _ _ _ _ h => absurd h List.not_mem_nil

theorem mono (h : Reaches start ds) (hstart : ∀ name, start name → start' name) :
    Reaches start' ds :=
  fun known hknown => h known fun name hname => hknown name (hstart name hname)

theorem append (h : Reaches start ds) (h' : Reaches start ds') :
    Reaches start (ds ++ ds') := by
  intro known hknown hclosed d hd
  rcases List.mem_append.mp hd with hd | hd
  · exact h known hknown
      (fun x hx => hclosed x (List.mem_append_left _ hx)) d hd
  · exact h' known hknown
      (fun x hx => hclosed x (List.mem_append_right _ hx)) d hd

/-- The name of a definition reaches what is reached from inside it. -/
theorem define {d : Definition} (h : Reaches (d.Mentions ·) ds) :
    Reaches (d.name = ·) (ds ++ [d]) := by
  intro known hknown hclosed x hx
  have hlast : d ∈ ds ++ [d] :=
    List.mem_append_right _ (List.mem_singleton.mpr rfl)
  have hd : known d.name := hknown _ rfl
  rcases List.mem_append.mp hx with hx | hx
  · exact h known (hclosed d hlast hd)
      (fun y hy => hclosed y (List.mem_append_left _ hy)) x hx
  · exact List.mem_singleton.mp hx ▸ hd

end Reaches

/-- **What is declared and finished** on reading something in which some names
occur: the definitions have the declared names, and the names reach them. -/
structure Declared (start : FullName → Prop) (names : List FullName)
    (ds : List Definition) : Prop where
  /-- The names of the definitions. -/
  perm : (ds.map (·.name)).Perm names
  /-- They are reached. -/
  reaches : Reaches start ds

namespace Declared

variable {start start' : FullName → Prop} {names names' : List FullName}
  {ds ds' : List Definition}

theorem nil : Declared start [] [] := ⟨.refl _, .nil⟩

theorem mono (h : Declared start names ds)
    (hstart : ∀ name, start name → start' name) : Declared start' names ds :=
  ⟨h.perm, h.reaches.mono hstart⟩

theorem append (h : Declared start names ds) (h' : Declared start names' ds') :
    Declared start (names ++ names') (ds ++ ds') := by
  refine ⟨?_, h.reaches.append h'.reaches⟩
  rw [List.map_append]
  exact h.perm.append h'.perm

/-- A definition whose name was declared first. -/
theorem define {d : Definition} (h : Declared (d.Mentions ·) names ds) :
    Declared (d.name = ·) (d.name :: names) (ds ++ [d]) := by
  refine ⟨?_, h.reaches.define⟩
  rw [List.map_append]
  exact List.perm_append_comm.trans (h.perm.cons d.name)

end Declared

/-! ## What the document says -/

namespace Json

mutual

/-- **A type reaches what is declared in it.** -/
theorem Denotes.declared : ∀ {j : Json} {enclosing : String} {t : TypeExpr}
    {names : List FullName} {ds : List Definition},
    Denotes j enclosing t names ds → Declared t.Mentions names ds
  | _, _, _, _, _, .name | _, _, _, _, _, .annotated _ _ => .nil
  | _, _, _, _, _, .union hitems _ => hitems.declared
  | _, _, _, _, _, .wrapped _ _ hinner => hinner.declared
  | _, _, _, _, _, .array _ _ hinner | _, _, _, _, _, .map _ _ hinner =>
    hinner.declared.mono fun _ => id
  | _, _, _, _, _, .fixed _ _ _ =>
    Declared.define (d := .fixed ⟨_, _, _⟩) .nil
  | _, _, _, _, _, .enum _ _ _ _ _ =>
    Declared.define (d := .enum ⟨_, _, _, _, _⟩) .nil
  | _, _, _, _, _, .record _ _ _ _ hfields =>
    Declared.define (d := .record ⟨_, _, _, _⟩) hfields.declared

theorem DenotesAll.declared : ∀ {items : List Json} {enclosing : String}
    {branches : List TypeExpr} {names : List FullName} {ds : List Definition},
    DenotesAll items enclosing branches names ds →
    Declared (TypeExpr.AnyMentions · branches) names ds
  | _, _, _, _, _, .nil => .nil
  | _, _, _, _, _, .cons hitem hrest =>
    .append (hitem.declared.mono fun _ => .inl)
      (hrest.declared.mono fun _ => .inr)

theorem DenotesFields.declared : ∀ {record : FullName} {seen : List String}
    {items : List Json} {fields : List Field} {names : List FullName}
    {ds : List Definition}, DenotesFields record seen items fields names ds →
    Declared (MentionedIn fields) names ds
  | _, _, _, _, _, _, .nil => .nil
  | _, _, _, _, _, _, .cons _ _ _ hinner _ hrest => by
    refine .append (hinner.declared.mono fun n hn => ?_)
      (hrest.declared.mono ?_)
    · exact ⟨_, List.mem_cons_self, hn⟩
    · rintro n ⟨field, hfield, hn⟩
      exact ⟨field, List.mem_cons_of_mem _ hfield, hn⟩

end

end Json

namespace Schema

/-! ## Linking -/

/-- Linking keeps what is mentioned in a definition. -/
theorem mentions_linkDefinition {known : List FullName} {name : FullName}
    (hname : name ∈ known) {d d' : Definition}
    (hlink : linkDefinition known d = .ok d') (h : d.Mentions name) :
    d'.Mentions name := by
  cases d with
  | record r =>
    obtain ⟨fields', hfields, rfl⟩ := exists_of_map_ok hlink
    obtain ⟨field, hfield, hmention⟩ := h
    obtain ⟨field', hfield', type, htype, rfl⟩ :=
      exists_right_of_mem (linkFields_forall₂ hfields) hfield
    exact ⟨_, hfield', hmention.link hname htype⟩
  | enum e => exact absurd h id
  | fixed f => exact absurd h id

/-! ## What was read -/

/-- **A schema is complete**: its definitions have different names, and the
root reaches all of them. -/
structure Complete (s : Schema) : Prop where
  /-- The names are different. -/
  nodup : (s.definitions.map (·.name)).Nodup
  /-- The root reaches the definitions. -/
  reaches : Reaches s.root.Mentions s.definitions

end Schema

/-- Definitions with different names are found by their names. -/
theorem find?_of_nodup {ds : List Definition} (h : (ds.map (·.name)).Nodup)
    {d : Definition} (hd : d ∈ ds) : ds.find? (·.name = d.name) = some d := by
  obtain ⟨x, hx⟩ : ∃ x, ds.find? (·.name = d.name) = some x :=
    Option.isSome_iff_exists.mp (List.find?_isSome.mpr ⟨d, hd, by simp⟩)
  have hname : x.name = d.name := by simpa using List.find?_some hx
  rw [hx, List.inj_on_of_nodup_map h (List.mem_of_find?_eq_some hx) hd hname]

namespace Declared

variable {start : FullName → Prop} {declared : Declarations}

/-- In the order of the declarations, the names are the declared ones. -/
theorem map_name_inOrder
    (h : Declared start declared.names declared.finished) :
    declared.inOrder.map (·.name) = declared.names := by
  have hfound : ∀ name ∈ declared.names, ∃ d,
      declared.finished.find? (·.name = name) = some d := by
    intro name hname
    obtain ⟨d, hd, rfl⟩ := List.mem_map.mp (h.perm.mem_iff.mpr hname)
    exact Option.isSome_iff_exists.mp (List.find?_isSome.mpr ⟨d, hd, by simp⟩)
  unfold Declarations.inOrder
  generalize declared.names = names at hfound
  induction names with
  | nil => rfl
  | cons name rest ih =>
    obtain ⟨d, hd⟩ := hfound name List.mem_cons_self
    have hname : d.name = name := by simpa using List.find?_some hd
    rw [List.filterMap_cons, hd]
    dsimp only
    rw [List.map_cons, hname,
      ih fun other hother => hfound other (List.mem_cons_of_mem _ hother)]

/-- Nothing is lost in the order of the declarations. -/
theorem mem_inOrder (h : Declared start declared.names declared.finished)
    (hnodup : declared.names.Nodup) {d : Definition} :
    d ∈ declared.inOrder ↔ d ∈ declared.finished := by
  refine ⟨fun hd => ?_, fun hd => ?_⟩
  · obtain ⟨name, -, hfound⟩ := List.mem_filterMap.mp hd
    exact List.mem_of_find?_eq_some hfound
  · exact List.mem_filterMap.mpr ⟨d.name,
      h.perm.mem_iff.mp (List.mem_map_of_mem hd),
      find?_of_nodup (h.perm.nodup_iff.mpr hnodup) hd⟩

end Declared

namespace Schema

/-- The text of a document is kept. -/
theorem source_of_parse {source : String} {s : Schema}
    (h : parse source = .ok s) : s.source = source := by
  obtain ⟨-, -, -, -, -, -, hsource⟩ := exists_walked h
  exact hsource

/-- **A schema that was read is complete.** -/
theorem parse_complete {source : String} {s : Schema}
    (h : parse source = .ok s) : s.Complete := by
  obtain ⟨j, root, declared, hwalked, hroot, hlinked, -⟩ := exists_walked h
  have hnodup := hwalked.nodup
  have hdeclared := hwalked.reads.declared
  rw [hdeclared.map_name_inOrder] at hroot hlinked
  obtain ⟨hsame, hback⟩ := linkDefinitions_spec hlinked
  rw [hdeclared.map_name_inOrder] at hsame
  refine ⟨hsame ▸ hnodup, fun known hknown hclosed => ?_⟩
  -- Before linking, only references to declared names are meant.
  have hreached := hdeclared.reaches (fun n => n ∈ declared.names → known n)
    (fun n hn hmem => hknown n (hn.link hmem hroot)) (by
      intro d hd hkept n hn hmem
      obtain ⟨d', hd', hlink⟩ :=
        exists_right_of_mem (linkDefinitions_forall₂ hlinked)
          ((hdeclared.mem_inOrder hnodup).mpr hd)
      have hname : d'.name = d.name := (linkDefinition_spec hlink).1
      have hdeclaredName : d.name ∈ declared.names :=
        hdeclared.perm.mem_iff.mp (List.mem_map_of_mem hd)
      exact hclosed d' hd' (hname ▸ hkept hdeclaredName) n
        (mentions_linkDefinition hmem hlink hn))
  intro d' hd'
  obtain ⟨d, hd, hlink⟩ := hback d' hd'
  have hfinished := (hdeclared.mem_inOrder hnodup).mp hd
  rw [(linkDefinition_spec hlink).1]
  exact hreached d hfinished
    (hdeclared.perm.mem_iff.mp (List.mem_map_of_mem hfinished))

end Schema

end Avro
