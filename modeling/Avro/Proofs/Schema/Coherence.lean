import Mathlib
import Avro.Proofs.Schema.Acceptance

/-!
# Schemas that were read are coherent

All that works on a schema relies on its being coherent without ever looking
(`Schema.Coherent`): every type that stands in it can be resolved, its table
has one definition for each name and none that cannot be reached, and its
unions, records and enums are as the format wants them.

Unions, records and enums come out right where they are read
(`Json.Denotes.flat`), and linking moves references but leaves the form of
types as it is (`TypeExpr.Flat.link`). The references and the table are
what linking and the walk see to, as was shown before. Together with what
decides whether a document is accepted, this is what can be said about reading
documents (`Schema.parse_represents`).
-/

namespace Avro

/-! ## The types that stand in a type -/

namespace TypeExpr

/-- **A node of a type**: the type itself, or a node of a type in it. -/
inductive HasNode : TypeExpr → (node : TypeExpr) → Prop
  /-- The type itself. -/
  | here {t : TypeExpr} : HasNode t t
  /-- A node of the items. -/
  | items {items node : TypeExpr} (h : HasNode items node) :
    HasNode (array items) node
  /-- A node of the values. -/
  | values {values node : TypeExpr} (h : HasNode values node) :
    HasNode (map values) node
  /-- A node of a branch. -/
  | branch {branches : List TypeExpr} {branch node : TypeExpr}
    (mem : branch ∈ branches) (h : HasNode branch node) :
    HasNode (union branches) node

mutual

/-- A mentioned name is a node. -/
theorem Mentions.hasNode {n : FullName} : ∀ {t : TypeExpr}, t.Mentions n →
    t.HasNode (named n)
  | primitive _, h => absurd h id
  | array items, h => .items (Mentions.hasNode (t := items) h)
  | map values, h => .values (Mentions.hasNode (t := values) h)
  | union _, h =>
    have ⟨_, hmem, hnode⟩ := AnyMentions.hasNode h
    .branch hmem hnode
  | named _, h => h ▸ .here

theorem AnyMentions.hasNode {n : FullName} : ∀ {branches : List TypeExpr},
    AnyMentions n branches → ∃ branch ∈ branches, branch.HasNode (named n)
  | [], h => absurd h id
  | _ :: _, .inl h => ⟨_, List.mem_cons_self, h.hasNode⟩
  | _ :: _, .inr h =>
    have ⟨branch, hmem, hnode⟩ := AnyMentions.hasNode h
    ⟨branch, List.mem_cons_of_mem _ hmem, hnode⟩

end

/-- The names in a node are names in the type. -/
theorem NamesIn.of_hasNode {known : List FullName} {node t : TypeExpr}
    (h : t.HasNode node) (hnames : t.NamesIn known) : node.NamesIn known := by
  induction h with
  | here => exact hnames
  | items _ ih => exact ih hnames
  | values _ ih => exact ih hnames
  | branch mem _ ih => exact ih (AllNamesIn.mem_branches hnames _ mem)

/-! ## Flat unions -/

/-- **No union is a branch of a union** in a type. -/
def Flat (t : TypeExpr) : Prop :=
  ∀ branches, t.HasNode (union branches) → ∀ branch ∈ branches,
    branch.isUnion = false

namespace Flat

theorem array {items : TypeExpr} (h : items.Flat) : (TypeExpr.array items).Flat
  | branches, .items hnode => h branches hnode

theorem map {values : TypeExpr} (h : values.Flat) : (TypeExpr.map values).Flat
  | branches, .values hnode => h branches hnode

theorem union {branches : List TypeExpr}
    (h : ∀ branch ∈ branches, branch.Flat ∧ branch.isUnion = false) :
    (TypeExpr.union branches).Flat := by
  intro others hnode
  cases hnode with
  | here => exact fun branch hmem => (h branch hmem).2
  | branch mem hnode => exact (h _ mem).1 others hnode

theorem branch {branches : List TypeExpr} (h : (TypeExpr.union branches).Flat)
    {branch : TypeExpr} (hmem : branch ∈ branches) :
    branch.Flat ∧ branch.isUnion = false :=
  ⟨fun others hnode => h others (.branch hmem hnode),
    h branches .here branch hmem⟩

theorem typeOfName (text enclosing : String) :
    (Schema.typeOfName text enclosing).Flat := by
  unfold Schema.typeOfName
  split <;> exact nofun

end Flat

variable {known : List FullName}

/-- Linking makes no union and removes none. -/
theorem link_isUnion {t t' : TypeExpr} (h : t.link known = .ok t') :
    t'.isUnion = t.isUnion := by
  cases t with
  | primitive p =>
    rw [link] at h
    obtain rfl := Except.ok.inj h
    rfl
  | array items | map values | union branches =>
    obtain ⟨_, _, rfl⟩ := exists_of_map_ok h
    rfl
  | named name =>
    obtain ⟨_, rfl, -⟩ := link_named_ok h
    rfl

mutual

/-- **Linking leaves unions flat.** -/
theorem Flat.link : ∀ {t t' : TypeExpr}, t.link known = .ok t' → t.Flat →
    t'.Flat
  | primitive p, t', h, _ => by
    rw [TypeExpr.link] at h
    obtain rfl := Except.ok.inj h
    exact nofun
  | array items, t', h, hflat => by
    obtain ⟨items', hitems, rfl⟩ := exists_of_map_ok h
    exact .array (Flat.link hitems fun _ hnode => hflat _ (.items hnode))
  | map values, t', h, hflat => by
    obtain ⟨values', hvalues, rfl⟩ := exists_of_map_ok h
    exact .map (Flat.link hvalues fun _ hnode => hflat _ (.values hnode))
  | union branches, t', h, hflat => by
    obtain ⟨branches', hbranches, rfl⟩ := exists_of_map_ok h
    exact .union (flat_linkAll hbranches fun _ => hflat.branch)
  | named name, t', h, _ => by
    obtain ⟨name', rfl, -⟩ := link_named_ok h
    exact nofun

theorem flat_linkAll : ∀ {branches branches' : List TypeExpr},
    linkAll known branches = .ok branches' →
    (∀ branch ∈ branches, branch.Flat ∧ branch.isUnion = false) →
    ∀ branch ∈ branches', branch.Flat ∧ branch.isUnion = false
  | [], branches', h, _ => by
    rw [linkAll] at h
    obtain rfl := Except.ok.inj h
    exact nofun
  | branch :: rest, branches', h, hflat => by
    obtain ⟨branch', rest', hb, hrest, rfl⟩ := linkAll_cons_ok h
    obtain ⟨hbranch, hothers⟩ := List.forall_mem_cons.mp hflat
    refine List.forall_mem_cons.mpr ⟨⟨Flat.link hb hbranch.1, ?_⟩,
      flat_linkAll hrest hothers⟩
    rw [link_isUnion hb, hbranch.2]

end

end TypeExpr

/-! ## What the document says -/

/-- **A definition is checked**: the types of fields are flat, and the default
of an enum is one of its symbols. -/
structure Definition.Checked (d : Definition) : Prop where
  /-- The types of fields. -/
  flat : ∀ r, d = .record r → ∀ field ∈ r.fields, field.type.Flat
  /-- The default of an enum. -/
  symbol : ∀ e, d = .enum e → ∀ symbol, e.default = some symbol →
    symbol ∈ e.symbols

namespace Json

mutual

/-- **A type that is read is flat**, and definitions on the way are checked. -/
theorem Denotes.flat : ∀ {j : Json} {enclosing : String} {t : TypeExpr}
    {names : List FullName} {ds : List Definition},
    Denotes j enclosing t names ds → t.Flat ∧ ∀ d ∈ ds, d.Checked
  | _, _, _, _, _, .name | _, _, _, _, _, .annotated _ _ =>
    ⟨.typeOfName _ _, nofun⟩
  | _, _, _, _, _, .union hitems flat =>
    have ⟨hbranches, hds⟩ := hitems.flat
    ⟨.union fun branch hmem => ⟨hbranches branch hmem,
      Bool.eq_false_iff.mpr (List.any_eq_false.mp flat branch hmem)⟩, hds⟩
  | _, _, _, _, _, .wrapped _ _ hinner => hinner.flat
  | _, _, _, _, _, .array _ _ hinner =>
    ⟨hinner.flat.1.array, hinner.flat.2⟩
  | _, _, _, _, _, .map _ _ hinner => ⟨hinner.flat.1.map, hinner.flat.2⟩
  | _, _, _, _, _, .fixed _ _ _ =>
    ⟨nofun, List.forall_mem_singleton.mpr ⟨nofun, nofun⟩⟩
  | _, _, _, _, _, .enum _ _ _ _ hdefault =>
    ⟨nofun, List.forall_mem_singleton.mpr ⟨nofun, fun _ he =>
      Definition.enum.inj he ▸ hdefault⟩⟩
  | _, _, _, _, _, .record _ _ _ _ hfields => by
    refine ⟨nofun, List.forall_mem_append.mpr ⟨hfields.flat.2,
      List.forall_mem_singleton.mpr ⟨fun r hr => ?_, nofun⟩⟩⟩
    exact Definition.record.inj hr ▸ hfields.flat.1

theorem DenotesAll.flat : ∀ {items : List Json} {enclosing : String}
    {branches : List TypeExpr} {names : List FullName} {ds : List Definition},
    DenotesAll items enclosing branches names ds →
    (∀ branch ∈ branches, branch.Flat) ∧ ∀ d ∈ ds, d.Checked
  | _, _, _, _, _, .nil => ⟨nofun, nofun⟩
  | _, _, _, _, _, .cons hitem hrest =>
    ⟨List.forall_mem_cons.mpr ⟨hitem.flat.1, hrest.flat.1⟩,
      List.forall_mem_append.mpr ⟨hitem.flat.2, hrest.flat.2⟩⟩

theorem DenotesFields.flat : ∀ {record : FullName} {seen : List String}
    {items : List Json} {fields : List Field} {names : List FullName}
    {ds : List Definition}, DenotesFields record seen items fields names ds →
    (∀ field ∈ fields, field.type.Flat) ∧ ∀ d ∈ ds, d.Checked
  | _, _, _, _, _, _, .nil => ⟨nofun, nofun⟩
  | _, _, _, _, _, _, .cons _ _ _ hinner _ hrest =>
    ⟨List.forall_mem_cons.mpr ⟨hinner.flat.1, hrest.flat.1⟩,
      List.forall_mem_append.mpr ⟨hinner.flat.2, hrest.flat.2⟩⟩

end

end Json

namespace Schema

variable {known : List FullName}

/-- **A linked definition is checked** if the definition is. -/
theorem checked_linkDefinition {d d' : Definition}
    (h : linkDefinition known d = .ok d') (hd : d.Checked) : d'.Checked := by
  cases d with
  | record r =>
    obtain ⟨fields', hfields, rfl⟩ := exists_of_map_ok h
    refine ⟨fun r' hr' field' hfield' => ?_, nofun⟩
    obtain rfl := Definition.record.inj hr'
    obtain ⟨field, hfield, type, htype, rfl⟩ :=
      exists_left_of_mem (linkFields_forall₂ hfields) hfield'
    exact TypeExpr.Flat.link htype (hd.flat r rfl field hfield)
  | enum e | fixed f =>
    obtain rfl := Except.ok.inj h
    exact hd

/-! ## Coherence -/

/-- **A type stands in a schema**: in the root, or in the type of a field of a
record. -/
def HasNode (s : Schema) (t : TypeExpr) : Prop :=
  s.root.HasNode t ∨ ∃ r, .record r ∈ s.definitions
    ∧ ∃ field ∈ r.fields, field.type.HasNode t

/-- **A definition can be reached** from the root, through the types of
fields. -/
inductive Reached (s : Schema) : Definition → Prop
  /-- It stands in the root. -/
  | root {d : Definition} (mem : d ∈ s.definitions)
    (node : s.root.HasNode (.named d.name)) : Reached s d
  /-- It stands in a field of a record that can be reached. -/
  | field {r : RecordType} {field : Field} {d : Definition}
    (h : Reached s (.record r)) (hfield : field ∈ r.fields)
    (mem : d ∈ s.definitions) (node : field.type.HasNode (.named d.name)) :
    Reached s d

/-- **A schema is coherent**: what works on it may rely on this. -/
structure Coherent (s : Schema) : Prop where
  /-- Every type that stands in the schema has a shape. -/
  resolves : ∀ t, s.HasNode t → ∃ shape, s.shape? t = some shape
  /-- Every reference is to a definition. -/
  refers : ∀ n, s.HasNode (.named n) →
    ∃ d ∈ s.definitions, d.name = n ∧ s.definition? n = some d
  /-- Every definition is found under its own name. -/
  found : ∀ d ∈ s.definitions, s.definition? d.name = some d
  /-- No name is defined twice. -/
  distinct : (s.definitions.map (·.name)).Nodup
  /-- Every definition can be reached. -/
  reached : ∀ d ∈ s.definitions, s.Reached d
  /-- No branch of a union is a union. -/
  flat : ∀ branches, s.HasNode (.union branches) →
    ∀ branch ∈ branches, branch.isUnion = false
  /-- The fields of a record have different names. -/
  fields : ∀ r, .record r ∈ s.definitions → (r.fields.map (·.name)).Nodup
  /-- The default of an enum is one of its symbols. -/
  symbol : ∀ e, .enum e ∈ s.definitions →
    ∀ symbol, e.default = some symbol → symbol ∈ e.symbols

/-- Types of known names have shapes. -/
theorem exists_shape {s : Schema} {t : TypeExpr}
    (h : t.NamesIn (s.definitions.map (·.name))) :
    ∃ shape, s.shape? t = some shape := by
  cases t with
  | named n =>
    obtain ⟨d, hd⟩ := WellFormed.definition?_of_mem h
    rw [shape?, hd]
    cases d <;> exact ⟨_, rfl⟩
  | _ => exact ⟨_, rfl⟩

/-- The names in a well-formed schema are those of definitions. -/
theorem WellFormed.namesIn {s : Schema} (h : s.WellFormed) {t : TypeExpr} :
    s.HasNode t → t.NamesIn (s.definitions.map (·.name))
  | .inl hnode => .of_hasNode hnode h.root
  | .inr ⟨r, hr, field, hfield, hnode⟩ =>
    .of_hasNode hnode (h.field r hr field hfield)

/-- **Definitions of a complete schema can be reached.** -/
theorem Complete.reached {s : Schema} (h : s.Complete) :
    ∀ d ∈ s.definitions, s.Reached d := by
  intro d hd
  -- The names all of whose definitions are reached are such a closed set.
  refine h.reaches (fun n => ∀ d ∈ s.definitions, d.name = n → s.Reached d)
    ?_ ?_ d hd d hd rfl
  · rintro n hn d hd rfl
    exact .root hd hn.hasNode
  · intro d hd hreached n hn d' hd' hname
    cases d with
    | record r =>
      obtain ⟨field, hfield, hmentions⟩ := hn
      exact .field (hreached _ hd rfl) hfield hd' (hname ▸ hmentions.hasNode)
    | enum e => exact absurd hn id
    | fixed f => exact absurd hn id

/-- **The unions, records and enums of a schema that was read** are as they
were in the document. -/
theorem checked_of_parse {source : String} {s : Schema}
    (h : parse source = .ok s) :
    s.root.Flat ∧ ∀ d ∈ s.definitions, d.Checked := by
  obtain ⟨j, root, declared, hwalked, hroot, hdefinitions, -⟩ := exists_walked h
  obtain ⟨hflat, hchecked⟩ := hwalked.reads.flat
  refine ⟨TypeExpr.Flat.link hroot hflat, fun d hd => ?_⟩
  obtain ⟨d', hd', hlink⟩ := (linkDefinitions_spec hdefinitions).2 d hd
  exact checked_linkDefinition hlink (hchecked d'
    ((hwalked.reads.declared.mem_inOrder hwalked.nodup).mp hd'))

/-- **A schema that was read is coherent.** -/
theorem parse_coherent {source : String} {s : Schema}
    (h : parse source = .ok s) : s.Coherent := by
  have hformed := parse_wellFormed h
  have hcomplete := parse_complete h
  obtain ⟨hroot, hchecked⟩ := checked_of_parse h
  have hfound : ∀ d ∈ s.definitions, s.definition? d.name = some d :=
    fun d hd => find?_of_nodup hcomplete.nodup hd
  refine ⟨fun t ht => exists_shape (hformed.namesIn ht), fun n hn => ?_, hfound,
    hcomplete.nodup, hcomplete.reached, ?_,
    fun r hr => (hformed.regular _ hr).distinct r rfl,
    fun e he => (hchecked _ he).symbol e rfl⟩
  · obtain ⟨d, hd, rfl⟩ := List.mem_map.mp (hformed.namesIn hn)
    exact ⟨d, hd, rfl, hfound d hd⟩
  · rintro branches (hnode | ⟨r, hr, field, hfield, hnode⟩)
    · exact hroot branches hnode
    · exact (hchecked _ hr).flat r rfl field hfield branches hnode

/-! ## Reading documents -/

/-- **A schema is what its document says**, with the references linked: the
definitions that the document finishes are listed under the names it declares,
in the order in which it declares them. -/
structure Represents (s : Schema) (j : Json) : Prop where
  /-- What the document says is linked. -/
  linked : ∃ root ds, Json.Denotes j "" root (s.definitions.map (·.name)) ds
    ∧ (ds.map (·.name)).Perm (s.definitions.map (·.name))
    ∧ root.link (s.definitions.map (·.name)) = .ok s.root
    ∧ ∀ d ∈ s.definitions, ∃ d' ∈ ds,
      linkDefinition (s.definitions.map (·.name)) d' = .ok d
  /-- The names are those that are declared somewhere in the document. -/
  declares : ∀ n, n ∈ s.definitions.map (·.name) ↔ j.Declares n

theorem exists_represents {source : String} {s : Schema}
    (h : parse source = .ok s) :
    ∃ j, Json.parse source = .ok j ∧ s.Represents j := by
  obtain ⟨j, root, declared, hwalked, hroot, hdefinitions, -⟩ := exists_walked h
  have hdeclared := hwalked.reads.declared
  rw [hdeclared.map_name_inOrder] at hroot hdefinitions
  obtain ⟨hnames, hlinked⟩ := linkDefinitions_spec hdefinitions
  rw [hdeclared.map_name_inOrder] at hnames
  refine ⟨j, hwalked.json, ⟨root, declared.finished, ?_⟩, fun n => ?_⟩
  · rw [hnames]
    refine ⟨hwalked.reads, hdeclared.perm, hroot, fun d hd => ?_⟩
    obtain ⟨d', hd', hlink⟩ := hlinked d hd
    exact ⟨d', (hdeclared.mem_inOrder hwalked.nodup).mp hd', hlink⟩
  · rw [hnames]
    exact hwalked.accounts.declared n

/-- **Reading documents**: a schema that was read is coherent, and is what its
document says. A document with which nothing else is wrong is rejected for a
reference if one of its references dangles, and is otherwise accepted; and the
reference for which a document is rejected is one that dangles. -/
theorem parse_represents (source : String) :
    (∀ s, parse source = .ok s →
      s.Coherent ∧ ∃ j, Json.parse source = .ok j ∧ s.Represents j)
    ∧ (∀ j, Json.parse source = .ok j → j.WellMade →
      ((∃ n, parse source = .error (.unresolvedReference n))
          ↔ ∃ n, j.Dangles n)
        ∧ ((∃ s, parse source = .ok s) ↔ ∀ n, ¬ j.Dangles n))
    ∧ ∀ n, parse source = .error (.unresolvedReference n) →
      ∃ j, Json.parse source = .ok j ∧ j.WellMade ∧ j.Dangles n :=
  ⟨fun _ h => ⟨parse_coherent h, exists_represents h⟩,
    fun _ hj h => ⟨parse_unresolved_iff hj h, parse_ok_iff hj h⟩,
    fun _ => dangles_of_parse⟩

end Schema

namespace Ahead

/-- A document that refers to a record inside the record, and to a type of the
null namespace before it is defined. -/
def written : String :=
  "\x7b\"type\":\"record\",\"name\":\"n.R\",\"fields\":[" ++
    "\x7b\"name\":\"a\",\"type\":[\"R\",\"S\"]\x7d," ++
    "\x7b\"name\":\"b\",\"type\":\x7b\"type\":\"fixed\"," ++
    "\"name\":\"S\",\"namespace\":\"\",\"size\":2\x7d\x7d]\x7d"

/-- The same without the definition. -/
def stray : String :=
  "\x7b\"type\":\"record\",\"name\":\"n.R\",\"fields\":[" ++
    "\x7b\"name\":\"a\",\"type\":[\"R\",\"S\"]\x7d]\x7d"

theorem parse_written : Schema.parse written = .ok
    ⟨.named ⟨"R", "n"⟩,
      [.record ⟨⟨"R", "n"⟩, [],
        [⟨"a", .union [.named ⟨"R", "n"⟩, .named ⟨"S", ""⟩], [], none, none⟩,
          ⟨"b", .named ⟨"S", ""⟩, [], none, none⟩], none⟩,
        .fixed ⟨⟨"S", ""⟩, [], 2⟩], written⟩ := by
  have hchars : written.toList = _ :=
    toList_append_eq (toList_append_eq (toList_append_eq String.toList_ofList
      String.toList_ofList) String.toList_ofList) String.toList_ofList
  rw [Schema.parse, Json.parse, hchars]
  cbv

theorem parse_stray :
    Schema.parse stray = .error (.unresolvedReference ⟨"S", "n"⟩) := by
  have hchars : stray.toList = _ :=
    toList_append_eq String.toList_ofList String.toList_ofList
  rw [Schema.parse, Json.parse, hchars]
  cbv

/-- The first document is read, the second is not. -/
theorem represented :
    (∃ s, Schema.parse written = .ok s ∧ s.Coherent
      ∧ ∃ j, Json.parse written = .ok j ∧ s.Represents j)
    ∧ ∃ j, Json.parse stray = .ok j ∧ j.WellMade ∧ j.Dangles ⟨"S", "n"⟩ :=
  ⟨⟨_, parse_written, (Schema.parse_represents written).1 _ parse_written⟩,
    (Schema.parse_represents stray).2.2 _ parse_stray⟩

end Ahead

end Avro
