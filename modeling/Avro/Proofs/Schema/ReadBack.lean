import Avro.Fingerprint
import Avro.Proofs.Schema.Rereading
import Avro.Proofs.Schema.SameForm

/-!
# What a canonical form is read as

A form writes every definition of a schema once, without what is stripped
(`Schema.mem_canonical_definitions`, `Schema.names_canonical_perm`), and what it
writes of a schema that was read can be read (`Schema.legible_canonical`). So
the document of the form says the form as it is read, and if this is linked
back to the form itself, the form is read as a schema with its definitions
(`Canonical.parse_text_eq_of_linked`).

Reading gives names a namespace and never takes one away. So the definitions
that are read are named as they were written if as many of them are of the null
namespace (`Canonical.NamesReread.eq_of_countP`).
-/

namespace Avro

/-! ## What a form writes out -/

namespace Schema

/-- **A walk writes new definitions**: their names are met besides the names
that were met before. -/
def WritesNew (form : Canonical × List FullName) (seen : List FullName) : Prop :=
  (form.1.definitions.map (·.name) ++ seen).Subperm form.2

/-- Names are written one after another. -/
theorem subperm_append {names names' seen middle after : List FullName}
    (h : (names ++ seen).Subperm middle) (h' : (names' ++ middle).Subperm after) :
    (names ++ names' ++ seen).Subperm after := by
  have hmoved : (names ++ names' ++ seen).Perm (names' ++ (names ++ seen)) := by
    rw [← List.append_assoc]
    exact List.perm_append_comm.append_right seen
  exact hmoved.subperm.trans (((List.subperm_append_left names').mpr h).trans h')

variable {onName : FullName → List FullName → Canonical × List FullName}

mutual

theorem writesNew_canonicalWith (h : ∀ name seen, WritesNew (onName name seen) seen) :
    ∀ (t : TypeExpr) (seen : List FullName),
      WritesNew (t.canonicalWith onName seen) seen
  | .primitive _, seen => List.Subperm.refl seen
  | .array items, seen => writesNew_canonicalWith h items seen
  | .map values, seen => writesNew_canonicalWith h values seen
  | .union branches, seen => writesNew_canonicalAll h branches seen
  | .named name, seen => h name seen

theorem writesNew_canonicalAll (h : ∀ name seen, WritesNew (onName name seen) seen) :
    ∀ (branches : List TypeExpr) (seen : List FullName),
      ((Canonical.definitionsAll (TypeExpr.canonicalAll onName branches seen).1).map
        (·.name) ++ seen).Subperm (TypeExpr.canonicalAll onName branches seen).2
  | [], seen => List.Subperm.refl seen
  | branch :: rest, seen => by
    have hbranch := writesNew_canonicalWith h branch seen
    have hrest := writesNew_canonicalAll h rest
      (branch.canonicalWith onName seen).2
    rw [TypeExpr.canonicalAll, Canonical.definitionsAll, List.map_append]
    exact subperm_append hbranch hrest

end

theorem writesNew_canonicalFields (h : ∀ name seen, WritesNew (onName name seen) seen) :
    ∀ (fields : List Field) (seen : List FullName),
      ((Canonical.definitionsFields (canonicalFields onName fields seen).1).map
        (·.name) ++ seen).Subperm (canonicalFields onName fields seen).2
  | [], seen => List.Subperm.refl seen
  | field :: rest, seen => by
    have htype := writesNew_canonicalWith h field.type seen
    have hrest := writesNew_canonicalFields h rest
      (field.type.canonicalWith onName seen).2
    rw [canonicalFields, Canonical.definitionsFields, List.map_append]
    exact subperm_append htype hrest

variable {s : Schema}

theorem writesNew_canonicalName : ∀ (budget : Nat) (name : FullName)
    (seen : List FullName), WritesNew (s.canonicalName budget name seen) seen
  | 0, _, seen => List.Subperm.refl seen
  | budget + 1, name, seen => by
    unfold canonicalName
    split
    · exact List.Subperm.refl seen
    · dsimp only
      cases s.definition? name with
      | none => exact (List.sublist_cons_self name seen).subperm
      | some d =>
        cases d with
        | record r =>
          have hfields := writesNew_canonicalFields
            (writesNew_canonicalName budget) r.fields (name :: seen)
          exact List.perm_middle.symm.subperm.trans hfields
        | enum e => exact List.Subperm.refl _
        | fixed f => exact List.Subperm.refl _

/-- **A form writes no definition twice.** -/
theorem nodup_canonical_definitions (h : s.WellFormed) (hclear : s.Clear) :
    (s.canonical.definitions.map (·.name)).Nodup := by
  have hnew := writesNew_canonicalWith (writesNew_canonicalName
    (s := s) (s.definitions.length + 1)) s.root []
  rw [WritesNew, List.append_nil] at hnew
  obtain ⟨names, hperm, hsublist⟩ := hnew
  exact hperm.nodup_iff.mp
    ((spelledAs_canonical h hclear).spelled.met.nodup.sublist hsublist)

/-- A definition is written out if and only if it is a stripped definition. -/
theorem mem_canonical_definitions (h : s.WellFormed) (hcomplete : s.Complete)
    (hclear : s.Clear) {d : Definition} :
    d ∈ s.canonical.definitions
      ↔ (s.definition? d.name).map Definition.stripped = some d := by
  refine ⟨definition?_of_mem_definitions h hclear, fun hd => ?_⟩
  obtain ⟨x, hx, hstripped⟩ := Option.map_eq_some_iff.mp hd
  exact hstripped ▸ stripped_mem_definitions h hcomplete hclear hx

/-- The names that are written out are those of the definitions. -/
theorem names_canonical_perm (h : s.WellFormed) (hcomplete : s.Complete)
    (hclear : s.Clear) :
    (s.canonical.definitions.map (·.name)).Perm
      (s.definitions.map (·.name)) := by
  refine (List.perm_ext_iff_of_nodup (nodup_canonical_definitions h hclear)
    hcomplete.nodup).mpr fun n => ⟨fun hn => ?_, fun hn => ?_⟩
  · obtain ⟨d, hd, rfl⟩ := List.mem_map.mp hn
    obtain ⟨x, hx, -⟩ := Option.map_eq_some_iff.mp
      (definition?_of_mem_definitions h hclear hd)
    exact List.mem_map.mpr
      ⟨x, List.mem_of_find?_eq_some hx, definition?_name hx⟩
  · obtain ⟨x, hx, rfl⟩ := List.mem_map.mp hn
    exact List.mem_map.mpr ⟨x.stripped, stripped_mem_definitions h hcomplete
      hclear (find?_of_nodup hcomplete.nodup hx), x.name_stripped⟩

end Schema

/-! ## What can be read of a form -/

/-- A stripped definition is checked. -/
theorem Definition.Checked.stripped {d : Definition} (h : d.Checked) :
    d.stripped.Checked := by
  cases d with
  | record r =>
    refine ⟨fun r' hr' field hfield => ?_, nofun⟩
    obtain rfl := Definition.record.inj hr'
    obtain ⟨field', hfield', rfl⟩ := List.mem_map.mp hfield
    exact h.flat r rfl field' hfield'
  | enum e =>
    refine ⟨nofun, fun e' he' symbol hsymbol => ?_⟩
    obtain rfl := Definition.enum.inj he'
    exact absurd hsymbol nofun
  | fixed f => exact ⟨nofun, nofun⟩

/-- A stripped definition is regular. -/
theorem Definition.Regular.stripped {d : Definition} (h : d.Regular) :
    d.stripped.Regular := by
  refine ⟨d.name_stripped ▸ h.plain, ?_, ?_⟩
  · intro r hr
    cases d with
    | record r' =>
      obtain rfl := Definition.record.inj hr
      rw [List.map_map]
      exact h.distinct r' rfl
    | _ => exact Definition.noConfusion hr
  · intro r hr field hfield
    cases d with
    | record r' =>
      obtain rfl := Definition.record.inj hr
      obtain ⟨field', -, rfl⟩ := List.mem_map.mp hfield
      exact nofun
    | _ => exact Definition.noConfusion hr

namespace Json

open Canonical (SizesFit)

/-- An integer that fits has a value that fits. -/
theorem Bounded.nat?_lt {j : Json} (h : j.Bounded) {n : Nat}
    (hn : j.nat? = some n) : n < 0x10000000000000000 := by
  cases h with
  | integer hlt =>
    rw [nat?] at hn
    split at hn
    · obtain rfl := Option.some.inj hn
      omega
    · exact absurd hn nofun
  | _ => exact absurd hn nofun

theorem bounded_of_find? {members : Members} (h : ∀ m ∈ members, m.2.Bounded)
    {key : String} {j : Json} (hj : Entries.find? key members = some j) :
    j.Bounded :=
  h _ (Entries.mem_of_find? hj)

theorem bounded_items_of_find? {members : Members}
    (h : ∀ m ∈ members, m.2.Bounded) {key : String} {items : List Json}
    (hj : Entries.find? key members = some (.array items)) :
    ∀ item ∈ items, item.Bounded := by
  cases bounded_of_find? h hj with
  | array hitems => exact hitems

theorem sizesFit_append {ds ds' : List Definition} (h : SizesFit ds)
    (h' : SizesFit ds') : SizesFit (ds ++ ds') :=
  fun f hf => (List.mem_append.mp hf).elim (h f) (h' f)

mutual

/-- **The sizes in a document fit** if its integers do. -/
theorem Denotes.sizesFit : ∀ {j : Json} {enclosing : String} {t : TypeExpr}
    {names : List FullName} {ds : List Definition},
    Denotes j enclosing t names ds → j.Bounded → SizesFit ds
  | _, _, _, _, _, .name, _ | _, _, _, _, _, .annotated _ _, _ => nofun
  | _, _, _, _, _, .union hitems _, .array hbounded => hitems.sizesFit hbounded
  | _, _, _, _, _, .wrapped word _ hinner, .object hmembers =>
    hinner.sizesFit (bounded_of_find? hmembers word)
  | _, _, _, _, _, .array _ items hinner, .object hmembers =>
    hinner.sizesFit (bounded_of_find? hmembers items)
  | _, _, _, _, _, .map _ values hinner, .object hmembers =>
    hinner.sizesFit (bounded_of_find? hmembers values)
  | _, _, _, _, _, .fixed _ _ hsize, .object hmembers => fun f hf => by
    obtain rfl := Definition.fixed.inj (List.mem_singleton.mp hf)
    obtain ⟨j, hj, hn⟩ := Option.bind_eq_some_iff.mp hsize
    exact (bounded_of_find? hmembers hj).nat?_lt hn
  | _, _, _, _, _, .enum _ _ _ _ _, _ => fun f hf =>
    Definition.noConfusion (List.mem_singleton.mp hf)
  | _, _, _, _, _, .record _ _ _ listed hfields, .object hmembers =>
    sizesFit_append (hfields.sizesFit (bounded_items_of_find? hmembers listed))
      fun f hf => Definition.noConfusion (List.mem_singleton.mp hf)

theorem DenotesAll.sizesFit : ∀ {items : List Json} {enclosing : String}
    {branches : List TypeExpr} {names : List FullName} {ds : List Definition},
    DenotesAll items enclosing branches names ds →
    (∀ item ∈ items, item.Bounded) → SizesFit ds
  | _, _, _, _, _, .nil, _ => nofun
  | _, _, _, _, _, .cons hitem hrest, hbounded =>
    have ⟨hfirst, hothers⟩ := List.forall_mem_cons.mp hbounded
    sizesFit_append (hitem.sizesFit hfirst) (hrest.sizesFit hothers)

theorem DenotesFields.sizesFit : ∀ {record : FullName} {seen : List String}
    {items : List Json} {fields : List Field} {names : List FullName}
    {ds : List Definition}, DenotesFields record seen items fields names ds →
    (∀ item ∈ items, item.Bounded) → SizesFit ds
  | _, _, _, _, _, _, .nil, _ => nofun
  | _, _, _, _, _, _, .cons _ _ typed hinner _ hrest, hbounded => by
    obtain ⟨hfirst, hothers⟩ := List.forall_mem_cons.mp hbounded
    cases hfirst with
    | object hmembers =>
      exact sizesFit_append (hinner.sizesFit (bounded_of_find? hmembers typed))
        (hrest.sizesFit hothers)

end

end Json

namespace Schema

variable {s : Schema} {source : String}

/-- **The sizes in a schema that was read fit** in 64 bits. -/
theorem sizesFit_of_parse (h : parse source = .ok s) :
    Canonical.SizesFit s.definitions := by
  obtain ⟨j, root, declared, hwalked, -, hdefinitions, -⟩ := exists_walked h
  have hfit := hwalked.reads.sizesFit (Json.parse_bounded hwalked.json)
  intro f hf
  obtain ⟨d, hd, hlink⟩ := (linkDefinitions_spec hdefinitions).2 _ hf
  cases d with
  | record r =>
    obtain ⟨_, _, hrecord⟩ := exists_of_map_ok hlink
    exact Definition.noConfusion hrecord
  | enum e => exact Definition.noConfusion (Except.ok.inj hlink)
  | fixed f' =>
    obtain rfl := Definition.fixed.inj (Except.ok.inj hlink)
    exact hfit f' ((hwalked.reads.declared.mem_inOrder hwalked.nodup).mp hd)

/-- **What is written of a schema that was read** can be read. -/
theorem legible_canonical (h : parse source = .ok s) (hclear : s.Clear) :
    s.canonical.Legible ∧ Canonical.SizesFit s.canonical.definitions := by
  have hformed := parse_wellFormed h
  have hspelled := spelledAs_canonical hformed hclear
  obtain ⟨hroot, hchecked⟩ := checked_of_parse h
  have hstripped : ∀ d ∈ s.canonical.definitions,
      ∃ x ∈ s.definitions, x.stripped = d := by
    intro d hd
    obtain ⟨x, hx, hstripped⟩ := Option.map_eq_some_iff.mp
      (definition?_of_mem_definitions hformed hclear hd)
    exact ⟨x, List.mem_of_find?_eq_some hx, hstripped⟩
  refine ⟨⟨hspelled.clear, ?_, ?_⟩, ?_⟩
  · rw [show s.canonical.type = s.root from hspelled.type]
    exact hroot
  · intro d hd
    obtain ⟨x, hx, rfl⟩ := hstripped d hd
    exact ⟨(hchecked x hx).stripped, (hformed.regular x hx).stripped⟩
  · intro f hf
    obtain ⟨x, hx, heq⟩ := hstripped _ hf
    cases x with
    | fixed f' =>
      obtain rfl := Definition.fixed.inj heq
      exact sizesFit_of_parse h f' hx
    | _ => exact Definition.noConfusion heq

/-- What is mentioned in the form of a schema is defined. -/
theorem defined_of_mentions_canonical (h : s.WellFormed) (hclear : s.Clear) :
    (∀ n, s.canonical.type.Mentions n → n ∈ s.definitions.map (·.name))
      ∧ ∀ d ∈ s.canonical.definitions, ∀ n, d.Mentions n →
        n ∈ s.definitions.map (·.name) := by
  refine ⟨fun n hn => h.root.mem ?_, fun d hd n hn => ?_⟩
  · rwa [show s.canonical.type = s.root from (spelledAs_canonical h hclear).type]
      at hn
  · obtain ⟨x, hx, rfl⟩ := Option.map_eq_some_iff.mp
      (definition?_of_mem_definitions h hclear hd)
    obtain ⟨d', hd'⟩ := h.defined_of_mentions hx
      (Definition.mentions_stripped.mp hn)
    exact List.mem_map.mpr
      ⟨d', List.mem_of_find?_eq_some hd', definition?_name hd'⟩

/-- **Linking definitions** links each of them. -/
theorem linkDefinitions_ok_iff {known : List FullName} :
    ∀ {ds ds' : List Definition}, linkDefinitions known ds = .ok ds'
      ↔ Canonical.LinkedTo known ds ds'
  | [], [] => iff_of_true rfl .nil
  | [], _ :: _ => iff_of_false nofun nofun
  | d :: ds, [] => by
    refine iff_of_false (fun h => ?_) nofun
    exact absurd (linkDefinitions_forall₂ h) nofun
  | d :: ds, d' :: ds' => by
    rw [linkDefinitions_cons, Canonical.bind_map_cons_eq_ok_iff,
      linkDefinitions_ok_iff, Canonical.linkedTo_cons_iff]

end Schema

/-- The finished definitions, in the order in which their names were
declared. -/
theorem Declarations.inOrder_eq {ds finished : List Definition}
    (hperm : finished.Perm ds) (hnodup : (ds.map (·.name)).Nodup) :
    (⟨ds.map (·.name), finished⟩ : Declarations).inOrder = ds := by
  have hfinished : (finished.map (·.name)).Nodup :=
    (hperm.map _).nodup_iff.mpr hnodup
  unfold inOrder
  rw [List.filterMap_map]
  refine Eq.trans (List.filterMap_congr fun d hd => ?_) List.filterMap_some
  exact find?_of_nodup hfinished (hperm.mem_iff.mpr hd)

namespace Canonical

variable {c : Canonical}

/-- **The walk over the document of a form** finds the form as it is read, if
this defines no name twice. -/
theorem walked_document (h : c.Legible) (hsizes : SizesFit c.definitions)
    (hnesting : c.document.nesting < 128)
    (hnodup : ((c.reread "").definitions.map (·.name)).Nodup) :
    ∃ declared, Schema.Walked c.text c.document (c.reread "").type declared
      ∧ declared.inOrder = (c.reread "").definitions := by
  obtain ⟨finished, hdenotes, hperm⟩ := denotes_document c "" h
  exact ⟨⟨(c.reread "").definitions.map (·.name), finished⟩,
    Schema.walked_iff.mpr ⟨parse_text hnesting hsizes, hdenotes, hnodup⟩,
    Declarations.inOrder_eq hperm hnodup⟩

/-- The names of definitions that are linked are kept. -/
theorem LinkedTo.names {known : List FullName} {ds ds' : List Definition}
    (h : LinkedTo known ds ds') : ds'.map (·.name) = ds.map (·.name) :=
  map_eq_of_forall₂ h fun _ _ hlink => (Schema.linkDefinition_spec hlink).1

/-- A form that is linked back to itself is read as a schema. -/
theorem parse_text_eq_of_linked (h : c.Legible) (hsizes : SizesFit c.definitions)
    (hnesting : c.document.nesting < 128)
    (hnodup : (c.definitions.map (·.name)).Nodup)
    (hlinked : (c.reread "").type.link (c.definitions.map (·.name)) = .ok c.type
      ∧ LinkedTo (c.definitions.map (·.name)) (c.reread "").definitions
        c.definitions) :
    Schema.parse c.text = .ok ⟨c.type, c.definitions, c.text⟩ := by
  obtain ⟨htype, hdefinitions⟩ := hlinked
  have hnames := hdefinitions.names
  obtain ⟨declared, hwalked, hinOrder⟩ :=
    walked_document h hsizes hnesting (hnames ▸ hnodup)
  rw [hwalked.parse_eq, hinOrder, ← hnames, htype,
    Schema.linkDefinitions_ok_iff.mpr hdefinitions]
  rfl

/-! ## Names that are read -/

/-- Names that are read, each in some namespace. -/
def NamesReread (names written : List FullName) : Prop :=
  List.Forall₂ (fun n m => ∃ enclosing, n = m.reread enclosing) names written

theorem NamesReread.append {names names' written written' : List FullName}
    (h : NamesReread names written) (h' : NamesReread names' written') :
    NamesReread (names ++ names') (written ++ written') :=
  List.rel_append h h'

mutual

/-- The names of the definitions that are read are those that were written, as
they are read. -/
theorem namesReread : ∀ (c : Canonical) (enclosing : String),
    NamesReread ((c.reread enclosing).definitions.map (·.name))
      (c.definitions.map (·.name))
  | primitive _, _ | reference _, _ => .nil
  | array items, enclosing => namesReread items enclosing
  | map values, enclosing => namesReread values enclosing
  | union branches, enclosing => namesReread_all branches enclosing
  | record _ forms, enclosing =>
    .cons ⟨enclosing, rfl⟩ (namesReread_fields forms _)
  | enum _ _, enclosing | fixed _ _, enclosing => .cons ⟨enclosing, rfl⟩ .nil

theorem namesReread_all : ∀ (branches : List Canonical) (enclosing : String),
    NamesReread ((definitionsAll (rereadAll enclosing branches)).map (·.name))
      ((definitionsAll branches).map (·.name))
  | [], _ => .nil
  | branch :: rest, enclosing => by
    rw [rereadAll, definitionsAll, definitionsAll, List.map_append,
      List.map_append]
    exact (namesReread branch enclosing).append (namesReread_all rest enclosing)

theorem namesReread_fields : ∀ (forms : List (String × Canonical))
    (enclosing : String),
    NamesReread
      ((definitionsFields (rereadFields enclosing forms)).map (·.name))
      ((definitionsFields forms).map (·.name))
  | [], _ => .nil
  | (_, type) :: rest, enclosing => by
    rw [rereadFields, definitionsFields, definitionsFields, List.map_append,
      List.map_append]
    exact (namesReread type enclosing).append (namesReread_fields rest enclosing)

end

/-- A name is of the null namespace. -/
def IsBare (n : FullName) : Bool := n.space = ""

/-- Of the names that are read no more are of the null namespace than of those
that were written. -/
theorem NamesReread.countP_le {names written : List FullName}
    (h : NamesReread names written) :
    names.countP IsBare ≤ written.countP IsBare := by
  induction h with
  | nil => exact Nat.le_refl 0
  | @cons n m names written hname _ ih =>
    obtain ⟨enclosing, rfl⟩ := hname
    rw [List.countP_cons, List.countP_cons]
    by_cases hspace : (m.reread enclosing).space = ""
    · rw [FullName.eq_of_reread_space hspace]
      exact Nat.add_le_add_right ih _
    · have hread : IsBare (m.reread enclosing) = false := decide_eq_false hspace
      rw [hread]
      exact ih.trans (Nat.le_add_right _ _)

/-- **Names are read as they were written** if as many are of the null
namespace. -/
theorem NamesReread.eq_of_countP {names written : List FullName}
    (h : NamesReread names written)
    (hcount : written.countP IsBare ≤ names.countP IsBare) : names = written := by
  induction h with
  | nil => rfl
  | @cons n m names written hname hrest ih =>
    obtain ⟨enclosing, rfl⟩ := hname
    have hle := NamesReread.countP_le hrest
    rw [List.countP_cons, List.countP_cons] at hcount
    by_cases hspace : (m.reread enclosing).space = ""
    · rw [FullName.eq_of_reread_space hspace] at hcount ⊢
      rw [ih (Nat.le_of_add_le_add_right hcount)]
    · have hread : IsBare (m.reread enclosing) = false := decide_eq_false hspace
      rw [hread] at hcount
      -- A name that is lost would be missing in the count.
      have hbare : ¬ IsBare m = true := by
        intro hm
        rw [hm] at hcount
        simp only [if_true, Bool.false_eq_true, if_false] at hcount
        omega
      have hkept : m.reread enclosing = m :=
        FullName.reread_eq_self_iff.mpr (.inl fun hm => hbare (decide_eq_true hm))
      rw [hkept, ih (by simpa [hbare] using hcount)]

/-! ## Bare definitions -/

/-- Fields of a form have nothing to strip. -/
theorem map_stripped_fields (forms : List (String × Canonical)) :
    (fields forms).map Field.stripped = fields forms := by
  rw [fields, List.map_map]
  rfl

mutual

/-- Definitions of a form have nothing to strip. -/
theorem stripped_of_mem_definitions {d : Definition} : ∀ {c : Canonical},
    d ∈ c.definitions → d.stripped = d
  | primitive _, h | reference _, h => absurd h List.not_mem_nil
  | array items, h => stripped_of_mem_definitions (c := items) h
  | map values, h => stripped_of_mem_definitions (c := values) h
  | union branches, h => @stripped_of_mem_all _ branches h
  | record name forms, h => by
    rcases List.mem_cons.mp h with rfl | h
    · rw [Definition.stripped, map_stripped_fields]
    · exact stripped_of_mem_fields h
  | enum name symbols, h => List.mem_singleton.mp h ▸ rfl
  | fixed name size, h => List.mem_singleton.mp h ▸ rfl

theorem stripped_of_mem_all {d : Definition} : ∀ {branches : List Canonical},
    d ∈ definitionsAll branches → d.stripped = d
  | [], h => absurd h List.not_mem_nil
  | _ :: _, h => (List.mem_append.mp h).elim stripped_of_mem_definitions
      stripped_of_mem_all

theorem stripped_of_mem_fields {d : Definition} :
    ∀ {forms : List (String × Canonical)}, d ∈ definitionsFields forms →
      d.stripped = d
  | [], h => absurd h List.not_mem_nil
  | (_, _) :: _, h => (List.mem_append.mp h).elim stripped_of_mem_definitions
      stripped_of_mem_fields

end

end Canonical

namespace Schema

/-- Fields are linked in the same way if they are stripped. -/
theorem linkFields_stripped (known : List FullName) : ∀ fields : List Field,
    linkFields known (fields.map Field.stripped)
      = (linkFields known fields).map (·.map Field.stripped)
  | [] => rfl
  | field :: rest => by
    rw [List.map_cons, linkFields, linkFields, linkFields_stripped known rest]
    rw [show field.stripped.type = field.type from rfl]
    cases field.type.link known with
    | error e => rfl
    | ok type => cases linkFields known rest <;> rfl

/-- A definition is linked in the same way if it is stripped. -/
theorem linkDefinition_stripped (known : List FullName) : ∀ d : Definition,
    linkDefinition known d.stripped
      = (linkDefinition known d).map Definition.stripped
  | .enum _ | .fixed _ => rfl
  | .record r => by
    rw [Definition.stripped, linkDefinition, linkDefinition,
      linkFields_stripped known r.fields]
    cases linkFields known r.fields <;> rfl

/-- Linking leaves nothing to strip. -/
theorem stripped_of_linkDefinition {known : List FullName} {d d' : Definition}
    (h : linkDefinition known d = .ok d') (hd : d.stripped = d) :
    d'.stripped = d' := by
  have hstripped := linkDefinition_stripped known d
  rw [hd, h] at hstripped
  exact (Except.ok.inj hstripped).symm

end Schema

end Avro
