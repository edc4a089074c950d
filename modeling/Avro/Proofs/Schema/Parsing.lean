import Mathlib.Data.List.Forall2
import Avro.Proofs.Schema.Documents
import Avro.Proofs.Schema.Json
import Avro.Proofs.Schema.Shapes

/-!
# What reading a schema document ensures

A schema that was read is well-formed (`Schema.parse_wellFormed`): the names
of its definitions have no dot inside their namespace, so the written form of
a name tells it apart from every other (`Schema.WellFormed.text_inj`); the
fields of a record have different names; every reference has a definition; and
the defaults are ordered.

That definitions are regular is an induction on what the document says
(`Json.Denotes.regular`); that references have definitions is what linking is for
(`TypeExpr.link_namesIn`).
-/

namespace Avro

/-! ## Written names -/

namespace FullName

/-- The text after the last dot has no dot, and a text without a last dot has
none at all. -/
theorem splitLastDot_spec : ∀ cs : List Char,
    match splitLastDot cs with
    | some (before, after) => cs = before ++ '.' :: after ∧ '.' ∉ after
    | none => '.' ∉ cs
  | [] => List.not_mem_nil
  | c :: rest => by
    have ih := splitLastDot_spec rest
    rw [splitLastDot]
    cases hr : splitLastDot rest with
    | some split =>
      rw [hr] at ih
      obtain ⟨before, after⟩ := split
      obtain ⟨rfl, hafter⟩ := ih
      exact ⟨rfl, hafter⟩
    | none =>
      rw [hr] at ih
      dsimp only
      by_cases hc : c = '.'
      · rw [if_pos hc, hc]
        exact ⟨rfl, ih⟩
      · rw [if_neg hc]
        exact fun h => (List.mem_cons.mp h).elim (fun h => hc h.symm) ih

/-- **A name that was read has no dot inside its namespace.** -/
theorem ofString_plain (text enclosing : String) :
    '.' ∉ (ofString text enclosing).name.toList := by
  have h := splitLastDot_spec text.toList
  unfold ofString
  cases hs : splitLastDot text.toList with
  | some split =>
    rw [hs] at h
    obtain ⟨before, after⟩ := split
    dsimp only
    rw [String.toList_ofList]
    exact h.2
  | none =>
    rw [hs] at h
    exact h

/-- The name inside the namespace is what stands behind the last dot of the
written form. -/
theorem append_dot_inj {a b c d : List Char} (hb : '.' ∉ b) (hd : '.' ∉ d)
    (h : a ++ '.' :: b = c ++ '.' :: d) : a = c ∧ b = d := by
  induction a generalizing c with
  | nil =>
    cases c with
    | nil => exact ⟨rfl, (List.cons.inj h).2⟩
    | cons x c =>
      obtain ⟨-, h⟩ := List.cons.inj h
      exact absurd (h ▸ List.mem_append_right c List.mem_cons_self) hb
  | cons x a ih =>
    cases c with
    | nil =>
      obtain ⟨-, h⟩ := List.cons.inj h
      exact absurd (h.symm ▸ List.mem_append_right a List.mem_cons_self) hd
    | cons y c =>
      obtain ⟨hxy, htail⟩ := List.cons.inj h
      obtain ⟨hac, hbd⟩ := ih htail
      exact ⟨by rw [hxy, hac], hbd⟩

/-- **The written form tells names apart** that have no dot inside their
namespace. -/
theorem text_inj {m n : FullName} (hm : '.' ∉ m.name.toList)
    (hn : '.' ∉ n.name.toList) (h : m.text = n.text) : m = n := by
  obtain ⟨mname, mspace⟩ := m
  obtain ⟨nname, nspace⟩ := n
  unfold text at h
  dsimp only at h hm hn
  have hdotted : ∀ {a b c : String}, '.' ∉ c.toList → a ++ "." ++ b ≠ c := by
    rintro a b c hc rfl
    exact hc (by simp)
  by_cases hmspace : mspace.isEmpty = true
  · have hmempty : mspace = "" := String.isEmpty_iff.mp hmspace
    by_cases hnspace : nspace.isEmpty = true
    · have hnempty : nspace = "" := String.isEmpty_iff.mp hnspace
      rw [if_pos hmspace, if_pos hnspace] at h
      rw [h, hmempty, hnempty]
    · rw [if_pos hmspace, if_neg hnspace] at h
      exact absurd h.symm (hdotted hm)
  · by_cases hnspace : nspace.isEmpty = true
    · rw [if_neg hmspace, if_pos hnspace] at h
      exact absurd h (hdotted hn)
    · rw [if_neg hmspace, if_neg hnspace] at h
      have hlists : mspace.toList ++ '.' :: mname.toList
          = nspace.toList ++ '.' :: nname.toList := by
        have := congrArg String.toList h
        simpa using this
      obtain ⟨hspace, hname⟩ := append_dot_inj hm hn hlists
      rw [String.toList_inj.mp hspace, String.toList_inj.mp hname]

end FullName

/-! ## Types that refer to known names -/

namespace TypeExpr

mutual

/-- Every name in a type is known. -/
def NamesIn (known : List FullName) : TypeExpr → Prop
  | primitive _ => True
  | array items => items.NamesIn known
  | map values => values.NamesIn known
  | union branches => AllNamesIn known branches
  | named name => name ∈ known

/-- Every name in the types of a list is known. -/
def AllNamesIn (known : List FullName) : List TypeExpr → Prop
  | [] => True
  | branch :: rest => branch.NamesIn known ∧ AllNamesIn known rest

end

/-- The names in a branch of a union are known. -/
theorem AllNamesIn.mem_branches {known : List FullName} :
    ∀ {branches : List TypeExpr}, AllNamesIn known branches →
      ∀ branch ∈ branches, branch.NamesIn known
  | _ :: _, h, _, hmem => by
    rcases List.mem_cons.mp hmem with rfl | hmem
    · exact h.1
    · exact AllNamesIn.mem_branches h.2 _ hmem

/-- A name is linked to one that is known. -/
theorem link_named_ok {known : List FullName} {name : FullName} {t' : TypeExpr}
    (h : (named name).link known = .ok t') :
    ∃ name', t' = .named name' ∧ name' ∈ known := by
  rw [link] at h
  split at h
  · exact ⟨name, (Except.ok.inj h).symm, List.contains_iff_mem.mp ‹_›⟩
  · split at h
    · exact ⟨name.bare, (Except.ok.inj h).symm, List.contains_iff_mem.mp ‹_›⟩
    · exact absurd h (by simp)

/-- Branches are linked one after another. -/
theorem linkAll_cons_ok {known : List FullName} {branch : TypeExpr}
    {rest linked : List TypeExpr}
    (h : linkAll known (branch :: rest) = .ok linked) :
    ∃ branch' rest', branch.link known = .ok branch'
      ∧ linkAll known rest = .ok rest' ∧ linked = branch' :: rest' := by
  rw [linkAll] at h
  cases hb : branch.link known with
  | error e => simp [hb] at h
  | ok branch' =>
    simp only [hb] at h
    obtain ⟨rest', hrest, rfl⟩ := exists_of_map_ok h
    exact ⟨branch', rest', rfl, hrest, rfl⟩

mutual

/-- **Linking leaves known names only.** -/
theorem link_namesIn {known : List FullName} :
    ∀ {t t' : TypeExpr}, t.link known = .ok t' → t'.NamesIn known
  | primitive p, t', h => by
    rw [link] at h
    obtain rfl := Except.ok.inj h
    trivial
  | array items, t', h => by
    rw [link] at h
    obtain ⟨items', hitems, rfl⟩ := exists_of_map_ok h
    rw [NamesIn]
    exact link_namesIn hitems
  | map values, t', h => by
    rw [link] at h
    obtain ⟨values', hvalues, rfl⟩ := exists_of_map_ok h
    rw [NamesIn]
    exact link_namesIn hvalues
  | union branches, t', h => by
    rw [link] at h
    obtain ⟨branches', hbranches, rfl⟩ := exists_of_map_ok h
    exact linkAll_namesIn hbranches
  | named name, t', h => by
    obtain ⟨name', rfl, hname⟩ := link_named_ok h
    exact hname

theorem linkAll_namesIn {known : List FullName} :
    ∀ {branches branches' : List TypeExpr},
      linkAll known branches = .ok branches' → AllNamesIn known branches'
  | [], branches', h => by
    rw [linkAll] at h
    obtain rfl := Except.ok.inj h
    trivial
  | branch :: rest, branches', h => by
    obtain ⟨branch', rest', hb, hrest, rfl⟩ := linkAll_cons_ok h
    exact ⟨link_namesIn hb, linkAll_namesIn hrest⟩

end

end TypeExpr

/-! ## Well-formed schemas -/

/-- What a finished definition is like: the name has no dot inside its
namespace, and the fields of a record have different names and ordered
defaults. -/
structure Definition.Regular (d : Definition) : Prop where
  /-- The name. -/
  plain : '.' ∉ d.name.name.toList
  /-- The names of the fields. -/
  distinct : ∀ r, d = .record r → (r.fields.map (·.name)).Nodup
  /-- The defaults of the fields. -/
  ordered : ∀ r, d = .record r → ∀ field ∈ r.fields, field.Ordered

/-- **A schema is well-formed.** -/
structure Schema.WellFormed (s : Schema) : Prop where
  /-- Its definitions are regular. -/
  regular : ∀ d ∈ s.definitions, d.Regular
  /-- The names in the root type are those of definitions. -/
  root : s.root.NamesIn (s.definitions.map (·.name))
  /-- The names in the types of fields are those of definitions. -/
  field : ∀ r, .record r ∈ s.definitions → ∀ field ∈ r.fields,
    field.type.NamesIn (s.definitions.map (·.name))

namespace Schema.WellFormed

variable {s : Schema}

/-- The defaults of a well-formed schema are ordered. -/
theorem ordered (h : s.WellFormed) : s.Ordered :=
  fun r hr => (h.regular _ hr).ordered r rfl

/-- **Names of a well-formed schema and another one are told apart** by their
written forms. -/
theorem text_inj {s' : Schema} (h : s.WellFormed) (h' : s'.WellFormed)
    {m n : FullName} {d d' : Definition} (hm : s.definition? m = some d)
    (hn : s'.definition? n = some d') (heq : m.text = n.text) : m = n := by
  obtain rfl := Schema.definition?_name hm
  obtain rfl := Schema.definition?_name hn
  exact FullName.text_inj (h.regular _ (List.mem_of_find?_eq_some hm)).plain
    (h'.regular _ (List.mem_of_find?_eq_some hn)).plain heq

/-- A known name has a definition. -/
theorem definition?_of_mem {name : FullName}
    (h : name ∈ s.definitions.map (·.name)) :
    ∃ d, s.definition? name = some d := by
  obtain ⟨d, hd, rfl⟩ := List.mem_map.mp h
  refine Option.isSome_iff_exists.mp ?_
  rw [definition?, List.find?_isSome]
  exact ⟨d, hd, by simp⟩

end Schema.WellFormed

/-- A type whose names are defined has a shape. -/
theorem TypeExpr.NamesIn.shape?_ne_none {s : Schema} : ∀ {t : TypeExpr},
    t.NamesIn (s.definitions.map (·.name)) → s.shape? t ≠ none
  | primitive _, _ | array _, _ | map _, _ | union _, _ => nofun
  | named name, h => by
    obtain ⟨d, hd⟩ := Schema.WellFormed.definition?_of_mem h
    rw [Schema.shape?_eq, hd]
    nofun

/-! ## What the document says -/

namespace Json

/-- A member of an ordered object is ordered. -/
theorem ordered_of_find? {members : Members} (h : ∀ m ∈ members, m.2.Ordered)
    {key : String} {j : Json} (hj : Entries.find? key members = some j) :
    j.Ordered :=
  h _ (Entries.mem_of_find? hj)

/-- The items of a member of an ordered object are ordered. -/
theorem ordered_items_of_find? {members : Members}
    (h : ∀ m ∈ members, m.2.Ordered) {key : String} {items : List Json}
    (hj : Entries.find? key members = some (.array items)) :
    ∀ item ∈ items, item.Ordered := by
  cases ordered_of_find? h hj with
  | array hitems => exact hitems

/-- A declared name has no dot inside its namespace. -/
theorem Heads.plain {members : Members} {enclosing : String} {name : FullName}
    {aliases : List FullName} (h : Heads members enclosing name aliases) :
    '.' ∉ name.name.toList := by
  obtain ⟨written, -, rfl⟩ := Option.map_eq_some_iff.mp h.declares
  exact FullName.ofString_plain written _

mutual

/-- **Definitions in a document are regular**, if its objects are sorted. -/
theorem Denotes.regular : ∀ {j : Json} {enclosing : String} {t : TypeExpr}
    {names : List FullName} {ds : List Definition},
    Denotes j enclosing t names ds → j.Ordered → ∀ d ∈ ds, d.Regular
  | _, _, _, _, _, .name, _ => nofun
  | _, _, _, _, _, .annotated _ _, _ => nofun
  | _, _, _, _, _, .union hitems _, .array hordered => hitems.regular hordered
  | _, _, _, _, _, .wrapped word _ hinner, .object _ hmembers =>
    hinner.regular (ordered_of_find? hmembers word)
  | _, _, _, _, _, .array _ items hinner, .object _ hmembers =>
    hinner.regular (ordered_of_find? hmembers items)
  | _, _, _, _, _, .map _ values hinner, .object _ hmembers =>
    hinner.regular (ordered_of_find? hmembers values)
  | _, _, _, _, _, .fixed _ head _, _ => fun d hd => by
    rw [List.mem_singleton.mp hd]
    exact ⟨head.plain, nofun, nofun⟩
  | _, _, _, _, _, .enum _ head _ _ _, _ => fun d hd => by
    rw [List.mem_singleton.mp hd]
    exact ⟨head.plain, nofun, nofun⟩
  | _, _, _, _, _, .record _ _ head listed hfields, .object _ hmembers =>
    fun d hd => by
      obtain ⟨hregular, hnodup, -, hordered⟩ :=
        hfields.regular (ordered_items_of_find? hmembers listed)
      rcases List.mem_append.mp hd with hd | hd
      · exact hregular d hd
      · rw [List.mem_singleton.mp hd]
        refine ⟨head.plain, ?_, ?_⟩
        · intro r hr
          obtain rfl := Definition.record.inj hr
          exact hnodup
        · intro r hr
          obtain rfl := Definition.record.inj hr
          exact hordered

theorem DenotesAll.regular : ∀ {items : List Json} {enclosing : String}
    {branches : List TypeExpr} {names : List FullName} {ds : List Definition},
    DenotesAll items enclosing branches names ds →
    (∀ item ∈ items, item.Ordered) → ∀ d ∈ ds, d.Regular
  | _, _, _, _, _, .nil, _ => nofun
  | _, _, _, _, _, .cons hitem hrest, hordered => fun d hd => by
    rcases List.mem_append.mp hd with hd | hd
    · exact hitem.regular (hordered _ List.mem_cons_self) d hd
    · exact hrest.regular
        (fun item h => hordered item (List.mem_cons_of_mem _ h)) d hd

/-- The fields of a record have different names, and their defaults are
ordered. -/
theorem DenotesFields.regular : ∀ {record : FullName} {seen : List String}
    {items : List Json} {fields : List Field} {names : List FullName}
    {ds : List Definition}, DenotesFields record seen items fields names ds →
    (∀ item ∈ items, item.Ordered) →
    (∀ d ∈ ds, d.Regular) ∧ (fields.map (·.name)).Nodup
      ∧ (∀ field ∈ fields, field.name ∉ seen)
      ∧ ∀ field ∈ fields, field.Ordered
  | _, _, _, _, _, _, .nil, _ => ⟨nofun, List.nodup_nil, nofun, nofun⟩
  | _, _, _, _, _, _, .cons _ new typed hinner _ hrest, hordered => by
    obtain ⟨hregular, hnodup, hnew, hdefaults⟩ := hrest.regular fun item h =>
      hordered item (List.mem_cons_of_mem _ h)
    cases hordered _ List.mem_cons_self with
    | object _ hmembers =>
      refine ⟨fun d hd => ?_, ?_, fun field hfield => ?_,
        fun field hfield => ?_⟩
      · rcases List.mem_append.mp hd with hd | hd
        · exact hinner.regular (ordered_of_find? hmembers typed) d hd
        · exact hregular d hd
      · rw [List.map_cons, List.nodup_cons]
        refine ⟨fun hmem => ?_, hnodup⟩
        obtain ⟨field, hfield, hname⟩ := List.mem_map.mp hmem
        exact hnew field hfield (hname ▸ List.mem_cons_self)
      · rcases List.mem_cons.mp hfield with rfl | hfield
        · exact new
        · exact fun hmem => hnew field hfield (List.mem_cons_of_mem _ hmem)
      · rcases List.mem_cons.mp hfield with rfl | hfield
        · exact fun j hj => ordered_of_find? hmembers hj
        · exact hdefaults field hfield

end

end Json

/-! ## Linking -/

section Itemwise

variable {ε α β γ : Type}

/-- **What is computed item by item** is computed of each item. -/
theorem forall₂_of_itemwise {f : α → Except ε β}
    {g : List α → Except ε (List β)} (hnil : g [] = .ok [])
    (hcons : ∀ a rest, g (a :: rest)
      = (f a).bind fun b => (g rest).map (b :: ·)) :
    ∀ {as : List α} {bs : List β}, g as = .ok bs →
      List.Forall₂ (fun a b => f a = .ok b) as bs
  | [], bs, h => by
    rw [hnil] at h
    obtain rfl := Except.ok.inj h
    exact .nil
  | a :: rest, bs, h => by
    rw [hcons] at h
    cases ha : f a with
    | error e =>
      rw [ha] at h
      exact absurd h nofun
    | ok b =>
      rw [ha] at h
      obtain ⟨others, hothers, rfl⟩ := exists_of_map_ok h
      exact .cons ha (forall₂_of_itemwise hnil hcons hothers)

variable {R : α → β → Prop} {as : List α} {bs : List β}

theorem exists_left_of_mem (h : List.Forall₂ R as bs) {b : β} (hb : b ∈ bs) :
    ∃ a ∈ as, R a b := by
  induction h with
  | nil => exact absurd hb List.not_mem_nil
  | cons hab _ ih =>
    rcases List.mem_cons.mp hb with rfl | hb
    · exact ⟨_, List.mem_cons_self, hab⟩
    · obtain ⟨a, ha, hR⟩ := ih hb
      exact ⟨a, List.mem_cons_of_mem _ ha, hR⟩

theorem exists_right_of_mem (h : List.Forall₂ R as bs) {a : α} (ha : a ∈ as) :
    ∃ b ∈ bs, R a b :=
  exists_left_of_mem (R := flip R) (List.Forall₂.flip h) ha

theorem map_eq_of_forall₂ (h : List.Forall₂ R as bs) {f : α → γ} {g : β → γ}
    (hR : ∀ a b, R a b → g b = f a) : bs.map g = as.map f := by
  induction h with
  | nil => rfl
  | cons hab _ ih => rw [List.map_cons, List.map_cons, hR _ _ hab, ih]

end Itemwise

namespace Schema

theorem linkFields_cons (known : List FullName) (field : Field)
    (rest : List Field) :
    linkFields known (field :: rest)
      = ((field.type.link known).map ({ field with type := · })).bind
        fun field' => (linkFields known rest).map (field' :: ·) := by
  rw [linkFields]
  cases field.type.link known <;> rfl

theorem linkDefinitions_cons (known : List FullName) (d : Definition)
    (rest : List Definition) :
    linkDefinitions known (d :: rest) = (linkDefinition known d).bind
      fun d' => (linkDefinitions known rest).map (d' :: ·) := by
  rw [linkDefinitions]
  cases linkDefinition known d <;> rfl

/-- Linking fields links each field. -/
theorem linkFields_forall₂ {known : List FullName} {fields fields' : List Field}
    (h : linkFields known fields = .ok fields') :
    List.Forall₂ (fun field field' => ∃ type,
      field.type.link known = .ok type ∧ { field with type } = field')
      fields fields' :=
  (forall₂_of_itemwise (g := linkFields known) rfl (linkFields_cons known) h).imp
    fun _ _ => exists_of_map_ok

/-- Linking definitions links each definition. -/
theorem linkDefinitions_forall₂ {known : List FullName}
    {definitions linked : List Definition}
    (h : linkDefinitions known definitions = .ok linked) :
    List.Forall₂ (fun d d' => linkDefinition known d = .ok d') definitions
      linked :=
  forall₂_of_itemwise (g := linkDefinitions known) rfl
    (linkDefinitions_cons known) h

/-- **A linked definition** has its name, and refers to known names. -/
theorem linkDefinition_spec {known : List FullName} {d d' : Definition}
    (h : linkDefinition known d = .ok d') :
    d'.name = d.name ∧ (d.Regular → d'.Regular)
      ∧ ∀ r, d' = .record r → ∀ field ∈ r.fields,
        field.type.NamesIn known := by
  cases d with
  | record r =>
    obtain ⟨fields', hfields, rfl⟩ := exists_of_map_ok h
    have hlinked := linkFields_forall₂ hfields
    refine ⟨rfl, fun hregular => ⟨hregular.plain, ?_, ?_⟩, ?_⟩
    · intro r' hr'
      obtain rfl := Definition.record.inj hr'
      dsimp only
      rw [map_eq_of_forall₂ (f := Field.name) hlinked
        (by rintro _ _ ⟨_, -, rfl⟩; rfl)]
      exact hregular.distinct r rfl
    · intro r' hr' field' hfield'
      obtain rfl := Definition.record.inj hr'
      obtain ⟨field, hfield, type, -, rfl⟩ := exists_left_of_mem hlinked hfield'
      exact hregular.ordered r rfl field hfield
    · intro r' hr' field' hfield'
      obtain rfl := Definition.record.inj hr'
      obtain ⟨field, -, type, htype, rfl⟩ := exists_left_of_mem hlinked hfield'
      exact TypeExpr.link_namesIn htype
  | enum e =>
    obtain rfl := Except.ok.inj h
    exact ⟨rfl, id, nofun⟩
  | fixed f =>
    obtain rfl := Except.ok.inj h
    exact ⟨rfl, id, nofun⟩

theorem linkDefinitions_spec {known : List FullName}
    {definitions linked : List Definition}
    (h : linkDefinitions known definitions = .ok linked) :
    linked.map (·.name) = definitions.map (·.name)
      ∧ ∀ d' ∈ linked, ∃ d ∈ definitions, linkDefinition known d = .ok d' :=
  have hlinked := linkDefinitions_forall₂ h
  ⟨map_eq_of_forall₂ hlinked fun _ _ hd => (linkDefinition_spec hd).1,
    fun _ => exists_left_of_mem hlinked⟩

/-- **A schema that was read is well-formed.** -/
theorem parse_wellFormed {source : String} {s : Schema}
    (h : parse source = .ok s) : s.WellFormed := by
  obtain ⟨j, root, declared, hwalked, hroot, hdefinitions, -⟩ := exists_walked h
  have hinOrder : ∀ d ∈ declared.inOrder, d.Regular := by
    intro d hd
    obtain ⟨name, _, hfound⟩ := List.mem_filterMap.mp hd
    exact hwalked.reads.regular (Json.parse_ordered hwalked.json) d
      (List.mem_of_find?_eq_some hfound)
  obtain ⟨hnames, hlinked⟩ := linkDefinitions_spec hdefinitions
  refine ⟨fun d hd => ?_, ?_, fun r hr => ?_⟩
  · obtain ⟨d', hd', hlink⟩ := hlinked d hd
    exact (linkDefinition_spec hlink).2.1 (hinOrder d' hd')
  · rw [hnames]
    exact TypeExpr.link_namesIn hroot
  · obtain ⟨d', hd', hlink⟩ := hlinked _ hr
    rw [hnames]
    exact (linkDefinition_spec hlink).2.2 r rfl

end Schema

end Avro
