import Avro.Proofs.Schema.Acceptance
import Avro.Proofs.Schema.CanonicalDocument
import Avro.Proofs.Schema.Coherence

/-!
# Canonical forms that are read again

A canonical form writes full names without saying so: a name of the null
namespace is written bare, and where it stands in a record of a namespace, it
is read as a name of that namespace. What a form is read as is therefore the
form with other names (`Canonical.reread`).
-/

namespace Avro

/-! ## Names -/

/-- **What a written full name is read as** in a namespace. -/
def FullName.reread (enclosing : String) (n : FullName) : FullName :=
  if n.space = "" then ⟨n.name, enclosing⟩ else n

namespace FullName

theorem splitLastDot_append {before after : List Char} (h : '.' ∉ after) :
    splitLastDot (before ++ '.' :: after) = some (before, after) := by
  have hspec := splitLastDot_spec (before ++ '.' :: after)
  cases hs : splitLastDot (before ++ '.' :: after) with
  | none =>
    rw [hs] at hspec
    exact absurd (List.mem_append_right _ List.mem_cons_self) hspec
  | some split =>
    rw [hs] at hspec
    obtain ⟨before', after'⟩ := split
    obtain ⟨heq, hafter'⟩ := hspec
    obtain ⟨rfl, rfl⟩ := append_dot_inj h hafter' heq
    rfl

/-- **A written full name is read** in a namespace: one that has a namespace
keeps it. -/
theorem ofString_text {n : FullName} (h : '.' ∉ n.name.toList)
    (enclosing : String) : ofString n.text enclosing = n.reread enclosing := by
  obtain ⟨name, space⟩ := n
  unfold text reread
  by_cases hspace : space = ""
  · subst hspace
    exact ofString_of_not_mem h enclosing
  · have hempty : ¬ space.isEmpty = true := fun hs =>
      hspace (String.isEmpty_iff.mp hs)
    have hchars : (space ++ "." ++ name).toList
        = space.toList ++ '.' :: name.toList := by simp
    dsimp only
    rw [if_neg hempty, if_neg hspace, ofString, hchars, splitLastDot_append h]
    dsimp only
    rw [String.ofList_toList, String.ofList_toList]

/-- A name is read as itself if it has a namespace, or is read in none. -/
theorem reread_eq_self_iff {enclosing : String} {n : FullName} :
    n.reread enclosing = n ↔ n.space ≠ "" ∨ enclosing = "" := by
  obtain ⟨name, space⟩ := n
  unfold reread
  by_cases hspace : space = ""
  · subst hspace
    simp
  · simp [hspace]

/-- What is read as a name of the null namespace is this name. -/
theorem eq_of_reread_space {enclosing : String} {n : FullName}
    (h : (n.reread enclosing).space = "") : n.reread enclosing = n := by
  unfold reread at h ⊢
  by_cases hspace : n.space = ""
  · rw [if_pos hspace] at h ⊢
    obtain rfl : enclosing = "" := h
    exact hspace ▸ rfl
  · rw [if_neg hspace]

end FullName

/-! ## Forms -/

namespace Canonical

mutual

/-- **What a form is read as** in a namespace: the form with its names as they
are read. A record is the namespace around its fields. -/
def reread (enclosing : String) : Canonical → Canonical
  | primitive p => primitive p
  | array items => array (items.reread enclosing)
  | map values => map (values.reread enclosing)
  | union branches => union (rereadAll enclosing branches)
  | reference name => reference (name.reread enclosing)
  | record name fields => record (name.reread enclosing)
      (rereadFields (name.reread enclosing).space fields)
  | enum name symbols => enum (name.reread enclosing) symbols
  | fixed name size => fixed (name.reread enclosing) size

/-- What branches are read as. -/
def rereadAll (enclosing : String) : List Canonical → List Canonical
  | [] => []
  | branch :: rest => branch.reread enclosing :: rereadAll enclosing rest

/-- What fields are read as. -/
def rereadFields (enclosing : String) :
    List (String × Canonical) → List (String × Canonical)
  | [] => []
  | (name, type) :: rest =>
    (name, type.reread enclosing) :: rereadFields enclosing rest

end

theorem isUnion_reread (c : Canonical) (enclosing : String) :
    (c.reread enclosing).type.isUnion = c.type.isUnion := by
  cases c <;> rfl

theorem any_isUnion_reread (enclosing : String) : ∀ branches : List Canonical,
    (types (rereadAll enclosing branches)).any TypeExpr.isUnion
      = (types branches).any TypeExpr.isUnion
  | [] => rfl
  | branch :: rest => by
    rw [rereadAll, types, types, List.any_cons, List.any_cons, isUnion_reread,
      any_isUnion_reread enclosing rest]

/-! ## Legible forms -/

theorem types_eq : ∀ branches : List Canonical,
    types branches = branches.map type
  | [] => rfl
  | branch :: rest => by rw [types, types_eq rest, List.map_cons]

theorem mem_definitionsAll {d : Definition} : ∀ {branches : List Canonical},
    d ∈ definitionsAll branches ↔ ∃ branch ∈ branches, d ∈ branch.definitions
  | [] => by simp [definitionsAll]
  | branch :: rest => by
    rw [definitionsAll, List.mem_append, mem_definitionsAll]
    simp

theorem mem_definitionsFields {d : Definition} :
    ∀ {forms : List (String × Canonical)},
      d ∈ definitionsFields forms ↔ ∃ form ∈ forms, d ∈ form.2.definitions
  | [] => by simp [definitionsFields]
  | form :: rest => by
    rw [definitionsFields, List.mem_append, mem_definitionsFields]
    simp

/-- **A form is legible**: its names are told from primitive types, no branch of
a union is a union, and the fields of records have different names. -/
structure Legible (c : Canonical) : Prop where
  /-- The names. -/
  clear : c.Clear
  /-- The unions in the type. -/
  flat : c.type.Flat
  /-- The definitions that are written out. -/
  checked : ∀ d ∈ c.definitions, d.Checked ∧ d.Regular

namespace Legible

theorem items {items : Canonical} (h : (array items).Legible) :
    items.Legible :=
  ⟨h.clear, fun _ hnode => h.flat _ (.items hnode), h.checked⟩

theorem values {values : Canonical} (h : (map values).Legible) :
    values.Legible :=
  ⟨h.clear, fun _ hnode => h.flat _ (.values hnode), h.checked⟩

theorem branches {branches : List Canonical} (h : (union branches).Legible) :
    ∀ branch ∈ branches, branch.Legible := by
  intro branch hmem
  have htype : branch.type ∈ types branches :=
    types_eq branches ▸ List.mem_map_of_mem hmem
  exact ⟨clearAll_iff.mp h.clear branch hmem, (h.flat.branch htype).1,
    fun d hd => h.checked d (mem_definitionsAll.mpr ⟨branch, hmem, hd⟩)⟩

theorem fields {name : FullName} {forms : List (String × Canonical)}
    (h : (record name forms).Legible) : ∀ form ∈ forms, form.2.Legible := by
  intro form hmem
  have hrecord := (h.checked _ List.mem_cons_self).1.flat _ rfl
  exact ⟨clearFields_iff.mp h.clear.2 form hmem,
    hrecord _ (List.mem_map_of_mem hmem),
    fun d hd => h.checked d (List.mem_cons_of_mem _
      (mem_definitionsFields.mpr ⟨form, hmem, hd⟩))⟩

/-- The fields of a record have different names. -/
theorem distinct {name : FullName} {forms : List (String × Canonical)}
    (h : (record name forms).Legible) : (forms.map (·.1)).Nodup := by
  have hnodup := (h.checked _ List.mem_cons_self).2.distinct _ rfl
  rwa [Canonical.fields, List.map_map] at hnodup

end Legible

variable {enclosing : String} {name : FullName}

/-- The head of a definition. -/
theorem heads_document {members : Json.Members} (hname : '.' ∉ name.name.toList)
    (h : Json.optionalString members "name" = some name.text)
    (hspace : Json.optionalString members "namespace" = none)
    (haliases : Json.stringList members "aliases" = .ok []) :
    Json.Heads members enclosing (name.reread enclosing) [] := by
  refine ⟨?_, [], haliases, rfl⟩
  rw [Json.declaredName?, h, hspace]
  exact congrArg some (FullName.ofString_text hname enclosing)

/-- The written name of a primitive type is read as the type. -/
theorem denotes_primitive (p : Primitive) :
    Json.Denotes (.string p.name) enclosing (.primitive p) [] [] := by
  have htype : Schema.typeOfName p.name enclosing = .primitive p := by
    rw [Schema.typeOfName, Primitive.ofName?_name]
  exact htype ▸ .name

/-- The written name of a named type is read as a name. -/
theorem denotes_reference (h : (reference name).Clear) :
    Json.Denotes (.string name.text) enclosing
      (.named (name.reread enclosing)) [] [] := by
  have htype : Schema.typeOfName name.text enclosing
      = .named (name.reread enclosing) := by
    have hnone : Primitive.ofName? name.text = none := by
      refine List.find?_eq_none.mpr fun p _ => ?_
      simpa using (h.2 p).symm
    rw [Schema.typeOfName, hnone]
    exact congrArg TypeExpr.named (FullName.ofString_text h.1 enclosing)
  exact htype ▸ .name

/-- The strings of a list of strings. -/
theorem strings_map (key : String) : ∀ symbols : List String,
    Json.strings key (symbols.map Json.string) = .ok symbols
  | [] => rfl
  | s :: rest => by
    rw [List.map_cons, Json.strings, strings_map key rest]

mutual

/-- **The document of a legible form** says the form as it is read. -/
theorem denotes_document : ∀ (c : Canonical) (enclosing : String), c.Legible →
    ∃ ds, Json.Denotes c.document enclosing (c.reread enclosing).type
        ((c.reread enclosing).definitions.map (·.name)) ds
      ∧ ds.Perm (c.reread enclosing).definitions
  | primitive p, _, _ => ⟨[], denotes_primitive p, .refl _⟩
  | reference name, _, h => ⟨[], denotes_reference h.clear, .refl _⟩
  | array items, enclosing, h =>
    have ⟨ds, hitems, hperm⟩ := denotes_document items enclosing h.items
    ⟨ds, .array (by cbv) (by cbv) hitems, hperm⟩
  | map values, enclosing, h =>
    have ⟨ds, hvalues, hperm⟩ := denotes_document values enclosing h.values
    ⟨ds, .map (by cbv) (by cbv) hvalues, hperm⟩
  | union branches, enclosing, h => by
    obtain ⟨ds, hbranches, hperm⟩ :=
      denotes_documents branches enclosing h.branches
    refine ⟨ds, .union hbranches ?_, hperm⟩
    rw [any_isUnion_reread, List.any_eq_false]
    exact fun t ht => Bool.eq_false_iff.mp (h.flat.branch ht).2
  | fixed name size, enclosing, h =>
    ⟨_, .fixed (by cbv) (heads_document h.clear (by cbv) (by cbv) (by cbv))
      (by cbv), .refl _⟩
  | enum name symbols, enclosing, h =>
    ⟨_, .enum (by cbv) (heads_document h.clear (by cbv) (by cbv) (by cbv))
      (by cbv) (strings_map _ symbols) (fun symbol hsymbol => by
        have hnone : Json.optionalString [("name", .string name.text),
          ("symbols", .array (symbols.map Json.string)),
          ("type", .string "enum")] "default" = none := by cbv
        rw [hnone] at hsymbol
        exact absurd hsymbol nofun), .refl _⟩
  | record name forms, enclosing, h => by
    obtain ⟨ds, hfields, hperm⟩ := denotes_fieldDocuments forms
      (name.reread enclosing) [] h.fields h.distinct (fun _ _ => List.not_mem_nil)
    refine ⟨_, .record (by cbv) (.inl rfl)
      (heads_document h.clear.1 (by cbv) (by cbv) (by cbv)) (by cbv) hfields, ?_⟩
    exact List.perm_append_comm.trans (hperm.cons _)

theorem denotes_documents : ∀ (branches : List Canonical) (enclosing : String),
    (∀ branch ∈ branches, branch.Legible) →
    ∃ ds, Json.DenotesAll (documents branches) enclosing
        (types (rereadAll enclosing branches))
        ((definitionsAll (rereadAll enclosing branches)).map (·.name)) ds
      ∧ ds.Perm (definitionsAll (rereadAll enclosing branches))
  | [], _, _ => ⟨[], .nil, .refl _⟩
  | branch :: rest, enclosing, h => by
    obtain ⟨hbranch, hrest⟩ := List.forall_mem_cons.mp h
    obtain ⟨ds, hdenotes, hperm⟩ := denotes_document branch enclosing hbranch
    obtain ⟨ds', hothers, hperm'⟩ := denotes_documents rest enclosing hrest
    refine ⟨ds ++ ds', ?_, hperm.append hperm'⟩
    rw [rereadAll, types, definitionsAll, List.map_append]
    exact .cons hdenotes hothers

theorem denotes_fieldDocuments : ∀ (forms : List (String × Canonical))
    (owner : FullName) (seen : List String),
    (∀ form ∈ forms, form.2.Legible) → (forms.map (·.1)).Nodup →
    (∀ form ∈ forms, form.1 ∉ seen) →
    ∃ ds, Json.DenotesFields owner seen (fieldDocuments forms)
        (fields (rereadFields owner.space forms))
        ((definitionsFields (rereadFields owner.space forms)).map (·.name)) ds
      ∧ ds.Perm (definitionsFields (rereadFields owner.space forms))
  | [], _, _, _, _, _ => ⟨[], .nil, .refl _⟩
  | (name, type) :: rest, owner, seen, h, hdistinct, hnew => by
    obtain ⟨htype, hrest⟩ := List.forall_mem_cons.mp h
    obtain ⟨hfirst, hothers⟩ := List.forall_mem_cons.mp hnew
    obtain ⟨hfresh, hdistinct⟩ := List.nodup_cons.mp hdistinct
    obtain ⟨ds, hdenotes, hperm⟩ := denotes_document type owner.space htype
    obtain ⟨ds', hfields, hperm'⟩ := denotes_fieldDocuments rest owner
      (name :: seen) hrest hdistinct (by
        intro form hform hmem
        rcases List.mem_cons.mp hmem with heq | hmem
        · exact hfresh (List.mem_map.mpr ⟨form, hform, heq⟩)
        · exact hothers form hform hmem)
    refine ⟨ds ++ ds', ?_, hperm.append hperm'⟩
    rw [rereadFields, definitionsFields, List.map_append]
    have hdefault : Entries.find? "default" [("name", Json.string name),
      ("type", type.document)] = none := by cbv
    have hdoc : Json.optionalString [("name", Json.string name),
      ("type", type.document)] "doc" = none := by cbv
    have hcons := @Json.DenotesFields.cons owner seen
      [("name", .string name), ("type", type.document)] _ _ _ _ _ _ _ _ _ _
      (by cbv) hfirst (by cbv) hdenotes (by cbv) hfields
    rw [hdefault, hdoc] at hcons
    exact hcons

end

/-! ## Forms that stay -/

mutual

/-- **The names of a form stay** what they are when it is read in a namespace
where some names are known: definitions of the null namespace stand in no other
one, and a reference to one stands in another one only if this has no type of
the same name. -/
def Stays (known : FullName → Prop) (enclosing : String) : Canonical → Prop
  | primitive _ => True
  | array items => items.Stays known enclosing
  | map values => values.Stays known enclosing
  | union branches => StayAll known enclosing branches
  | reference name => (name.space ≠ "" ∨ enclosing = "")
    ∨ ¬ known ⟨name.name, enclosing⟩
  | record name fields => (name.space ≠ "" ∨ enclosing = "")
    ∧ StayFields known name.space fields
  | enum name _ | fixed name _ => name.space ≠ "" ∨ enclosing = ""

/-- The names of all branches stay. -/
def StayAll (known : FullName → Prop) (enclosing : String) :
    List Canonical → Prop
  | [] => True
  | branch :: rest => branch.Stays known enclosing
    ∧ StayAll known enclosing rest

/-- The names of all fields stay. -/
def StayFields (known : FullName → Prop) (enclosing : String) :
    List (String × Canonical) → Prop
  | [] => True
  | (_, type) :: rest => type.Stays known enclosing
    ∧ StayFields known enclosing rest

end

variable {known : List FullName}

/-- A reference is linked back if it stays. -/
theorem link_reread_iff (hname : name ∈ known) :
    (TypeExpr.named (name.reread enclosing)).link known = .ok (.named name)
      ↔ (name.space ≠ "" ∨ enclosing = "") ∨ ⟨name.name, enclosing⟩ ∉ known := by
  by_cases hself : name.space ≠ "" ∨ enclosing = ""
  · rw [FullName.reread_eq_self_iff.mpr hself, TypeExpr.link,
      if_pos (List.contains_iff_mem.mpr hname)]
    exact iff_of_true rfl (.inl hself)
  · have hspace : name.space = "" := by_contra fun h => hself (.inl h)
    have hother : name.reread enclosing = ⟨name.name, enclosing⟩ := if_pos hspace
    have hbare : (FullName.mk name.name enclosing).bare = name := by
      rw [FullName.bare, ← hspace]
    have hne : (⟨name.name, enclosing⟩ : FullName) ≠ name := fun h =>
      hself (FullName.reread_eq_self_iff.mp (hother.trans h))
    rw [hother, TypeExpr.link, hbare]
    by_cases hknown : ⟨name.name, enclosing⟩ ∈ known
    · rw [if_pos (List.contains_iff_mem.mpr hknown)]
      refine iff_of_false (fun h => hne ?_) (fun h => h.elim hself (· hknown))
      exact TypeExpr.named.inj (Except.ok.inj h)
    · rw [if_neg (fun h => hknown (List.contains_iff_mem.mp h)),
        if_pos (List.contains_iff_mem.mpr hname)]
      exact iff_of_true rfl (.inr hknown)

/-- What is written out is linked to what it was. -/
def LinkedTo (known : List FullName) (ds ds' : List Definition) : Prop :=
  List.Forall₂ (fun d d' => Schema.linkDefinition known d = .ok d') ds ds'

theorem linkedTo_cons_iff {d d' : Definition} {ds ds' : List Definition} :
    LinkedTo known (d :: ds) (d' :: ds')
      ↔ Schema.linkDefinition known d = .ok d' ∧ LinkedTo known ds ds' :=
  List.forall₂_cons

theorem linkedTo_append_iff {ds ds' rest rest' : List Definition}
    (h : ds.length = ds'.length) :
    LinkedTo known (ds ++ rest) (ds' ++ rest')
      ↔ LinkedTo known ds ds' ∧ LinkedTo known rest rest' := by
  refine ⟨fun hall => ⟨?_, ?_⟩, fun ⟨hfirst, hrest⟩ =>
    List.rel_append hfirst hrest⟩
  · have htake := List.forall₂_take ds.length hall
    rwa [List.take_left, h, List.take_left] at htake
  · have hdrop := List.forall₂_drop ds.length hall
    rwa [List.drop_left, h, List.drop_left] at hdrop

mutual

/-- As many definitions are read as were written. -/
theorem length_definitions_reread : ∀ (c : Canonical) (enclosing : String),
    (c.reread enclosing).definitions.length = c.definitions.length
  | primitive _, _ | reference _, _ | enum _ _, _ | fixed _ _, _ => rfl
  | array items, enclosing => length_definitions_reread items enclosing
  | map values, enclosing => length_definitions_reread values enclosing
  | union branches, enclosing => length_definitionsAll_reread branches enclosing
  | record _ forms, _ =>
    congrArg (· + 1) (length_definitionsFields_reread forms _)

theorem length_definitionsAll_reread :
    ∀ (branches : List Canonical) (enclosing : String),
      (definitionsAll (rereadAll enclosing branches)).length
        = (definitionsAll branches).length
  | [], _ => rfl
  | branch :: rest, enclosing => by
    rw [rereadAll, definitionsAll, definitionsAll, List.length_append,
      List.length_append, length_definitions_reread branch enclosing,
      length_definitionsAll_reread rest enclosing]

theorem length_definitionsFields_reread :
    ∀ (forms : List (String × Canonical)) (enclosing : String),
      (definitionsFields (rereadFields enclosing forms)).length
        = (definitionsFields forms).length
  | [], _ => rfl
  | (_, type) :: rest, enclosing => by
    rw [rereadFields, definitionsFields, definitionsFields, List.length_append,
      List.length_append, length_definitions_reread type enclosing,
      length_definitionsFields_reread rest enclosing]

end

/-- What is computed before a value is put together. -/
theorem map_eq_ok_iff {ε α β : Type} {m : Except ε α} {f : α → β}
    (hf : ∀ a a', f a = f a' → a = a') {a : α} :
    m.map f = .ok (f a) ↔ m = .ok a := by
  cases m with
  | error e => exact iff_of_false nofun nofun
  | ok a' =>
    exact ⟨fun h => congrArg Except.ok (hf _ _ (Except.ok.inj h)),
      fun h => congrArg (Except.map f) h⟩

/-- A list that is computed item by item. -/
theorem bind_map_cons_eq_ok_iff {ε α : Type} {m : Except ε α}
    {rest : Except ε (List α)} {a : α} {as : List α} :
    (m.bind fun a => rest.map (a :: ·)) = .ok (a :: as)
      ↔ m = .ok a ∧ rest = .ok as := by
  cases m with
  | error e => exact iff_of_false nofun fun h => absurd h.1 nofun
  | ok a' =>
    change rest.map (a' :: ·) = _ ↔ _
    cases rest with
    | error e => exact iff_of_false nofun fun h => absurd h.2 nofun
    | ok as' =>
      simp only [Except.map, Except.ok.injEq, List.cons.injEq]

theorem linkFields_cons_iff {field : String} {t t' : TypeExpr}
    {rest rest' : List Field} :
    Schema.linkFields known (⟨field, t, [], none, none⟩ :: rest)
        = .ok (⟨field, t', [], none, none⟩ :: rest')
      ↔ t.link known = .ok t' ∧ Schema.linkFields known rest = .ok rest' := by
  rw [Schema.linkFields_cons, bind_map_cons_eq_ok_iff]
  refine and_congr_left' (map_eq_ok_iff
    (f := fun type => (⟨field, type, [], none, none⟩ : Field)) ?_)
  intro a a' h
  exact (Field.mk.inj h).2.1

/-- A record is linked to another one. -/
theorem linkDefinition_record_iff {name' : FullName} {fs fs' : List Field} :
    Schema.linkDefinition known (.record ⟨name', [], fs', none⟩)
        = .ok (.record ⟨name, [], fs, none⟩)
      ↔ name' = name ∧ Schema.linkFields known fs' = .ok fs := by
  rw [Schema.linkDefinition]
  cases Schema.linkFields known fs' with
  | error e => simp [Except.map]
  | ok fs'' =>
    simp only [Except.map, Except.ok.injEq, Definition.record.injEq,
      RecordType.mk.injEq, true_and, and_true]

/-- A definition without parts is linked to another one that has the name
which it is read as. -/
theorem linkedTo_singleton_iff {d : FullName → Definition}
    (hlink : ∀ n, Schema.linkDefinition known (d n) = .ok (d n))
    (hd : ∀ n n', d n = d n' → n = n') :
    LinkedTo known [d (name.reread enclosing)] [d name]
      ↔ name.space ≠ "" ∨ enclosing = "" := by
  rw [linkedTo_cons_iff, and_iff_left .nil, hlink,
    ← FullName.reread_eq_self_iff, Except.ok.injEq]
  exact ⟨hd _ _, congrArg d⟩

mutual

/-- **A form is linked back if its names stay**, and only then, if the names in
it are known: what it is read as is linked to its type, and so are the
definitions. -/
theorem stays_iff : ∀ (c : Canonical) (enclosing : String),
    (∀ n, c.type.Mentions n → n ∈ known) →
    (∀ d ∈ c.definitions, ∀ n, d.Mentions n → n ∈ known) →
    (c.Stays (· ∈ known) enclosing ↔
      (c.reread enclosing).type.link known = .ok c.type
        ∧ LinkedTo known (c.reread enclosing).definitions c.definitions)
  | primitive p, _, _, _ => iff_of_true trivial ⟨rfl, .nil⟩
  | reference name, _, htype, _ =>
    (link_reread_iff (htype name rfl)).symm.trans
      (and_iff_left (.nil : LinkedTo known [] [])).symm
  | array items, enclosing, htype, hdefinitions => by
    refine (stays_iff items enclosing htype hdefinitions).trans
      (and_congr_left' (Iff.symm ?_))
    exact map_eq_ok_iff (f := TypeExpr.array) fun _ _ => TypeExpr.array.inj
  | map values, enclosing, htype, hdefinitions => by
    refine (stays_iff values enclosing htype hdefinitions).trans
      (and_congr_left' (Iff.symm ?_))
    exact map_eq_ok_iff (f := TypeExpr.map) fun _ _ => TypeExpr.map.inj
  | union branches, enclosing, htype, hdefinitions => by
    refine (stayAll_iff branches enclosing htype hdefinitions).trans
      (and_congr_left' (Iff.symm ?_))
    exact map_eq_ok_iff (f := TypeExpr.union) fun _ _ => TypeExpr.union.inj
  | enum name symbols, enclosing, htype, _ => by
    have hlinked := @linkedTo_singleton_iff enclosing name known
      (fun n => .enum ⟨n, [], symbols, none, none⟩) (fun _ => rfl)
      fun _ _ h => (EnumType.mk.inj (Definition.enum.inj h)).1
    refine ⟨fun h => ⟨?_, hlinked.mpr h⟩, fun h => hlinked.mp h.2⟩
    exact (link_reread_iff (htype name rfl)).mpr (.inl h)
  | fixed name size, enclosing, htype, _ => by
    have hlinked := @linkedTo_singleton_iff enclosing name known
      (fun n => .fixed ⟨n, [], size⟩) (fun _ => rfl) fun _ _ h => (FixedType.mk.inj (Definition.fixed.inj h)).1
    refine ⟨fun h => ⟨?_, hlinked.mpr h⟩, fun h => hlinked.mp h.2⟩
    exact (link_reread_iff (htype name rfl)).mpr (.inl h)
  | record name forms, enclosing, htype, hdefinitions => by
    obtain ⟨hrecord, hrest⟩ := List.forall_mem_cons.mp hdefinitions
    have hfields := stayFields_iff forms name.space hrecord hrest
    rw [Stays, hfields, reread, definitions, definitions,
      linkedTo_cons_iff, linkDefinition_record_iff, FullName.reread_eq_self_iff]
    constructor
    · rintro ⟨hname, hlinked, hothers⟩
      refine ⟨(link_reread_iff (htype name rfl)).mpr (.inl hname), ?_⟩
      rw [FullName.reread_eq_self_iff.mpr hname]
      exact ⟨⟨hname, hlinked⟩, hothers⟩
    · rintro ⟨-, ⟨hname, hlinked⟩, hothers⟩
      rw [FullName.reread_eq_self_iff.mpr hname] at hlinked hothers
      exact ⟨hname, hlinked, hothers⟩

theorem stayAll_iff : ∀ (branches : List Canonical) (enclosing : String),
    (∀ n, TypeExpr.AnyMentions n (types branches) → n ∈ known) →
    (∀ d ∈ definitionsAll branches, ∀ n, d.Mentions n → n ∈ known) →
    (StayAll (· ∈ known) enclosing branches ↔
      TypeExpr.linkAll known (types (rereadAll enclosing branches))
          = .ok (types branches)
        ∧ LinkedTo known (definitionsAll (rereadAll enclosing branches))
          (definitionsAll branches))
  | [], _, _, _ => iff_of_true trivial ⟨rfl, .nil⟩
  | branch :: rest, enclosing, htype, hdefinitions => by
    obtain ⟨hfirst, hrest⟩ := List.forall_mem_append.mp hdefinitions
    rw [StayAll, stays_iff branch enclosing (fun n hn => htype n (.inl hn)) hfirst,
      stayAll_iff rest enclosing (fun n hn => htype n (.inr hn)) hrest,
      rereadAll, types, types, definitionsAll, definitionsAll,
      TypeExpr.linkAll_cons, bind_map_cons_eq_ok_iff,
      linkedTo_append_iff (length_definitions_reread branch enclosing)]
    exact and_and_and_comm

theorem stayFields_iff :
    ∀ (forms : List (String × Canonical)) (enclosing : String),
      (∀ n, MentionedIn (fields forms) n → n ∈ known) →
      (∀ d ∈ definitionsFields forms, ∀ n, d.Mentions n → n ∈ known) →
      (StayFields (· ∈ known) enclosing forms ↔
        Schema.linkFields known (fields (rereadFields enclosing forms))
            = .ok (fields forms)
          ∧ LinkedTo known (definitionsFields (rereadFields enclosing forms))
            (definitionsFields forms))
  | [], _, _, _ => iff_of_true trivial ⟨rfl, .nil⟩
  | (name, type) :: rest, enclosing, htype, hdefinitions => by
    obtain ⟨hfirst, hrest⟩ := List.forall_mem_append.mp hdefinitions
    rw [StayFields,
      stays_iff type enclosing
        (fun n hn => htype n ⟨_, List.mem_cons_self, hn⟩) hfirst,
      stayFields_iff rest enclosing (by
        rintro n ⟨field, hfield, hn⟩
        exact htype n ⟨field, List.mem_cons_of_mem _ hfield, hn⟩) hrest,
      rereadFields, definitionsFields, definitionsFields,
      linkedTo_append_iff (length_definitions_reread type enclosing)]
    refine and_and_and_comm.trans (and_congr_left' (Iff.symm ?_))
    exact linkFields_cons_iff

end

end Canonical

end Avro
