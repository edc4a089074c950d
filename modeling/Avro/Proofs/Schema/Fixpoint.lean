import Avro.Proofs.Schema.ReadBack

/-!
# Canonical forms that are read as themselves

The canonical form of a schema is a document, and a schema that is stored as its
canonical form should be found again under its fingerprint. A form writes the
names of types in full, but nothing in a name of the null namespace says that it
is one. So the form is read as a schema with the same form if and only if its
names stay what they are (`Schema.canonicalForm_readBack`), and this schema is
then the original without what is stripped.

Otherwise the form is rejected or is read as another schema
(`Misread.canonicalForm_rejected`).
-/

namespace Avro

namespace Schema

variable {s : Schema} {source : String}

/-- **A schema keeps its names** if those in its canonical form stay what they
are: a type of the null namespace is not defined within a record of another
one, and where it is referred to there, this namespace has no type of the same
name. -/
def KeepsNames (s : Schema) : Prop :=
  s.canonical.Stays (· ∈ s.definitions.map (·.name)) ""

/-- **A schema as its canonical form says it**: the definitions are stripped and
are in the order in which they are written. -/
def stored (s : Schema) : Schema :=
  ⟨s.root, s.canonical.definitions, s.canonicalForm⟩

/-! ## Names that stay -/

/-- **Names stay if and only if the form is linked back** to itself. -/
theorem keepsNames_iff (h : parse source = .ok s) (hclear : s.Clear) :
    s.KeepsNames ↔
      (s.canonical.reread "").type.link (s.canonical.definitions.map (·.name))
          = .ok s.canonical.type
        ∧ Canonical.LinkedTo (s.canonical.definitions.map (·.name))
          (s.canonical.reread "").definitions s.canonical.definitions := by
  have hformed := parse_wellFormed h
  have hperm := names_canonical_perm hformed (parse_complete h) hclear
  obtain ⟨htype, hdefinitions⟩ := defined_of_mentions_canonical hformed hclear
  have hknown : (· ∈ s.definitions.map (·.name))
      = (· ∈ s.canonical.definitions.map (·.name)) :=
    funext fun _ => propext hperm.mem_iff.symm
  rw [KeepsNames, hknown]
  exact Canonical.stays_iff s.canonical ""
    (fun n hn => hperm.mem_iff.mpr (htype n hn))
    (fun d hd n hn => hperm.mem_iff.mpr (hdefinitions d hd n hn))

/-- **A form whose names stay is read** as the schema that it says. -/
theorem KeepsNames.parse (h : s.KeepsNames) (hparse : parse source = .ok s)
    (hclear : s.Clear) (hnesting : s.canonical.document.nesting < 128) :
    parse s.canonicalForm = .ok s.stored := by
  have hformed := parse_wellFormed hparse
  obtain ⟨hlegible, hsizes⟩ := legible_canonical hparse hclear
  have hread := Canonical.parse_text_eq_of_linked hlegible hsizes hnesting
    (nodup_canonical_definitions hformed hclear)
    ((keepsNames_iff hparse hclear).mp h)
  rwa [show s.canonical.type = s.root from
    (spelledAs_canonical hformed hclear).type] at hread

/-- A schema is like what its form says. -/
theorem alike_stored (h : parse source = .ok s) (hclear : s.Clear) :
    s.Alike s.stored := by
  have hformed := parse_wellFormed h
  have hmem := fun {d : Definition} =>
    mem_canonical_definitions (d := d) hformed (parse_complete h) hclear
  refine ⟨rfl, fun name => ?_⟩
  cases hfound : s.stored.definition? name with
  | some d =>
    have hd : d ∈ s.canonical.definitions := List.mem_of_find?_eq_some hfound
    have hname : d.name = name := definition?_name hfound
    have hbare : d.stripped = d := Canonical.stripped_of_mem_definitions hd
    rw [← hname, hmem.mp hd, Option.map_some, hbare]
  | none =>
    have hnone : s.definition? name = none := by
      by_contra hsome
      obtain ⟨x, hx⟩ := Option.ne_none_iff_exists'.mp hsome
      have hx' := stripped_mem_definitions hformed (parse_complete h) hclear hx
      have hother := List.find?_eq_none.mp hfound _ hx'
      rw [x.name_stripped, definition?_name hx] at hother
      exact hother (decide_eq_true rfl)
    rw [hnone]

/-! ## Forms that are read as themselves -/

/-- Definitions of the same names are the same if the one are among the
other. -/
theorem eq_of_names {ds ds' : List Definition} (hsub : ds ⊆ ds')
    (hnames : ds.map (·.name) = ds'.map (·.name))
    (hnodup : (ds'.map (·.name)).Nodup) : ds = ds' := by
  have hnodup' := hnames ▸ hnodup
  have hlength : ds'.length ≤ ds.length := by
    simpa using (congrArg List.length hnames).ge
  have hperm : ds.Perm ds' :=
    (hnodup'.of_map.subperm hsub).perm_of_length_le hlength
  rw [← Declarations.inOrder_eq hperm hnodup, ← hnames]
  exact (Declarations.inOrder_eq (.refl ds) hnodup').symm

section

variable {s' : Schema} (h : parse source = .ok s) (hclear : s.Clear)
  (hnesting : s.canonical.document.nesting < 128)
  (h' : parse s.canonicalForm = .ok s')

include h hclear hnesting h'

/-- A schema that is read from a form has the names that are read of it. -/
theorem exists_walked_canonicalForm : ∃ root declared,
    Walked s.canonicalForm s.canonical.document root declared
      ∧ root.link declared.names = .ok s'.root
      ∧ linkDefinitions declared.names declared.inOrder = .ok s'.definitions
      ∧ s'.definitions.map (·.name) = declared.names
      ∧ ∀ n, n ∈ declared.names
        ↔ n ∈ (s.canonical.reread "").definitions.map (·.name) := by
  obtain ⟨hlegible, hsizes⟩ := legible_canonical h hclear
  obtain ⟨j, root, declared, hwalked, hroot, hdefinitions, -⟩ := exists_walked h'
  obtain rfl : j = s.canonical.document := Except.ok.inj
    (hwalked.json.symm.trans (Canonical.parse_text hnesting hsizes))
  obtain ⟨ds, hdenotes, -⟩ := Canonical.denotes_document s.canonical "" hlegible
  have hnames := hwalked.reads.declared.map_name_inOrder
  rw [hnames] at hroot hdefinitions
  refine ⟨root, declared, hwalked, hroot, hdefinitions,
    (linkDefinitions_spec hdefinitions).1.trans hnames, fun n => ?_⟩
  exact (hwalked.accounts.declared n).trans (hdenotes.accounts.declared n).symm

/-- No name of a primitive type comes from reading. -/
theorem clear_of_reread : s'.Clear := by
  obtain ⟨_, _, -, -, -, hnames, hmem⟩ :=
    exists_walked_canonicalForm h hclear hnesting h'
  refine clear_iff.mpr fun d hd p hp => ?_
  have hread : d.name ∈ (s.canonical.reread "").definitions.map (·.name) :=
    (hmem _).mp (hnames ▸ List.mem_map_of_mem hd)
  obtain ⟨n, hn, enclosing, hname⟩ :=
    exists_right_of_mem (Canonical.namesReread s.canonical "") hread
  -- A name of the null namespace is read as it was written.
  have hspace : (n.reread enclosing).space = "" := by rw [← hname, hp]
  rw [hp, FullName.eq_of_reread_space hspace] at hname
  obtain ⟨x, hx, hxn⟩ := List.mem_map.mp ((names_canonical_perm
    (parse_wellFormed h) (parse_complete h) hclear).mem_iff.mp hn)
  exact clear_iff.mp hclear x hx p (hxn.trans hname.symm)

/-- If a schema is read from its form as one that is alike, its names are those
that are read. -/
theorem perm_of_reread (halike : s.Alike s') :
    ((s.canonical.reread "").definitions.map (·.name)).Perm
      (s.canonical.definitions.map (·.name)) := by
  obtain ⟨_, declared, hwalked, -, -, hnames, hmem⟩ :=
    exists_walked_canonicalForm h hclear hnesting h'
  have hcomplete := parse_complete h
  have hsame := (names_canonical_perm (parse_wellFormed h) hcomplete hclear).trans
    (halike.names_perm hcomplete (parse_complete h'))
  rw [hnames] at hsame
  have hlength : ((s.canonical.reread "").definitions.map (·.name)).length
      ≤ declared.names.length := by
    rw [← hsame.length_eq, List.length_map, List.length_map,
      Canonical.length_definitions_reread]
  have hsub : declared.names
      ⊆ (s.canonical.reread "").definitions.map (·.name) :=
    fun n => (hmem n).mp
  have hread := (hwalked.nodup.subperm hsub).perm_of_length_le hlength
  exact hread.symm.trans hsame.symm

/-- **The schema that is read is what its form is read as**, linked, if no name
is read twice. -/
theorem linked_of_reread
    (hnodup : ((s.canonical.reread "").definitions.map (·.name)).Nodup) :
    (s.canonical.reread "").type.link
        ((s.canonical.reread "").definitions.map (·.name)) = .ok s'.root
      ∧ Canonical.LinkedTo ((s.canonical.reread "").definitions.map (·.name))
        (s.canonical.reread "").definitions s'.definitions := by
  obtain ⟨root, declared, hwalked, hroot, hdefinitions, -, -⟩ :=
    exists_walked_canonicalForm h hclear hnesting h'
  obtain ⟨hlegible, hsizes⟩ := legible_canonical h hclear
  obtain ⟨declared', hwalked', hinOrder⟩ :=
    Canonical.walked_document hlegible hsizes hnesting hnodup
  -- A document is walked in one way.
  obtain ⟨rfl, rfl⟩ : root = _ ∧ declared = declared' :=
    Prod.mk.inj (Except.ok.inj (hwalked.walk.symm.trans hwalked'.walk))
  rw [← hwalked.reads.declared.map_name_inOrder, hinOrder] at hroot hdefinitions
  exact ⟨hroot, linkDefinitions_ok_iff.mp hdefinitions⟩

/-- **A schema keeps its names** if its form is read as a schema of the same
form. -/
theorem keepsNames_of_reread (hform : s'.canonicalForm = s.canonicalForm) :
    s.KeepsNames := by
  have hformed := parse_wellFormed h
  have hcomplete := parse_complete h
  have halike : s.Alike s' := alike_of_canonicalForm hformed (parse_wellFormed h')
    hcomplete (parse_complete h') hclear
    (clear_of_reread h hclear hnesting h') hform.symm
  have hnodup := nodup_canonical_definitions hformed hclear
  have hperm := perm_of_reread h hclear hnesting h' halike
  obtain ⟨hroot, hlinked⟩ := linked_of_reread h hclear hnesting h'
    (hperm.nodup_iff.mpr hnodup)
  -- As many names of the null namespace are read as were written, so that none
  -- is moved into another namespace.
  have hnames := (Canonical.namesReread s.canonical "").eq_of_countP
    (hperm.countP_eq _).ge
  rw [hnames] at hroot hlinked
  have hnames' := hlinked.names.trans hnames
  have hsub : s'.definitions ⊆ s.canonical.definitions := by
    intro d' hd'
    obtain ⟨d, hd, hlink⟩ := exists_left_of_mem hlinked hd'
    have hbare := stripped_of_linkDefinition hlink
      (Canonical.stripped_of_mem_definitions hd)
    have hfound : s'.definition? d'.name = some d' :=
      find?_of_nodup (parse_complete h').nodup hd'
    refine (mem_canonical_definitions hformed hcomplete hclear).mpr ?_
    rw [halike.definition, hfound, Option.map_some, hbare]
  rw [eq_of_names hsub hnames' hnodup] at hlinked
  rw [← halike.root, ← (spelledAs_canonical hformed hclear).type] at hroot
  exact (keepsNames_iff h hclear).mpr ⟨hroot, hlinked⟩

end

/-- **Reading a canonical form**: the form of a schema that was read is read as
a schema with the same form, and the same fingerprint, if and only if the schema
keeps its names. It is then read as the schema itself, stripped. -/
theorem canonicalForm_readBack (h : parse source = .ok s) (hclear : s.Clear)
    (hnesting : s.canonical.document.nesting < 128) :
    (s.KeepsNames ↔ ∃ s', parse s.canonicalForm = .ok s'
      ∧ s'.canonicalForm = s.canonicalForm)
    ∧ (s.KeepsNames → parse s.canonicalForm = .ok s.stored
      ∧ s.stored.canonicalForm = s.canonicalForm
      ∧ s.stored.fingerprint = s.fingerprint) := by
  have hkept : s.KeepsNames → parse s.canonicalForm = .ok s.stored
      ∧ s.stored.canonicalForm = s.canonicalForm
      ∧ s.stored.fingerprint = s.fingerprint := by
    intro hkeeps
    have hparse := hkeeps.parse h hclear hnesting
    have hform := (alike_stored h hclear).canonicalForm (parse_complete h)
      (parse_complete hparse)
    refine ⟨hparse, hform.symm, ?_⟩
    rw [fingerprint, fingerprint, hform]
  refine ⟨⟨fun hkeeps => ?_, fun ⟨s', h', hform⟩ => ?_⟩, hkept⟩
  · exact ⟨s.stored, (hkept hkeeps).1, (hkept hkeeps).2.1⟩
  · exact keepsNames_of_reread h hclear hnesting h' hform

end Schema

/-! ## A name that stays

A reference to a type of the null namespace stands in a record of another one,
where this has no type of the same name. -/

namespace Kept

/-- The document. -/
def text : String :=
  "[\x7b\"type\":\"fixed\",\"name\":\"N\",\"size\":1\x7d," ++
    "\x7b\"type\":\"record\",\"name\":\"a.R\",\"fields\":[" ++
    "\x7b\"name\":\"f\",\"type\":\"N\"\x7d]\x7d]"

/-- The schema. -/
def schema : Schema where
  root := .union [.named ⟨"N", ""⟩, .named ⟨"R", "a"⟩]
  definitions :=
    [.fixed ⟨⟨"N", ""⟩, [], 1⟩,
      .record ⟨⟨"R", "a"⟩, [], [⟨"f", .named ⟨"N", ""⟩, [], none, none⟩], none⟩]
  source := text

/-- What is written of the schema. -/
def form : Canonical :=
  .union [.fixed ⟨"N", ""⟩ 1, .record ⟨"R", "a"⟩ [("f", .reference ⟨"N", ""⟩)]]

theorem parse_text : Schema.parse text = .ok schema := by
  have hchars : text.toList = _ :=
    toList_append_eq (toList_append_eq String.toList_ofList
      String.toList_ofList) String.toList_ofList
  rw [Schema.parse, Json.parse, hchars]
  cbv

theorem clear_schema : schema.Clear := by
  refine Schema.clear_iff.mpr ?_
  simp only [schema, List.forall_mem_cons]
  refine ⟨fun p => ?_, fun p => ?_, fun _ h => absurd h List.not_mem_nil⟩ <;>
    cases p <;> decide

theorem canonical_schema : schema.canonical = form := by
  cbv

theorem keepsNames_schema : schema.KeepsNames := by
  rw [Schema.KeepsNames, canonical_schema]
  refine ⟨.inr rfl, ⟨.inl (by decide), .inr (by decide), trivial⟩, trivial⟩

end Kept

/-- A schema that keeps its names is read back from its form. -/
theorem Schema.canonicalForm_readBack_kept :
    Schema.parse Kept.text = .ok Kept.schema ∧ Kept.schema.Clear
    ∧ Kept.schema.canonical.document.nesting < 128
    ∧ Kept.schema.KeepsNames
    ∧ Schema.parse Kept.schema.canonicalForm = .ok Kept.schema.stored
    ∧ Kept.schema.stored.fingerprint = Kept.schema.fingerprint := by
  have hnesting : Kept.schema.canonical.document.nesting < 128 := by
    rw [Kept.canonical_schema]
    decide
  obtain ⟨-, hkept⟩ := Schema.canonicalForm_readBack Kept.parse_text
    Kept.clear_schema hnesting
  obtain ⟨hparse, -, hfingerprint⟩ := hkept Kept.keepsNames_schema
  exact ⟨Kept.parse_text, Kept.clear_schema, hnesting, Kept.keepsNames_schema,
    hparse, hfingerprint⟩

/-! ## A name that is lost

Two types of the same name are defined in a record, one in the namespace of the
record and one in the null namespace. -/

namespace Misread

/-- The document. -/
def text : String :=
  "\x7b\"type\":\"record\",\"name\":\"a.R\",\"fields\":[" ++
    "\x7b\"name\":\"f\",\"type\":" ++
    "\x7b\"type\":\"fixed\",\"name\":\"a.N\",\"size\":1\x7d\x7d," ++
    "\x7b\"name\":\"g\",\"type\":\x7b\"type\":\"fixed\"," ++
    "\"name\":\"N\",\"namespace\":\"\",\"size\":2\x7d\x7d]\x7d"

/-- The schema. -/
def schema : Schema where
  root := .named ⟨"R", "a"⟩
  definitions :=
    [.record ⟨⟨"R", "a"⟩, [],
      [⟨"f", .named ⟨"N", "a"⟩, [], none, none⟩,
        ⟨"g", .named ⟨"N", ""⟩, [], none, none⟩], none⟩,
      .fixed ⟨⟨"N", "a"⟩, [], 1⟩, .fixed ⟨⟨"N", ""⟩, [], 2⟩]
  source := text

/-- What is written of the schema. -/
def form : Canonical :=
  .record ⟨"R", "a"⟩ [("f", .fixed ⟨"N", "a"⟩ 1), ("g", .fixed ⟨"N", ""⟩ 2)]

theorem parse_text : Schema.parse text = .ok schema := by
  have hchars : text.toList = _ :=
    toList_append_eq (toList_append_eq (toList_append_eq (toList_append_eq
      String.toList_ofList String.toList_ofList) String.toList_ofList)
      String.toList_ofList) String.toList_ofList
  rw [Schema.parse, Json.parse, hchars]
  cbv

theorem clear_schema : schema.Clear := by
  refine Schema.clear_iff.mpr ?_
  simp only [schema, List.forall_mem_cons]
  refine ⟨fun p => ?_, fun p => ?_, fun p => ?_,
    fun _ h => absurd h List.not_mem_nil⟩ <;> cases p <;> decide

theorem canonical_schema : schema.canonical = form := by
  cbv

/-- The form is read as a document. -/
theorem json_form : Json.parse form.text = .ok form.document := by
  refine Canonical.parse_text (by decide) fun f hf => ?_
  rcases hf with _ | ⟨_, _ | ⟨_, _ | ⟨_, hf⟩⟩⟩
  · decide
  · decide
  · exact absurd hf List.not_mem_nil

/-- The document is rejected. -/
theorem ofJson_form (source : String) :
    Schema.ofJson form.document source
      = .error (.duplicateDefinition ⟨"N", "a"⟩) := by
  cbv

/-- **A form may be rejected**: the second type of the record is read as one of
the namespace of the record, where its name is taken. -/
theorem canonicalForm_rejected :
    Schema.parse text = .ok schema ∧ schema.Clear
    ∧ schema.canonical.document.nesting < 128
    ∧ Schema.parse schema.canonicalForm
      = .error (.duplicateDefinition ⟨"N", "a"⟩) := by
  have hread : Schema.parse form.text = Schema.ofJson form.document form.text :=
    by rw [Schema.parse, json_form]
  refine ⟨parse_text, clear_schema, ?_, ?_⟩
  · rw [canonical_schema]
    decide
  · rw [Schema.canonicalForm, canonical_schema, hread, ofJson_form]

end Misread

end Avro
