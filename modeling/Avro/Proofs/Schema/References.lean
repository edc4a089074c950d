import Avro.Proofs.Schema.Reachability

/-!
# The names in a document

Where a document declares names, and where it refers to them, can be seen in
the JSON value without reading it: some values stand where a type is expected
(`Json.Part`), in a namespace that the definitions around them decide, and each
of them declares a name, refers to one, or does neither (`Json.declares?`,
`Json.refers?`). Nothing is said of an order, so a name may be referred to
before its definition, inside it and after it alike.

What is read from the document has these names and no others
(`Json.Denotes.accounts`): the declared names are those of the definitions, a
name that is referred to is mentioned in a type, and a type mentions nothing
else but names that are declared where they stand.
-/

namespace Avro

namespace Json

open Schema (keywords typeOfName)

/-! ## Where types stand -/

/-- The words of definitions. -/
def definers : List String := ["record", "error", "enum", "fixed"]

/-- The words of types in which types stand. -/
def compounds : List String := ["record", "error", "array", "map"]

theorem definers_subset : definers ⊆ keywords := by decide

theorem compounds_subset : compounds ⊆ keywords := by decide

/-- **A value stands in another one where a type is expected**, with the
namespaces that enclose the two. -/
inductive Part : Json → (enclosing : String) → Json → String → Prop
  /-- A branch of a union. -/
  | branch {items : List Json} {enclosing : String} {item : Json}
    (mem : item ∈ items) : Part (.array items) enclosing item enclosing
  /-- A type in an object. -/
  | wrapped {members : Members} {enclosing : String} {inner : Json}
    (word : Entries.find? "type" members = some inner)
    (noString : inner.string? = none) :
    Part (.object members) enclosing inner enclosing
  /-- The items of an array. -/
  | items {members : Members} {enclosing : String} {inner : Json}
    (word : Entries.find? "type" members = some (.string "array"))
    (items : Entries.find? "items" members = some inner) :
    Part (.object members) enclosing inner enclosing
  /-- The values of a map. -/
  | values {members : Members} {enclosing : String} {inner : Json}
    (word : Entries.find? "type" members = some (.string "map"))
    (values : Entries.find? "values" members = some inner) :
    Part (.object members) enclosing inner enclosing
  /-- The type of a field. It stands in the namespace of the record. -/
  | field {members field : Members} {enclosing text : String} {name : FullName}
    {items : List Json} {inner : Json}
    (word : Entries.find? "type" members = some (.string text))
    (isRecord : text = "record" ∨ text = "error")
    (declares : declaredName? members enclosing = some name)
    (listed : Entries.find? "fields" members = some (.array items))
    (mem : .object field ∈ items)
    (typed : Entries.find? "type" field = some inner) :
    Part (.object members) enclosing inner name.space

/-- **A value occurs in another one**, any number of parts deep. -/
inductive Occurs : Json → (enclosing : String) → Json → String → Prop
  /-- It is the value itself. -/
  | here {j : Json} {enclosing : String} : Occurs j enclosing j enclosing
  /-- It occurs in a part. -/
  | inside {j inner k : Json} {enclosing between space : String}
    (part : Part j enclosing inner between) (h : Occurs inner between k space) :
    Occurs j enclosing k space

/-! ## What is said there -/

/-- The name that is declared at a value. -/
def declares? : Json → (enclosing : String) → Option FullName
  | .object members, enclosing =>
    match Entries.find? "type" members with
    | some (.string text) =>
      if text ∈ definers then declaredName? members enclosing else none
    | _ => none
  | _, _ => none

/-- The name a text refers to. The name of a primitive type is no reference. -/
def referred? (text enclosing : String) : Option FullName :=
  match Primitive.ofName? text with
  | some _ => none
  | none => some (.ofString text enclosing)

/-- The name that is referred to at a value. -/
def refers? : Json → (enclosing : String) → Option FullName
  | .string text, enclosing => referred? text enclosing
  | .object members, enclosing =>
    match Entries.find? "type" members with
    | some (.string text) =>
      if text ∈ keywords then none else referred? text enclosing
    | _ => none
  | _, _ => none

/-- A name is said at a value that occurs in another one. -/
def Anywhere (said : Json → String → Option FullName) (j : Json)
    (enclosing : String) (n : FullName) : Prop :=
  ∃ k space, Occurs j enclosing k space ∧ said k space = some n

/-- **A document declares a name.** -/
def Declares (j : Json) (n : FullName) : Prop := Anywhere declares? j "" n

/-- **A document refers to a name.** -/
def Refers (j : Json) (n : FullName) : Prop := Anywhere refers? j "" n

/-- **A reference dangles**: the document declares neither its name nor the
same name in the null namespace. -/
structure Dangles (j : Json) (n : FullName) : Prop where
  /-- It is a reference. -/
  refers : j.Refers n
  /-- The name is not declared. -/
  undeclared : ¬ j.Declares n
  /-- Neither is the bare name. -/
  bare : ¬ j.Declares n.bare

section Saying

variable {said : Json → String → Option FullName} {j inner : Json}
  {enclosing : String} {n : FullName}

/-- A name is said at a value or in one of its parts. -/
theorem anywhere_iff : Anywhere said j enclosing n ↔
    said j enclosing = some n
      ∨ ∃ i space, Part j enclosing i space ∧ Anywhere said i space n := by
  constructor
  · rintro ⟨k, space, hoccurs, hsaid⟩
    cases hoccurs with
    | here => exact .inl hsaid
    | inside part h => exact .inr ⟨_, _, part, _, _, h, hsaid⟩
  · rintro (hsaid | ⟨i, space, part, k, last, h, hsaid⟩)
    · exact ⟨j, enclosing, .here, hsaid⟩
    · exact ⟨k, last, .inside part h, hsaid⟩

/-- A value without parts. -/
theorem anywhere_leaf (hpart : ∀ i space, ¬ Part j enclosing i space) :
    Anywhere said j enclosing n ↔ said j enclosing = some n := by
  rw [anywhere_iff, or_iff_left]
  rintro ⟨i, space, part, -⟩
  exact hpart i space part

/-- A value that says nothing and has one part. -/
theorem anywhere_inner (hsaid : said j enclosing = none)
    (hpart : ∀ i space, Part j enclosing i space ↔ i = inner ∧ space = enclosing) :
    Anywhere said j enclosing n ↔ Anywhere said inner enclosing n := by
  rw [anywhere_iff, or_iff_right (by simp [hsaid])]
  constructor
  · rintro ⟨i, space, part, h⟩
    obtain ⟨rfl, rfl⟩ := (hpart i space).mp part
    exact h
  · exact fun h => ⟨inner, enclosing, (hpart _ _).mpr ⟨rfl, rfl⟩, h⟩

end Saying

/-! ## Parts of the forms of types -/

section Forms

variable {members : Members} {enclosing space text : String} {inner i : Json}

theorem part_array {items : List Json} :
    Part (.array items) enclosing i space ↔ i ∈ items ∧ space = enclosing := by
  constructor
  · rintro ⟨⟩
    exact ⟨‹_›, rfl⟩
  · rintro ⟨hmem, rfl⟩
    exact .branch hmem

theorem not_part_string : ¬ Part (.string text) enclosing i space := nofun

/-- An object has no parts if its word is not one of a type that has. -/
theorem not_part_of_word
    (word : Entries.find? "type" members = some (.string text))
    (plain : text ∉ compounds) :
    ¬ Part (.object members) enclosing i space := by
  rw [compounds] at plain
  intro h
  cases h with
  | wrapped word' noString => simp_all [string?]
  | items word' | values word' => simp_all
  | field word' isRecord => simp_all

theorem part_wrapped (word : Entries.find? "type" members = some inner)
    (noString : inner.string? = none) :
    Part (.object members) enclosing i space
      ↔ i = inner ∧ space = enclosing := by
  constructor
  · intro h
    cases h with
    | wrapped word' => exact ⟨Option.some.inj (word'.symm.trans word), rfl⟩
    | items word' | values word' | field word' =>
      obtain rfl := Option.some.inj (word.symm.trans word')
      exact absurd noString (by simp [string?])
  · rintro ⟨rfl, rfl⟩
    exact .wrapped word noString

theorem part_items
    (word : Entries.find? "type" members = some (.string "array"))
    (items : Entries.find? "items" members = some inner) :
    Part (.object members) enclosing i space
      ↔ i = inner ∧ space = enclosing := by
  constructor
  · intro h
    cases h with
    | wrapped word' noString => simp_all [string?]
    | items _ items' => exact ⟨Option.some.inj (items'.symm.trans items), rfl⟩
    | values word' | field word' => simp_all
  · rintro ⟨rfl, rfl⟩
    exact .items word items

theorem part_values
    (word : Entries.find? "type" members = some (.string "map"))
    (values : Entries.find? "values" members = some inner) :
    Part (.object members) enclosing i space
      ↔ i = inner ∧ space = enclosing := by
  constructor
  · intro h
    cases h with
    | wrapped word' noString => simp_all [string?]
    | values _ values' => exact ⟨Option.some.inj (values'.symm.trans values), rfl⟩
    | items word' | field word' => simp_all
  · rintro ⟨rfl, rfl⟩
    exact .values word values

theorem part_fields {name : FullName} {items : List Json}
    (word : Entries.find? "type" members = some (.string text))
    (isRecord : text = "record" ∨ text = "error")
    (declares : declaredName? members enclosing = some name)
    (listed : Entries.find? "fields" members = some (.array items)) :
    Part (.object members) enclosing i space ↔ space = name.space
      ∧ ∃ field, .object field ∈ items
        ∧ Entries.find? "type" field = some i := by
  constructor
  · intro h
    cases h with
    | wrapped word' noString => simp_all [string?]
    | items word' | values word' => rcases isRecord with rfl | rfl <;> simp_all
    | field _ _ declares' listed' mem typed =>
      obtain rfl := Option.some.inj (declares'.symm.trans declares)
      obtain rfl := Json.array.inj (Option.some.inj (listed'.symm.trans listed))
      exact ⟨rfl, _, mem, typed⟩
  · rintro ⟨rfl, field, mem, typed⟩
    exact .field word isRecord declares listed mem typed

end Forms

/-! ## What the forms of types say -/

section Words

variable {members : Members} {enclosing text : String}

theorem declares?_of_word
    (word : Entries.find? "type" members = some (.string text)) :
    declares? (.object members) enclosing
      = if text ∈ definers then declaredName? members enclosing else none := by
  rw [declares?, word]

theorem refers?_of_word
    (word : Entries.find? "type" members = some (.string text)) :
    refers? (.object members) enclosing
      = if text ∈ keywords then none else referred? text enclosing := by
  rw [refers?, word]

theorem declares?_of_wrapped {inner : Json}
    (word : Entries.find? "type" members = some inner)
    (noString : inner.string? = none) :
    declares? (.object members) enclosing = none := by
  rw [declares?, word]
  cases inner with
  | string s => exact absurd noString (by simp [string?])
  | _ => rfl

theorem refers?_of_wrapped {inner : Json}
    (word : Entries.find? "type" members = some inner)
    (noString : inner.string? = none) :
    refers? (.object members) enclosing = none := by
  rw [refers?, word]
  cases inner with
  | string s => exact absurd noString (by simp [string?])
  | _ => rfl

end Words

/-- A written name is mentioned if it is a reference. -/
theorem mentions_typeOfName {text enclosing : String} {n : FullName} :
    (typeOfName text enclosing).Mentions n
      ↔ referred? text enclosing = some n := by
  unfold typeOfName referred?
  cases Primitive.ofName? text <;> simp [TypeExpr.Mentions]

/-- A name is said in one of some values. -/
def InItems (said : Json → String → Option FullName) (items : List Json)
    (enclosing : String) (n : FullName) : Prop :=
  ∃ item ∈ items, Anywhere said item enclosing n

/-- A name is said in the type of one of some fields. -/
def InFields (said : Json → String → Option FullName) (items : List Json)
    (space : String) (n : FullName) : Prop :=
  ∃ field inner, .object field ∈ items ∧ Entries.find? "type" field = some inner
    ∧ Anywhere said inner space n

section Lists

variable {said : Json → String → Option FullName} {items : List Json}
  {enclosing space : String} {n : FullName}

theorem inItems_cons {item : Json} : InItems said (item :: items) enclosing n ↔
    Anywhere said item enclosing n ∨ InItems said items enclosing n := by
  simp [InItems]

theorem inFields_cons {field : Members} {inner : Json}
    (typed : Entries.find? "type" field = some inner) :
    InFields said (.object field :: items) space n ↔
      Anywhere said inner space n ∨ InFields said items space n := by
  constructor
  · rintro ⟨other, i, hmem, hi, h⟩
    rcases List.mem_cons.mp hmem with heq | hmem
    · obtain rfl := Json.object.inj heq
      obtain rfl := Option.some.inj (hi.symm.trans typed)
      exact .inl h
    · exact .inr ⟨other, i, hmem, hi, h⟩
  · rintro (h | ⟨other, i, hmem, hi, h⟩)
    · exact ⟨field, inner, List.mem_cons_self, typed, h⟩
    · exact ⟨other, i, List.mem_cons_of_mem _ hmem, hi, h⟩

/-- A union says what its branches say. -/
theorem anywhere_array (hsaid : said (.array items) enclosing = none) :
    Anywhere said (.array items) enclosing n
      ↔ InItems said items enclosing n := by
  rw [anywhere_iff, or_iff_right (by simp [hsaid])]
  constructor
  · rintro ⟨i, space, part, h⟩
    obtain ⟨hmem, rfl⟩ := part_array.mp part
    exact ⟨i, hmem, h⟩
  · rintro ⟨item, hmem, h⟩
    exact ⟨item, enclosing, .branch hmem, h⟩

/-- A record says something itself, and else what its fields say. -/
theorem anywhere_record {members : Members} {text : String} {name : FullName}
    (word : Entries.find? "type" members = some (.string text))
    (isRecord : text = "record" ∨ text = "error")
    (declares : declaredName? members enclosing = some name)
    (listed : Entries.find? "fields" members = some (.array items)) :
    Anywhere said (.object members) enclosing n
      ↔ said (.object members) enclosing = some n
        ∨ InFields said items name.space n := by
  rw [anywhere_iff]
  refine or_congr_right ⟨?_, ?_⟩
  · rintro ⟨i, space, part, h⟩
    obtain ⟨rfl, field, hmem, typed⟩ :=
      (part_fields word isRecord declares listed).mp part
    exact ⟨field, i, hmem, typed, h⟩
  · rintro ⟨field, inner, hmem, typed, h⟩
    exact ⟨inner, name.space,
      .field word isRecord declares listed hmem typed, h⟩

end Lists

/-! ## What is read has these names -/

/-- A name is mentioned in what was read, or in a definition on the way. -/
def Mentioned (mentions : FullName → Prop) (ds : List Definition)
    (n : FullName) : Prop :=
  mentions n ∨ ∃ d ∈ ds, d.Mentions n

/-- **What is read has the names that are written**: those that are declared
and those that are referred to. -/
structure Accounts (declares refers mentions : FullName → Prop)
    (names : List FullName) (ds : List Definition) : Prop where
  /-- The names of the definitions. -/
  declared : ∀ n, n ∈ names ↔ declares n
  /-- A reference is mentioned. -/
  referred : ∀ n, refers n → Mentioned mentions ds n
  /-- What is mentioned is a reference or a definition. -/
  mentioned : ∀ n, Mentioned mentions ds n → refers n ∨ declares n

namespace Accounts

variable {declares refers mentions declares' refers' mentions' : FullName → Prop}
  {names names' : List FullName} {ds ds' : List Definition}

theorem congr (h : Accounts declares refers mentions names ds)
    (hdeclares : ∀ n, declares' n ↔ declares n)
    (hrefers : ∀ n, refers' n ↔ refers n)
    (hmentions : ∀ n, mentions' n ↔ mentions n) :
    Accounts declares' refers' mentions' names ds := by
  have hmentioned : ∀ n, Mentioned mentions' ds n ↔ Mentioned mentions ds n :=
    fun n => or_congr_left (hmentions n)
  refine ⟨fun n => (h.declared n).trans (hdeclares n).symm,
    fun n hn => (hmentioned n).mpr (h.referred n ((hrefers n).mp hn)),
    fun n hn => ?_⟩
  exact (h.mentioned n ((hmentioned n).mp hn)).imp (hrefers n).mpr
    (hdeclares n).mpr

/-- Nothing is declared, and all that is mentioned is a reference. -/
theorem leaf (hdeclares : ∀ n, ¬ declares n)
    (hmentions : ∀ n, mentions n ↔ refers n) :
    Accounts declares refers mentions [] [] := by
  have hmentioned : ∀ n, Mentioned mentions [] n ↔ refers n := fun n => by
    simp [Mentioned, hmentions n]
  exact ⟨fun n => by simp [hdeclares n], fun n => (hmentioned n).mpr,
    fun n h => .inl ((hmentioned n).mp h)⟩

theorem append (h : Accounts declares refers mentions names ds)
    (h' : Accounts declares' refers' mentions' names' ds') :
    Accounts (fun n => declares n ∨ declares' n) (fun n => refers n ∨ refers' n)
      (fun n => mentions n ∨ mentions' n) (names ++ names') (ds ++ ds') := by
  have hmentioned : ∀ n,
      Mentioned (fun n => mentions n ∨ mentions' n) (ds ++ ds') n
        ↔ Mentioned mentions ds n ∨ Mentioned mentions' ds' n := fun n => by
    simp only [Mentioned, List.mem_append, or_and_right, exists_or]
    exact or_or_or_comm
  refine ⟨fun n => ?_, fun n hn => (hmentioned n).mpr ?_, fun n hn => ?_⟩
  · rw [List.mem_append, h.declared n, h'.declared n]
  · exact hn.imp (h.referred n) (h'.referred n)
  · rcases (hmentioned n).mp hn with hn | hn
    · exact (h.mentioned n hn).imp .inl .inl
    · exact (h'.mentioned n hn).imp .inr .inr

/-- The definition in which they stand is declared in front of them. -/
theorem define {d : Definition}
    (h : Accounts declares refers (d.Mentions ·) names ds) :
    Accounts (fun n => d.name = n ∨ declares n) refers (d.name = ·)
      (d.name :: names) (ds ++ [d]) := by
  have hmentioned : ∀ n, Mentioned (d.name = ·) (ds ++ [d]) n
      ↔ d.name = n ∨ Mentioned (d.Mentions ·) ds n := fun n => by
    simp only [Mentioned, List.mem_append, List.mem_singleton, or_and_right,
      exists_or, exists_eq_left]
    exact or_congr_right or_comm
  refine ⟨fun n => ?_, fun n hn => (hmentioned n).mpr (.inr (h.referred n hn)),
    fun n hn => ?_⟩
  · rw [List.mem_cons, h.declared n, eq_comm]
  · rcases (hmentioned n).mp hn with hn | hn
    · exact .inr (.inl hn)
    · exact (h.mentioned n hn).imp_right .inr

end Accounts

theorem mem_definers_of_record {text : String}
    (isRecord : text = "record" ∨ text = "error") : text ∈ definers := by
  rcases isRecord with rfl | rfl <;> decide

/-- A definition in which no type stands. -/
theorem accounts_of_simple {members : Members} {enclosing text : String}
    {d : Definition}
    (word : Entries.find? "type" members = some (.string text))
    (plain : text ∉ compounds)
    (defines : text ∈ definers)
    (declares : declaredName? members enclosing = some d.name)
    (hd : ∀ n, ¬ d.Mentions n) :
    Accounts (Anywhere declares? (.object members) enclosing)
      (Anywhere refers? (.object members) enclosing)
      ((TypeExpr.named d.name).Mentions ·) [d.name] [d] := by
  have hnone : Accounts (fun _ => False) (fun _ => False) (d.Mentions ·) [] [] :=
    .leaf (fun _ => id) fun n => iff_false_intro (hd n)
  refine hnone.define.congr (fun n => ?_) (fun n => ?_) fun n => ?_
  · rw [anywhere_leaf fun _ _ => not_part_of_word word plain,
      declares?_of_word word, if_pos defines, declares, Option.some_inj, or_false]
  · rw [anywhere_leaf fun _ _ => not_part_of_word word plain,
      refers?_of_word word, if_pos (definers_subset defines)]
    exact ⟨nofun, False.elim⟩
  · rw [TypeExpr.Mentions]

mutual

/-- **A type has the names that are written in it.** -/
theorem Denotes.accounts : ∀ {j : Json} {enclosing : String} {t : TypeExpr}
    {names : List FullName} {ds : List Definition},
    Denotes j enclosing t names ds →
    Accounts (Anywhere declares? j enclosing) (Anywhere refers? j enclosing)
      (t.Mentions ·) names ds
  | _, _, _, _, _, .name => by
    refine .leaf (fun n => ?_) (fun n => ?_)
    · rw [anywhere_leaf fun _ _ => not_part_string]
      exact nofun
    · rw [anywhere_leaf fun _ _ => not_part_string]
      exact mentions_typeOfName
  | _, _, _, _, _, .annotated word free => by
    -- A word that is no keyword begins neither a definition nor a compound.
    have plain := fun h => free (compounds_subset h)
    refine .leaf (fun n => ?_) (fun n => ?_)
    · rw [anywhere_leaf fun _ _ => not_part_of_word word plain,
        declares?_of_word word, if_neg]
      · exact nofun
      · exact fun h => free (definers_subset h)
    · rw [anywhere_leaf fun _ _ => not_part_of_word word plain,
        refers?_of_word word, if_neg free]
      exact mentions_typeOfName
  | _, _, _, _, _, .union hitems _ =>
    hitems.accounts.congr (fun _ => anywhere_array rfl)
      (fun _ => anywhere_array rfl) fun _ => by rw [TypeExpr.Mentions]
  | _, _, _, _, _, .wrapped word noString hinner =>
    hinner.accounts.congr
      (fun _ => anywhere_inner (declares?_of_wrapped word noString)
        fun _ _ => part_wrapped word noString)
      (fun _ => anywhere_inner (refers?_of_wrapped word noString)
        fun _ _ => part_wrapped word noString) fun _ => .rfl
  | _, _, _, _, _, .array word items hinner =>
    hinner.accounts.congr
      (fun _ => anywhere_inner (declares?_of_word word)
        fun _ _ => part_items word items)
      (fun _ => anywhere_inner (refers?_of_word word)
        fun _ _ => part_items word items) fun _ => by rw [TypeExpr.Mentions]
  | _, _, _, _, _, .map word values hinner =>
    hinner.accounts.congr
      (fun _ => anywhere_inner (declares?_of_word word)
        fun _ _ => part_values word values)
      (fun _ => anywhere_inner (refers?_of_word word)
        fun _ _ => part_values word values) fun _ => by rw [TypeExpr.Mentions]
  | _, _, _, _, _, .fixed word head _ =>
    accounts_of_simple (d := .fixed ⟨_, _, _⟩) word (by decide) (by decide)
      head.declares fun _ => id
  | _, _, _, _, _, .enum word head _ _ _ =>
    accounts_of_simple (d := .enum ⟨_, _, _, _, _⟩) word (by decide)
      (by decide) head.declares fun _ => id
  | _, _, _, _, _, .record word isRecord head listed hfields => by
    have hword := mem_definers_of_record isRecord
    refine (hfields.accounts.define (d := .record ⟨_, _, _, _⟩)).congr
      (fun n => ?_) (fun n => ?_) fun n => ?_
    · rw [anywhere_record word isRecord head.declares listed,
        declares?_of_word word, if_pos hword, head.declares, Option.some_inj]
      rfl
    · rw [anywhere_record word isRecord head.declares listed,
        refers?_of_word word, if_pos (definers_subset hword)]
      exact or_iff_right nofun
    · rw [TypeExpr.Mentions]
      rfl

theorem DenotesAll.accounts : ∀ {items : List Json} {enclosing : String}
    {branches : List TypeExpr} {names : List FullName} {ds : List Definition},
    DenotesAll items enclosing branches names ds →
    Accounts (InItems declares? items enclosing)
      (InItems refers? items enclosing) (TypeExpr.AnyMentions · branches)
      names ds
  | _, _, _, _, _, .nil => .leaf (by simp [InItems])
    (by simp [InItems, TypeExpr.AnyMentions])
  | _, _, _, _, _, .cons hitem hrest =>
    (hitem.accounts.append hrest.accounts).congr (fun _ => inItems_cons)
      (fun _ => inItems_cons) fun _ => by rw [TypeExpr.AnyMentions]

theorem DenotesFields.accounts : ∀ {record : FullName} {seen : List String}
    {items : List Json} {fields : List Field} {names : List FullName}
    {ds : List Definition}, DenotesFields record seen items fields names ds →
    Accounts (InFields declares? items record.space)
      (InFields refers? items record.space) (MentionedIn fields) names ds
  | _, _, _, _, _, _, .nil => .leaf (by simp [InFields])
    (by simp [InFields, MentionedIn])
  | _, _, _, _, _, _, .cons _ _ typed hinner _ hrest =>
    (hinner.accounts.append hrest.accounts).congr (fun _ => inFields_cons typed)
      (fun _ => inFields_cons typed) fun _ => by simp [MentionedIn]

end

end Json

end Avro
