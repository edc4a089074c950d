import Avro.Schema.Parser

/-!
# What a document says

The walk over a document threads the names that were declared and the
definitions that were finished through nested types, and stops at the first
thing that is wrong. What it finds is said without any of that by a relation
between JSON values and what is read from them (`Denotes`): the type, the names
in the order in which they are declared, and the definitions in the order in
which they are finished.

If the walk succeeds, it has read what the document says, and no name was
declared twice; if it fails, it is not for a reference (`Schema.typeOf_walks`),
because references are looked at only afterwards. Whatever is to be shown of
documents that are accepted is then an induction on what they say.
-/

namespace Avro

/-! ## What is read -/

/-- The words that are not the name of a type when they stand in an object. -/
def Schema.keywords : List String :=
  ["record", "error", "enum", "fixed", "array", "map"]

/-- The name that a definition declares. -/
def Json.declaredName? (members : Json.Members) (enclosing : String) :
    Option FullName :=
  (Json.optionalString members "name").map fun written =>
    FullName.ofString written
      ((Json.optionalString members "namespace").getD enclosing)

/-- **The head of a definition**: its name and the other names. -/
structure Json.Heads (members : Json.Members) (enclosing : String)
    (name : FullName) (aliases : List FullName) : Prop where
  /-- The name. -/
  declares : Json.declaredName? members enclosing = some name
  /-- The other names, in the namespace of the name. -/
  aliases : ∃ others, Json.stringList members "aliases" = .ok others
    ∧ aliases = others.map fun other => FullName.ofString other name.space

namespace Json

open Schema (typeOfName keywords)

mutual

/-- **A JSON value is read as a type** in an enclosing namespace. On the way
names are declared and definitions finished. -/
inductive Denotes : Json → (enclosing : String) → TypeExpr → List FullName →
    List Definition → Prop
  /-- A name. -/
  | name {text enclosing : String} :
    Denotes (.string text) enclosing (typeOfName text enclosing) [] []
  /-- A union. -/
  | union {items : List Json} {enclosing : String} {branches : List TypeExpr}
    {names : List FullName} {ds : List Definition}
    (hitems : DenotesAll items enclosing branches names ds)
    (flat : branches.any TypeExpr.isUnion = false) :
    Denotes (.array items) enclosing (.union branches) names ds
  /-- A name in an object. -/
  | annotated {members : Members} {enclosing text : String}
    (word : Entries.find? "type" members = some (.string text))
    (free : text ∉ keywords) :
    Denotes (.object members) enclosing (typeOfName text enclosing) [] []
  /-- A type in an object. -/
  | wrapped {members : Members} {enclosing : String} {inner : Json}
    {t : TypeExpr} {names : List FullName} {ds : List Definition}
    (word : Entries.find? "type" members = some inner)
    (noString : inner.string? = none) (hinner : Denotes inner enclosing t names ds) :
    Denotes (.object members) enclosing t names ds
  /-- An array. -/
  | array {members : Members} {enclosing : String} {inner : Json}
    {t : TypeExpr} {names : List FullName} {ds : List Definition}
    (word : Entries.find? "type" members = some (.string "array"))
    (items : Entries.find? "items" members = some inner)
    (hinner : Denotes inner enclosing t names ds) :
    Denotes (.object members) enclosing (.array t) names ds
  /-- A map. -/
  | map {members : Members} {enclosing : String} {inner : Json}
    {t : TypeExpr} {names : List FullName} {ds : List Definition}
    (word : Entries.find? "type" members = some (.string "map"))
    (values : Entries.find? "values" members = some inner)
    (hinner : Denotes inner enclosing t names ds) :
    Denotes (.object members) enclosing (.map t) names ds
  /-- A fixed. -/
  | fixed {members : Members} {enclosing : String} {name : FullName}
    {aliases : List FullName} {size : Nat}
    (word : Entries.find? "type" members = some (.string "fixed"))
    (head : Heads members enclosing name aliases)
    (hsize : (Entries.find? "size" members).bind Json.nat? = some size) :
    Denotes (.object members) enclosing (.named name) [name]
      [.fixed ⟨name, aliases, size⟩]
  /-- An enum. -/
  | enum {members : Members} {enclosing : String} {name : FullName}
    {aliases : List FullName} {items : List Json} {symbols : List String}
    (word : Entries.find? "type" members = some (.string "enum"))
    (head : Heads members enclosing name aliases)
    (listed : Entries.find? "symbols" members = some (.array items))
    (hsymbols : Json.strings "symbols" items = .ok symbols)
    (hdefault : ∀ symbol, optionalString members "default" = some symbol →
      symbol ∈ symbols) :
    Denotes (.object members) enclosing (.named name) [name]
      [.enum ⟨name, aliases, symbols, optionalString members "default",
        optionalString members "doc"⟩]
  /-- A record. -/
  | record {members : Members} {enclosing text : String} {name : FullName}
    {aliases : List FullName} {items : List Json} {fields : List Field}
    {names : List FullName} {ds : List Definition}
    (word : Entries.find? "type" members = some (.string text))
    (isRecord : text = "record" ∨ text = "error")
    (head : Heads members enclosing name aliases)
    (listed : Entries.find? "fields" members = some (.array items))
    (hfields : DenotesFields name [] items fields names ds) :
    Denotes (.object members) enclosing (.named name) (name :: names)
      (ds ++ [.record ⟨name, aliases, fields, optionalString members "doc"⟩])

/-- JSON values are read as the branches of a union. -/
inductive DenotesAll : List Json → (enclosing : String) → List TypeExpr →
    List FullName → List Definition → Prop
  /-- No branches. -/
  | nil {enclosing : String} : DenotesAll [] enclosing [] [] []
  /-- A branch and others. -/
  | cons {item : Json} {rest : List Json} {enclosing : String} {t : TypeExpr}
    {others : List TypeExpr} {names names' : List FullName}
    {ds ds' : List Definition} (hitem : Denotes item enclosing t names ds)
    (hrest : DenotesAll rest enclosing others names' ds') :
    DenotesAll (item :: rest) enclosing (t :: others) (names ++ names')
      (ds ++ ds')

/-- JSON values are read as the fields of a record, behind fields of other
names. -/
inductive DenotesFields : (record : FullName) → (seen : List String) →
    List Json → List Field → List FullName → List Definition → Prop
  /-- No fields. -/
  | nil {record : FullName} {seen : List String} :
    DenotesFields record seen [] [] [] []
  /-- A field and others. -/
  | cons {record : FullName} {seen : List String} {members : Members}
    {rest : List Json} {name : String} {inner : Json} {t : TypeExpr}
    {aliases : List String} {others : List Field}
    {names names' : List FullName} {ds ds' : List Definition}
    (named : optionalString members "name" = some name) (new : name ∉ seen)
    (typed : Entries.find? "type" members = some inner)
    (hinner : Denotes inner record.space t names ds)
    (haliases : stringList members "aliases" = .ok aliases)
    (hrest : DenotesFields record (name :: seen) rest others names' ds') :
    DenotesFields record seen (.object members :: rest)
      (⟨name, t, aliases, Entries.find? "default" members,
        optionalString members "doc"⟩ :: others) (names ++ names') (ds ++ ds')

end

end Json

/-! ## The walk -/

/-- An error is not about a reference. -/
def SchemaError.Local (e : SchemaError) : Prop :=
  ∀ name, e ≠ .unresolvedReference name

/-- A defect is not about a reference. -/
theorem SchemaError.local_ofDefect (d : SchemaDefect) : (ofDefect d).Local :=
  nofun

/-- Nor is a missing attribute. -/
theorem SchemaError.local_missingAttribute (key context : String) :
    (missingAttribute key context).Local :=
  nofun

namespace Declaring

variable {α β : Type} {P P' : α → List FullName → List Definition → Prop}
  {Q : β → List FullName → List Definition → Prop}

/-- **What a computation adds**: it declares new names and finishes
definitions, and what it gives has a property together with them; or it fails,
but not for a reference. -/
def Walks (P : α → List FullName → List Definition → Prop)
    (m : Declaring α) : Prop :=
  ∀ before : Declarations,
    match m before with
    | .ok (a, after) => (before.names.Nodup → after.names.Nodup)
      ∧ ∃ names ds, after.names = before.names ++ names
        ∧ after.finished = before.finished ++ ds ∧ P a names ds
    | .error e => e.Local

namespace Walks

theorem pure {a : α} (h : P a [] []) : Walks P (Pure.pure a) := fun _ =>
  ⟨id, [], [], (List.append_nil _).symm, (List.append_nil _).symm, h⟩

theorem throw {e : SchemaError} (h : e.Local) :
    Walks P (throw e : Declaring α) :=
  fun _ => h

theorem bind {m : Declaring α} {f : α → Declaring β} (hm : Walks P m)
    (hf : ∀ a names ds, P a names ds →
      Walks (fun b names' ds' => Q b (names ++ names') (ds ++ ds')) (f a)) :
    Walks Q (m >>= f) := by
  intro before
  have hbefore := hm before
  have hrun : (m >>= f) before = match m before with
      | .ok (a, middle) => f a middle
      | .error e => .error e := by
    simp only [Bind.bind, StateT.bind, Except.bind]
    cases m before <;> rfl
  rw [hrun]
  cases hr : m before with
  | error e =>
    rw [hr] at hbefore
    exact hbefore
  | ok result =>
    obtain ⟨a, middle⟩ := result
    rw [hr] at hbefore
    obtain ⟨hmiddle, names, ds, hnames, hds, ha⟩ := hbefore
    have hafter := hf a names ds ha middle
    dsimp only
    cases hr' : f a middle with
    | error e =>
      rw [hr'] at hafter
      exact hafter
    | ok result' =>
      obtain ⟨b, after⟩ := result'
      rw [hr'] at hafter
      obtain ⟨hlast, names', ds', hnames', hds', hb⟩ := hafter
      exact ⟨fun h => hlast (hmiddle h), names ++ names', ds ++ ds',
        by rw [hnames', hnames, List.append_assoc],
        by rw [hds', hds, List.append_assoc], hb⟩

/-- What is computed without the state adds nothing. -/
theorem lift_bind {m : Except SchemaError α} {f : α → Declaring β}
    (hm : ∀ e, m = .error e → e.Local)
    (hf : ∀ a, m = .ok a → Walks Q (f a)) :
    Walks Q ((liftM m : Declaring α) >>= f) := by
  intro before
  cases hr : m with
  | error e => exact hm e hr
  | ok a => exact hf a hr before

/-- What comes after an error does not matter. -/
theorem throw_bind {e : SchemaError} (h : e.Local) {f : α → Declaring β} :
    Walks Q (MonadExcept.throw e >>= f) :=
  .bind (P := fun _ _ _ => False) (.throw h) fun _ _ _ h => h.elim

end Walks

end Declaring

namespace Json

/-- Errors of attributes are not about references. -/
theorem local_of_required {members : Members} {key context : String}
    {e : SchemaError} (h : required members key context = .error e) :
    e.Local := by
  unfold required at h
  split at h
  · exact absurd h nofun
  · obtain rfl := Except.error.inj h
    exact nofun

theorem local_of_requiredString {members : Members} {key context : String}
    {e : SchemaError} (h : requiredString members key context = .error e) :
    e.Local := by
  unfold requiredString at h
  split at h
  · rename_i hrequired
    obtain rfl := Except.error.inj h
    exact local_of_required hrequired
  · exact absurd h nofun
  · obtain rfl := Except.error.inj h
    exact nofun

theorem local_of_strings {key : String} {e : SchemaError} :
    ∀ {items : List Json}, strings key items = .error e → e.Local
  | [], h => absurd h nofun
  | .string s :: rest, h => by
    rw [strings] at h
    cases hrest : strings key rest with
    | ok others => rw [hrest] at h; exact absurd h nofun
    | error e' =>
      rw [hrest] at h
      obtain rfl := Except.error.inj h
      exact local_of_strings hrest
  | .null :: _, h | .bool _ :: _, h | .integer _ :: _, h | .double _ :: _, h
  | .array _ :: _, h | .object _ :: _, h => by
    obtain rfl := Except.error.inj h
    exact nofun

theorem local_of_stringList {members : Members} {key : String}
    {e : SchemaError} (h : stringList members key = .error e) : e.Local := by
  unfold stringList at h
  split at h
  · exact absurd h nofun
  · exact local_of_strings h
  · obtain rfl := Except.error.inj h
    exact nofun

/-- What a required attribute gives is a member. -/
theorem find?_of_required {members : Members} {key context : String}
    {j : Json} (h : required members key context = .ok j) :
    Entries.find? key members = some j := by
  unfold required at h
  split at h
  · rename_i j' hj
    rw [← Except.ok.inj h]
    exact hj
  · exact absurd h nofun

theorem optionalString_of_requiredString {members : Members}
    {key context s : String}
    (h : requiredString members key context = .ok s) :
    optionalString members key = some s := by
  unfold requiredString at h
  split at h
  · exact absurd h nofun
  · rename_i s' hrequired
    obtain rfl := Except.ok.inj h
    rw [optionalString, find?_of_required hrequired]
    rfl
  · exact absurd h nofun

end Json

namespace Schema

open Declaring (Walks)
open Json (Members Heads Denotes DenotesAll DenotesFields)

/-- **Declaring adds the name** in the head of a definition. -/
theorem declare_walks (members : Members) (enclosing kind : String) :
    Walks (fun declared names ds => Heads members enclosing declared.1 declared.2
      ∧ names = [declared.1] ∧ ds = []) (declare members enclosing kind) := by
  unfold declare
  refine .lift_bind (fun _ => Json.local_of_requiredString) fun written hwritten => ?_
  refine .lift_bind (fun _ => Json.local_of_stringList) fun others hothers => ?_
  intro before
  have hhead : Heads members enclosing
      (FullName.ofString written
        ((Json.optionalString members "namespace").getD enclosing))
      (others.map fun other => FullName.ofString other
        (FullName.ofString written
          ((Json.optionalString members "namespace").getD enclosing)).space) := by
    refine ⟨?_, others, hothers, rfl⟩
    rw [Json.declaredName?, Json.optionalString_of_requiredString hwritten]
    rfl
  -- From here on only the name counts, and not how it is spelled.
  generalize FullName.ofString written
    ((Json.optionalString members "namespace").getD enclosing) = name at hhead ⊢
  simp only [Bind.bind, StateT.bind, get, getThe, MonadStateOf.get, StateT.get,
    Pure.pure, Except.pure, Except.bind]
  by_cases hold : before.names.contains name = true
  · rw [if_pos hold]
    exact nofun
  · rw [if_neg hold]
    refine ⟨fun hbefore => ?_, [name], [], rfl, (List.append_nil _).symm,
      hhead, rfl, rfl⟩
    refine List.nodup_append.mpr ⟨hbefore, by simp, ?_⟩
    intro other hother name' hname heq
    obtain rfl := List.mem_singleton.mp hname
    exact hold (List.contains_iff_mem.mpr (heq ▸ hother))

/-- **Declaring a name first**, and then finishing its definition. -/
theorem declare_bind_walks {members : Members} {enclosing kind : String}
    {f : FullName × List FullName → Declaring TypeExpr}
    {P : TypeExpr → List FullName → List Definition → Prop}
    (hf : ∀ declared, Heads members enclosing declared.1 declared.2 →
      Walks (fun t names ds => P t (declared.1 :: names) ds) (f declared)) :
    Walks P (declare members enclosing kind >>= f) := by
  refine .bind (declare_walks members enclosing kind) ?_
  rintro declared names ds ⟨hhead, rfl, rfl⟩
  exact hf declared hhead

theorem define_walks {d : Definition}
    {P : TypeExpr → List FullName → List Definition → Prop}
    (h : P (.named d.name) [] [d]) : Walks P (define d) :=
  fun _ => ⟨id, [], [d], (List.append_nil _).symm, rfl, h⟩

theorem fixedOf_walks {members : Members} (enclosing : String)
    (word : Entries.find? "type" members = some (.string "fixed")) :
    Walks (Denotes (.object members) enclosing) (fixedOf members enclosing) := by
  unfold fixedOf
  refine declare_bind_walks fun declared hhead => ?_
  refine .lift_bind (fun _ => Json.local_of_required) fun size hsize => ?_
  have hsize := Json.find?_of_required hsize
  split
  · rename_i n hn
    exact define_walks (.fixed word hhead (by rw [hsize]; exact hn))
  · exact .throw (SchemaError.local_ofDefect _)

theorem enumOf_walks {members : Members} (enclosing : String)
    (word : Entries.find? "type" members = some (.string "enum")) :
    Walks (Denotes (.object members) enclosing) (enumOf members enclosing) := by
  unfold enumOf
  refine declare_bind_walks fun declared hhead => ?_
  dsimp only
  split
  · rename_i items hlisted
    refine .lift_bind (fun _ => Json.local_of_stringList) fun symbols hsymbols => ?_
    rw [Json.stringList, hlisted] at hsymbols
    have hdefine : (∀ symbol, Json.optionalString members "default"
          = some symbol → symbol ∈ symbols) →
        Walks (fun t names ds => Denotes (.object members) enclosing t
            (declared.1 :: names) ds)
          (define (.enum ⟨declared.1, declared.2, symbols,
            Json.optionalString members "default",
            Json.optionalString members "doc"⟩)) := fun hdefault =>
      define_walks (.enum word hhead hlisted hsymbols hdefault)
    cases hd : Json.optionalString members "default" with
    | none =>
      rw [hd] at hdefine
      exact hdefine nofun
    | some symbol =>
      rw [hd] at hdefine
      dsimp only
      by_cases hmem : symbols.contains symbol = true
      · rw [hmem]
        refine hdefine fun other hother => ?_
        obtain rfl := Option.some.inj hother
        exact List.contains_iff_mem.mp hmem
      · rw [Bool.not_eq_true] at hmem
        rw [hmem]
        exact .throw_bind (SchemaError.local_ofDefect _)
  · exact .throw_bind (SchemaError.local_missingAttribute _ _)

/-- What is meant for the types inside a type. -/
def WalksTypes (typeOf : Json → String → Declaring TypeExpr) : Prop :=
  ∀ j enclosing, Walks (Denotes j enclosing) (typeOf j enclosing)

variable {typeOf : Json → String → Declaring TypeExpr}

theorem fieldsOf_walks (htypeOf : WalksTypes typeOf) (record : FullName) :
    ∀ (items : List Json) (seen : List String),
      Walks (DenotesFields record seen items) (fieldsOf typeOf record seen items)
  | [], _ => .pure .nil
  | item :: rest, seen => by
    cases item with
    | object members =>
      rw [fieldsOf]
      refine .lift_bind (fun _ => Json.local_of_requiredString) fun name hname => ?_
      have hname := Json.optionalString_of_requiredString hname
      split
      · exact .throw_bind (SchemaError.local_ofDefect _)
      · rename_i hseen
        refine .lift_bind (fun _ => Json.local_of_required) fun inner hinner => ?_
        have hinner := Json.find?_of_required hinner
        refine .bind (htypeOf inner record.space) fun t names ds ht => ?_
        refine .lift_bind (fun _ => Json.local_of_stringList)
          fun aliases haliases => ?_
        refine .bind (fieldsOf_walks htypeOf record rest (name :: seen))
          fun others names' ds' hothers => .pure ?_
        rw [List.append_nil, List.append_nil]
        exact .cons hname (fun hmem => hseen (List.contains_iff_mem.mpr hmem))
          hinner ht haliases hothers
    | _ => exact .throw (SchemaError.local_ofDefect _)

theorem recordOf_walks (htypeOf : WalksTypes typeOf) {members : Members}
    {text : String} (enclosing : String)
    (word : Entries.find? "type" members = some (.string text))
    (isRecord : text = "record" ∨ text = "error") :
    Walks (Denotes (.object members) enclosing)
      (recordOf typeOf members enclosing) := by
  unfold recordOf
  refine declare_bind_walks fun declared hhead => ?_
  refine .lift_bind (fun _ => Json.local_of_required) fun listed hlisted => ?_
  have hlisted := Json.find?_of_required hlisted
  split
  · exact .bind (fieldsOf_walks htypeOf declared.1 _ [])
      fun fields names ds hfields => define_walks <| by
        rw [List.append_nil]
        exact .record word isRecord hhead hlisted hfields
  · exact .throw (SchemaError.local_ofDefect _)

theorem branchesOf_walks (htypeOf : WalksTypes typeOf) (enclosing : String) :
    ∀ items : List Json,
      Walks (DenotesAll items enclosing) (branchesOf typeOf enclosing items)
  | [] => .pure .nil
  | item :: rest => by
    refine .bind (htypeOf item enclosing) fun branch names ds hbranch => ?_
    refine .bind (branchesOf_walks htypeOf enclosing rest)
      fun others names' ds' hothers => .pure ?_
    rw [List.append_nil, List.append_nil]
    exact .cons hbranch hothers

theorem typeOfObject_walks (htypeOf : WalksTypes typeOf) (members : Members)
    (enclosing : String) :
    Walks (Denotes (.object members) enclosing)
      (typeOfObject typeOf members enclosing) := by
  unfold typeOfObject
  refine .lift_bind (fun _ => Json.local_of_required) fun j hj => ?_
  replace hj := Json.find?_of_required hj
  split
  · exact recordOf_walks htypeOf enclosing hj (.inl rfl)
  · exact recordOf_walks htypeOf enclosing hj (.inr rfl)
  · exact enumOf_walks enclosing hj
  · exact fixedOf_walks enclosing hj
  · refine .lift_bind (fun _ => Json.local_of_required) fun inner hinner => ?_
    refine .bind (htypeOf inner enclosing) fun t names ds ht => .pure ?_
    rw [List.append_nil, List.append_nil]
    exact .array hj (Json.find?_of_required hinner) ht
  · refine .lift_bind (fun _ => Json.local_of_required) fun inner hinner => ?_
    refine .bind (htypeOf inner enclosing) fun t names ds ht => .pure ?_
    rw [List.append_nil, List.append_nil]
    exact .map hj (Json.find?_of_required hinner) ht
  · -- A word that is none of the keywords has gone through all the other cases.
    rename_i text hrecord herror henum hfixed harray hmap
    refine .pure (.annotated hj fun hmem => ?_)
    simp only [keywords, List.mem_cons, List.not_mem_nil, or_false] at hmem
    rcases hmem with rfl | rfl | rfl | rfl | rfl | rfl
    · exact hrecord rfl
    · exact herror rfl
    · exact henum rfl
    · exact hfixed rfl
    · exact harray rfl
    · exact hmap rfl
  · rename_i hstring
    intro before
    have h := htypeOf j enclosing before
    have hnone : j.string? = none := by
      cases j with
      | string s => exact absurd rfl (hstring s)
      | _ => rfl
    cases hr : typeOf j enclosing before with
    | error e => rw [hr] at h; exact h
    | ok result =>
      rw [hr] at h
      obtain ⟨hnodup, names, ds, hnames, hds, ht⟩ := h
      exact ⟨hnodup, names, ds, hnames, hds, .wrapped hj hnone ht⟩

/-- **The walk reads what the document says**, or fails for something that is
no reference. -/
theorem typeOf_walks : ∀ levels, WalksTypes (Schema.typeOf levels)
  | 0, _, _ => .throw (SchemaError.local_ofDefect _)
  | levels + 1, j, enclosing => by
    have ih := typeOf_walks levels
    unfold Schema.typeOf
    split
    · exact .pure .name
    · refine .bind (branchesOf_walks ih enclosing _)
        fun branches names ds hbranches => ?_
      split
      · exact .throw_bind (SchemaError.local_ofDefect _)
      · rename_i hflat
        refine .pure ?_
        rw [List.append_nil, List.append_nil]
        exact .union hbranches (Bool.not_eq_true _ ▸ hflat)
    · exact typeOfObject_walks ih _ enclosing
    · exact .throw (SchemaError.local_ofDefect _)

/-! ## Documents -/

/-- **What the walk over a document finds**: nothing is wrong with the document
but perhaps its references. -/
structure Walked (source : String) (j : Json) (root : TypeExpr)
    (declared : Declarations) : Prop where
  /-- The document is a JSON value. -/
  json : Json.parse source = .ok j
  /-- It is a type. -/
  walk : Schema.typeOf j.depth j "" .empty = .ok (root, declared)

namespace Walked

variable {source : String} {j : Json} {root : TypeExpr}
  {declared : Declarations}

/-- The walk has read what the document says. -/
theorem reads (h : Walked source j root declared) :
    Denotes j "" root declared.names declared.finished := by
  have hwalk := typeOf_walks j.depth j "" .empty
  rw [h.walk] at hwalk
  obtain ⟨-, names, ds, hnames, hds, hreads⟩ := hwalk
  rw [show declared.names = names from hnames,
    show declared.finished = ds from hds]
  exact hreads

/-- No name is declared twice. -/
theorem nodup (h : Walked source j root declared) : declared.names.Nodup := by
  have hwalk := typeOf_walks j.depth j "" .empty
  rw [h.walk] at hwalk
  exact hwalk.1 List.nodup_nil

/-- Reading a document is the walk and then linking. -/
theorem parse_eq (h : Walked source j root declared) :
    parse source = (do
      let root' ← root.link (declared.inOrder.map (·.name))
      let definitions ← linkDefinitions (declared.inOrder.map (·.name))
        declared.inOrder
      return ⟨root', definitions, source⟩) := by
  unfold parse ofJson
  rw [h.json]
  simp only [StateT.run, h.walk, Bind.bind, Except.bind]

end Walked

/-- **A document is accepted after a walk**, with what it gave linked. -/
theorem exists_walked {source : String} {s : Schema}
    (h : parse source = .ok s) : ∃ j root declared,
      Walked source j root declared
        ∧ root.link (declared.inOrder.map (·.name)) = .ok s.root
        ∧ linkDefinitions (declared.inOrder.map (·.name)) declared.inOrder
          = .ok s.definitions
        ∧ s.source = source := by
  unfold parse at h
  split at h
  · exact absurd h nofun
  · rename_i j hj
    unfold ofJson at h
    cases htype : Schema.typeOf j.depth j "" .empty with
    | error e =>
      simp only [StateT.run, htype, bind, Except.bind] at h
      exact absurd h nofun
    | ok result =>
      obtain ⟨root, declared⟩ := result
      simp only [StateT.run, htype, bind, Except.bind] at h
      split at h
      · exact absurd h nofun
      · rename_i root' hroot
        split at h
        · exact absurd h nofun
        · rename_i definitions hdefinitions
          obtain rfl := Except.ok.inj h
          exact ⟨j, root, declared, ⟨hj, htype⟩, hroot, hdefinitions, rfl⟩

/-- **A reference is the last thing that can be wrong** with a document. -/
theorem exists_walked_of_unresolved {source : String} {name : FullName}
    (h : parse source = .error (.unresolvedReference name)) :
    ∃ j root declared, Walked source j root declared := by
  unfold parse at h
  split at h
  · exact absurd h nofun
  · rename_i j hj
    have hwalk := typeOf_walks j.depth j "" .empty
    unfold ofJson at h
    cases htype : Schema.typeOf j.depth j "" .empty with
    | error e =>
      rw [htype] at hwalk
      simp only [StateT.run, htype, bind, Except.bind] at h
      exact absurd (Except.error.inj h) (hwalk name)
    | ok result => exact ⟨j, result.1, result.2, hj, htype⟩

end Schema

end Avro
