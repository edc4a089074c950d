import Avro.Proofs.Schema.References

/-!
# Which documents are accepted

Two things can be wrong with a document that is JSON: it does not say a type,
or declares a name twice; or one of its references dangles. The walk sees to
the first. It reads all that a document can say if only the declared names are
different (`Schema.walked_iff`), and the levels it may go down are enough for
it. Linking sees to the second: it fails for a name that dangles, and only then
(`Links`).

So a document with nothing else wrong is accepted if none of its references
dangles, and is otherwise rejected for one that does
(`Schema.parse_ok_iff`, `Schema.parse_unresolved_iff`).
-/

namespace Avro

/-! ## What a computation gives -/

namespace Declaring

variable {α β : Type} {names names' : List FullName} {ds ds' : List Definition}

/-- **A computation gives** a result with the names it declares and the
definitions it finishes, if no name is declared twice. -/
def Gives (m : Declaring α) (a : α) (names : List FullName)
    (ds : List Definition) : Prop :=
  ∀ before : Declarations, (before.names ++ names).Nodup →
    m before = .ok (a, ⟨before.names ++ names, before.finished ++ ds⟩)

namespace Gives

theorem pure {a : α} : Gives (Pure.pure a) a [] [] := fun before _ => by
  rw [List.append_nil, List.append_nil]
  rfl

theorem bind {m : Declaring α} {f : α → Declaring β} {a : α} {b : β}
    (hm : Gives m a names ds) (hf : Gives (f a) b names' ds') :
    Gives (m >>= f) b (names ++ names') (ds ++ ds') := by
  intro before hnodup
  rw [← List.append_assoc] at hnodup ⊢
  have hrun : (m >>= f) before = f a ⟨before.names ++ names,
      before.finished ++ ds⟩ := by
    simp only [Bind.bind, StateT.bind, Except.bind,
      hm before (List.nodup_append.mp hnodup).1]
  rw [hrun, hf _ hnodup, ← List.append_assoc]

/-- What is computed without the state. -/
theorem lift_bind {m : Except SchemaError α} {f : α → Declaring β} {a : α}
    {b : β} (hm : m = .ok a) (hf : Gives (f a) b names ds) :
    Gives ((liftM m : Declaring α) >>= f) b names ds := by
  subst hm
  exact fun before => hf before

/-- What comes last adds nothing. -/
theorem finish {m : Declaring α} {f : α → Declaring β} {a : α} {b : β}
    (hm : Gives m a names ds) (hf : Gives (f a) b [] []) :
    Gives (m >>= f) b names ds := by
  have h := hm.bind hf
  rwa [List.append_nil, List.append_nil] at h

end Gives

end Declaring

/-! ## Attributes and levels -/

namespace Json

variable {members : Members} {key : String} {j : Json}

theorem required_of_find? (h : Entries.find? key members = some j)
    (context : String) : required members key context = .ok j := by
  rw [required, h]

theorem requiredString_of_optional {s : String}
    (h : optionalString members key = some s) (context : String) :
    requiredString members key context = .ok s := by
  obtain ⟨j, hj, hs⟩ := Option.bind_eq_some_iff.mp h
  rw [requiredString, required_of_find? hj]
  cases j with
  | string s' => rw [Option.some.inj hs]
  | _ => exact absurd hs nofun

/-- A value has a level. -/
theorem depth_pos : ∀ j : Json, 0 < j.depth
  | .array _ | .object _ => Nat.succ_pos _
  | .null | .bool _ | .integer _ | .double _ | .string _ => Nat.one_pos

theorem depth_le_depthMembers : ∀ {members : Members},
    Entries.find? key members = some j → j.depth ≤ depthMembers members
  | [], h => absurd h nofun
  | (k, v) :: rest, h => by
    rw [depthMembers]
    rw [Entries.find?] at h
    split at h
    · rw [Option.some.inj h]
      exact Nat.le_max_left _ _
    · exact (depth_le_depthMembers h).trans (Nat.le_max_right _ _)

/-- A member has fewer levels than the object. -/
theorem depth_le_of_find? {levels : Nat}
    (hlevels : (object members).depth ≤ levels + 1)
    (h : Entries.find? key members = some j) : j.depth ≤ levels := by
  rw [depth] at hlevels
  exact (depth_le_depthMembers h).trans (Nat.le_of_succ_le_succ hlevels)

end Json

namespace Schema

open Declaring (Gives)
open Json (Members Heads Denotes DenotesAll DenotesFields)

/-! ## The walk reads all that can be said -/

/-- A declaration whose name is new. -/
theorem declare_gives {members : Members} {enclosing : String} {name : FullName}
    {aliases : List FullName} (h : Heads members enclosing name aliases)
    (kind : String) :
    Gives (declare members enclosing kind) (name, aliases) [name] [] := by
  obtain ⟨hdeclares, others, hothers, rfl⟩ := h
  obtain ⟨written, hwritten, rfl⟩ := Option.map_eq_some_iff.mp hdeclares
  unfold declare
  refine .lift_bind (Json.requiredString_of_optional hwritten kind) ?_
  refine .lift_bind hothers ?_
  intro before hnodup
  have hnew : ¬ before.names.contains (FullName.ofString written
      ((Json.optionalString members "namespace").getD enclosing)) = true := by
    rw [List.contains_iff_mem]
    exact fun hmem => (List.nodup_append.mp hnodup).2.2 _ hmem _
      List.mem_cons_self rfl
  simp only [Bind.bind, StateT.bind, get, getThe, MonadStateOf.get, StateT.get,
    Pure.pure, Except.pure, Except.bind, if_neg hnew]
  rw [List.append_nil]
  rfl

/-- A definition whose name is new begins with declaring it. -/
theorem declare_bind_gives {members : Members} {enclosing kind : String}
    {name : FullName} {aliases : List FullName} {t : TypeExpr}
    {names : List FullName} {ds : List Definition}
    {f : FullName × List FullName → Declaring TypeExpr}
    (h : Heads members enclosing name aliases)
    (hf : Gives (f (name, aliases)) t names ds) :
    Gives (declare members enclosing kind >>= f) t (name :: names) ds :=
  (declare_gives h kind).bind hf

theorem define_gives (d : Definition) : Gives (define d) (.named d.name) [] [d] :=
  fun before _ => by
    rw [List.append_nil]
    rfl

theorem fixedOf_gives {members : Members} {enclosing : String} {name : FullName}
    {aliases : List FullName} {size : Nat}
    (head : Heads members enclosing name aliases)
    (hsize : (Entries.find? "size" members).bind Json.nat? = some size) :
    Gives (fixedOf members enclosing) (.named name) [name]
      [.fixed ⟨name, aliases, size⟩] := by
  obtain ⟨j, hj, hsize⟩ := Option.bind_eq_some_iff.mp hsize
  unfold fixedOf
  refine declare_bind_gives head ?_
  refine .lift_bind (Json.required_of_find? hj _) ?_
  rw [hsize]
  exact define_gives _

theorem enumOf_gives {members : Members} {enclosing : String} {name : FullName}
    {aliases : List FullName} {items : List Json} {symbols : List String}
    (head : Heads members enclosing name aliases)
    (listed : Entries.find? "symbols" members = some (.array items))
    (hsymbols : Json.strings "symbols" items = .ok symbols)
    (hdefault : ∀ symbol, Json.optionalString members "default" = some symbol →
      symbol ∈ symbols) :
    Gives (enumOf members enclosing) (.named name) [name]
      [.enum ⟨name, aliases, symbols, Json.optionalString members "default",
        Json.optionalString members "doc"⟩] := by
  unfold enumOf
  refine declare_bind_gives head ?_
  rw [listed]
  refine .lift_bind (by rw [Json.stringList, listed]; exact hsymbols) ?_
  cases hd : Json.optionalString members "default" with
  | none => exact define_gives _
  | some symbol =>
    have hmem := List.contains_iff_mem.mpr (hdefault symbol hd)
    dsimp only
    rw [hmem]
    exact define_gives _

section Objects

variable {typeOf : Json → String → Declaring TypeExpr} {members : Members}
  {enclosing text : String} {inner : Json} {t : TypeExpr}
  {names : List FullName} {ds : List Definition}

/-- A name in an object. -/
theorem typeOfObject_gives_name
    (word : Entries.find? "type" members = some (.string text))
    (free : text ∉ keywords) :
    Gives (typeOfObject typeOf members enclosing) (typeOfName text enclosing)
      [] [] := by
  simp only [keywords, List.mem_cons, List.not_mem_nil, or_false, not_or] at free
  unfold typeOfObject
  refine .lift_bind (Json.required_of_find? word _) ?_
  split
  · rename_i h; exact absurd (Json.string.inj h) (by simp [free])
  · rename_i h; exact absurd (Json.string.inj h) (by simp [free])
  · rename_i h; exact absurd (Json.string.inj h) (by simp [free])
  · rename_i h; exact absurd (Json.string.inj h) (by simp [free])
  · rename_i h; exact absurd (Json.string.inj h) (by simp [free])
  · rename_i h; exact absurd (Json.string.inj h) (by simp [free])
  · rename_i h
    rw [Json.string.inj h]
    exact .pure
  · rename_i h
    exact absurd rfl (h _)

/-- A type in an object. -/
theorem typeOfObject_gives_wrapped
    (word : Entries.find? "type" members = some inner)
    (noString : inner.string? = none)
    (h : Gives (typeOf inner enclosing) t names ds) :
    Gives (typeOfObject typeOf members enclosing) t names ds := by
  unfold typeOfObject
  refine .lift_bind (Json.required_of_find? word _) ?_
  cases inner with
  | string s => exact absurd noString nofun
  | _ => exact h

end Objects

/-- A record whose fields are read. -/
theorem recordOf_gives {typeOf : Json → String → Declaring TypeExpr}
    {members : Members} {enclosing : String} {name : FullName}
    {aliases : List FullName} {items : List Json} {fields : List Field}
    {names : List FullName} {ds : List Definition}
    (head : Heads members enclosing name aliases)
    (listed : Entries.find? "fields" members = some (.array items))
    (h : Gives (fieldsOf typeOf name [] items) fields names ds) :
    Gives (recordOf typeOf members enclosing) (.named name) (name :: names)
      (ds ++ [.record ⟨name, aliases, fields,
        Json.optionalString members "doc"⟩]) := by
  unfold recordOf
  refine declare_bind_gives head ?_
  refine .lift_bind (Json.required_of_find? listed _) ?_
  rw [← List.append_nil names]
  exact h.bind (define_gives _)

/-- A type stands lower than what it stands in. -/
theorem typeOf_gives_of_le {j : Json} {enclosing : String} {t : TypeExpr}
    {names : List FullName} {ds : List Definition} {levels : Nat}
    (hlevels : j.depth ≤ levels) (h : ∀ l, j.depth ≤ l + 1 →
      Gives (Schema.typeOf (l + 1) j enclosing) t names ds) :
    Gives (Schema.typeOf levels j enclosing) t names ds := by
  obtain ⟨l, rfl⟩ := Nat.exists_eq_succ_of_ne_zero
    (j.depth_pos.trans_le hlevels).ne'
  exact h l hlevels

end Schema

namespace Json

open Schema
open Declaring (Gives)

mutual

/-- **The walk reads what a document says**, if it may go down far enough. -/
theorem Denotes.gives : ∀ {j : Json} {enclosing : String} {t : TypeExpr}
    {names : List FullName} {ds : List Definition},
    Denotes j enclosing t names ds → ∀ levels, j.depth ≤ levels + 1 →
    Gives (typeOf (levels + 1) j enclosing) t names ds
  | _, _, _, _, _, .name, _, _ => .pure
  | _, _, _, _, _, .union hitems flat, levels, hlevels => by
    rw [depth] at hlevels
    rw [Schema.typeOf]
    refine (hitems.gives levels (Nat.le_of_succ_le_succ hlevels)).finish ?_
    rw [flat]
    exact .pure
  | _, _, _, _, _, .annotated word free, _, _ =>
    typeOfObject_gives_name word free
  | _, _, _, _, _, .wrapped word noString hinner, _, hlevels =>
    typeOfObject_gives_wrapped word noString
      (typeOf_gives_of_le (depth_le_of_find? hlevels word) hinner.gives)
  | _, _, _, _, _, .array word items hinner, _, hlevels =>
    .lift_bind (required_of_find? word _) <|
      .lift_bind (required_of_find? items _) <|
        .finish (typeOf_gives_of_le (depth_le_of_find? hlevels items)
          hinner.gives) .pure
  | _, _, _, _, _, .map word values hinner, _, hlevels =>
    .lift_bind (required_of_find? word _) <|
      .lift_bind (required_of_find? values _) <|
        .finish (typeOf_gives_of_le (depth_le_of_find? hlevels values)
          hinner.gives) .pure
  | _, _, _, _, _, .fixed word head hsize, _, _ =>
    .lift_bind (required_of_find? word _) (fixedOf_gives head hsize)
  | _, _, _, _, _, .enum word head listed hsymbols hdefault, _, _ =>
    .lift_bind (required_of_find? word _)
      (enumOf_gives head listed hsymbols hdefault)
  | _, _, _, _, _, .record word isRecord head listed hfields, levels, hlevels => by
    -- The fields stand two levels below the record, in the list.
    have hitems := depth_le_of_find? hlevels listed
    rw [depth] at hitems
    have hrecord := recordOf_gives head listed
      (hfields.gives levels (Nat.le_of_succ_le hitems))
    refine .lift_bind (required_of_find? word _) ?_
    rcases isRecord with rfl | rfl <;> exact hrecord

theorem DenotesAll.gives : ∀ {items : List Json} {enclosing : String}
    {branches : List TypeExpr} {names : List FullName} {ds : List Definition},
    DenotesAll items enclosing branches names ds → ∀ levels,
    depthItems items ≤ levels →
    Gives (branchesOf (typeOf levels) enclosing items) branches names ds
  | _, _, _, _, _, .nil, _, _ => .pure
  | _, _, _, _, _, .cons hitem hrest, levels, hlevels => by
    rw [depthItems, Nat.max_le] at hlevels
    rw [branchesOf]
    exact (typeOf_gives_of_le hlevels.1 hitem.gives).bind
      ((hrest.gives levels hlevels.2).finish .pure)

theorem DenotesFields.gives : ∀ {record : FullName} {seen : List String}
    {items : List Json} {fields : List Field} {names : List FullName}
    {ds : List Definition}, DenotesFields record seen items fields names ds →
    ∀ levels, depthItems items ≤ levels →
    Gives (fieldsOf (typeOf levels) record seen items) fields names ds
  | _, _, _, _, _, _, .nil, _, _ => .pure
  | _, _, _, _, _, _, .cons named new typed hinner haliases hrest,
      levels, hlevels => by
    rw [depthItems, Nat.max_le] at hlevels
    rw [fieldsOf]
    refine .lift_bind (requiredString_of_optional named _) ?_
    rw [if_neg (fun h => new (List.contains_iff_mem.mp h))]
    refine .lift_bind (required_of_find? typed _) ?_
    refine (typeOf_gives_of_le (depth_le_of_find? (hlevels.1.trans
      (Nat.le_succ _)) typed) hinner.gives).bind ?_
    exact .lift_bind haliases ((hrest.gives levels hlevels.2).finish .pure)

end

end Json

namespace Schema

variable {source : String} {j : Json} {root : TypeExpr} {declared : Declarations}

/-- **The walk succeeds where the document says a type** and declares no name
twice, and then it has read what the document says. -/
theorem walked_iff : Walked source j root declared ↔ Json.parse source = .ok j
    ∧ j.Denotes "" root declared.names declared.finished
    ∧ declared.names.Nodup := by
  refine ⟨fun h => ⟨h.json, h.reads, h.nodup⟩, fun ⟨hjson, hreads, hnodup⟩ =>
    ⟨hjson, ?_⟩⟩
  exact typeOf_gives_of_le le_rfl hreads.gives .empty hnodup

end Schema

/-! ## Linking -/

/-- **Linking finds what dangles**: it succeeds if every name that is mentioned
is known, or is known without its namespace; otherwise it fails for a name that
is not. -/
def Links {α : Type} (mentions : FullName → Prop) (known : List FullName) :
    Except SchemaError α → Prop
  | .ok _ => ∀ n, mentions n → n ∈ known ∨ n.bare ∈ known
  | .error e => ∃ n, e = .unresolvedReference n ∧ mentions n
      ∧ n ∉ known ∧ n.bare ∉ known

namespace Links

variable {α β : Type} {mentions mentions' : FullName → Prop}
  {known : List FullName}

theorem ok {a : α} (h : ∀ n, ¬ mentions n) :
    Links mentions known (.ok a : Except SchemaError α) :=
  fun n hn => absurd hn (h n)

theorem congr {r : Except SchemaError α} (h : Links mentions known r)
    (hmentions : ∀ n, mentions' n ↔ mentions n) : Links mentions' known r := by
  obtain rfl : mentions' = mentions := funext fun n => propext (hmentions n)
  exact h

theorem map {r : Except SchemaError α} (f : α → β)
    (h : Links mentions known r) : Links mentions known (r.map f) := by
  cases r <;> exact h

/-- One thing is linked after another. -/
theorem bind {r : Except SchemaError α} {f : α → Except SchemaError β}
    (h : Links mentions known r) (hf : ∀ a, Links mentions' known (f a)) :
    Links (fun n => mentions n ∨ mentions' n) known (r.bind f) := by
  cases r with
  | error e =>
    obtain ⟨n, he, hn, hdangles⟩ := h
    exact ⟨n, he, .inl hn, hdangles⟩
  | ok a =>
    -- Nothing in the first dangles, so it is up to the second.
    have h' := hf a
    change Links _ known (f a)
    cases hfa : f a with
    | error e =>
      rw [hfa] at h'
      obtain ⟨n, he, hn, hdangles⟩ := h'
      exact ⟨n, he, .inr hn, hdangles⟩
    | ok b =>
      rw [hfa] at h'
      exact fun n hn => hn.elim (h n) (h' n)

/-- What comes last links nothing. -/
theorem finish {r : Except SchemaError α} {f : α → β}
    (h : Links mentions known r) :
    Links mentions known (r.bind fun a => .ok (f a)) := by
  cases r <;> exact h

end Links

namespace TypeExpr

variable (known : List FullName)

theorem linkAll_cons (branch : TypeExpr) (rest : List TypeExpr) :
    linkAll known (branch :: rest) = (link known branch).bind fun branch' =>
      (linkAll known rest).map (branch' :: ·) := by
  rw [linkAll]
  cases link known branch <;> rfl

mutual

/-- **Linking a type finds what dangles** in it. -/
theorem links : ∀ (t : TypeExpr) (known : List FullName),
    Links (t.Mentions ·) known (t.link known)
  | primitive p, known => by
    rw [link]
    exact .ok fun _ => id
  | array items, known => by
    rw [link]
    exact ((items.links known).map _).congr fun _ => by rw [Mentions]
  | map values, known => by
    rw [link]
    exact ((values.links known).map _).congr fun _ => by rw [Mentions]
  | union branches, known => by
    rw [link]
    exact ((linkAll_links branches known).map _).congr fun _ => by rw [Mentions]
  | named name, known => by
    rw [link]
    split
    · rename_i hknown
      rintro n rfl
      exact .inl (List.contains_iff_mem.mp hknown)
    · rename_i hname
      split
      · rename_i hknown
        rintro n rfl
        exact .inr (List.contains_iff_mem.mp hknown)
      · rename_i hbare
        exact ⟨name, rfl, rfl, fun h => hname (List.contains_iff_mem.mpr h),
          fun h => hbare (List.contains_iff_mem.mpr h)⟩

theorem linkAll_links : ∀ (branches : List TypeExpr) (known : List FullName),
    Links (AnyMentions · branches) known (linkAll known branches)
  | [], _ => .ok fun _ => id
  | branch :: rest, known => by
    rw [linkAll_cons]
    exact (branch.links known).bind fun _ => (linkAll_links rest known).map _

end

end TypeExpr

namespace Schema

variable (known : List FullName)

theorem linkFields_links : ∀ fields : List Field,
    Links (MentionedIn fields) known (linkFields known fields)
  | [] => .ok (by simp [MentionedIn])
  | field :: rest => by
    rw [linkFields_cons]
    exact (((field.type.links known).map _).bind fun _ =>
      (linkFields_links rest).map _).congr fun _ => by simp [MentionedIn]

theorem linkDefinition_links : ∀ d : Definition,
    Links (d.Mentions ·) known (linkDefinition known d)
  | .record r => (linkFields_links known r.fields).map _
  | .enum _ | .fixed _ => .ok fun _ => id

theorem linkDefinitions_links : ∀ ds : List Definition,
    Links (fun n => ∃ d ∈ ds, d.Mentions n) known (linkDefinitions known ds)
  | [] => .ok (by simp)
  | d :: rest => by
    rw [linkDefinitions_cons]
    exact ((linkDefinition_links known d).bind fun _ =>
      (linkDefinitions_links rest).map _).congr fun _ => by simp

end Schema

/-! ## Accepting a document -/

/-- **Nothing is wrong with a document but perhaps its references**: it says a
type, and declares no name twice. -/
def Json.WellMade (j : Json) : Prop :=
  ∃ root names ds, Json.Denotes j "" root names ds ∧ names.Nodup

namespace Schema

variable {source : String} {j : Json} {root : TypeExpr} {declared : Declarations}

namespace Walked

/-- The names that were found are those that are written. -/
theorem accounts (h : Walked source j root declared) :
    Json.Accounts j.Declares j.Refers (root.Mentions ·) declared.names
      declared.finished :=
  h.reads.accounts

/-- What was found is linked. -/
theorem links (h : Walked source j root declared) :
    Links (Json.Mentioned (root.Mentions ·) declared.finished) declared.names
      (parse source) := by
  have hdeclared := h.reads.declared
  rw [h.parse_eq, hdeclared.map_name_inOrder]
  refine Links.congr (.bind (root.links _) fun _ =>
    .finish (linkDefinitions_links _ _)) fun n => ?_
  simp only [Json.Mentioned, hdeclared.mem_inOrder h.nodup]

/-- A name is not known if it is not declared. -/
theorem not_known_iff (h : Walked source j root declared) {n : FullName} :
    (n ∉ declared.names ∧ n.bare ∉ declared.names)
      ↔ ¬ j.Declares n ∧ ¬ j.Declares n.bare := by
  rw [h.accounts.declared, h.accounts.declared]

/-- **A walk is followed by an error only if a reference dangles**, and then the
error is about one that does. -/
theorem dangles_of_error (h : Walked source j root declared) {e : SchemaError}
    (he : parse source = .error e) :
    ∃ n, e = .unresolvedReference n ∧ j.Dangles n := by
  have hlinks := h.links
  rw [he] at hlinks
  obtain ⟨n, rfl, hmentioned, hunknown⟩ := hlinks
  obtain ⟨hundeclared, hbare⟩ := h.not_known_iff.mp hunknown
  refine ⟨n, rfl, ?_, hundeclared, hbare⟩
  exact (h.accounts.mentioned n hmentioned).resolve_right hundeclared

/-- **After a walk that is followed by success no reference dangles.** -/
theorem not_dangles_of_ok (h : Walked source j root declared) {s : Schema}
    (hs : parse source = .ok s) (n : FullName) : ¬ j.Dangles n := by
  intro hn
  have hlinks := h.links
  rw [hs] at hlinks
  have hunknown := h.not_known_iff.mpr ⟨hn.undeclared, hn.bare⟩
  exact (hlinks n (h.accounts.referred n hn.refers)).elim hunknown.1 hunknown.2

end Walked

/-- **A document is well-made if the walk succeeds**, and only then. -/
theorem exists_walked_iff (hj : Json.parse source = .ok j) :
    (∃ root declared, Walked source j root declared) ↔ j.WellMade := by
  constructor
  · rintro ⟨root, declared, h⟩
    exact ⟨root, _, _, h.reads, h.nodup⟩
  · rintro ⟨root, names, ds, hreads, hnodup⟩
    exact ⟨root, ⟨names, ds⟩, walked_iff.mpr ⟨hj, hreads, hnodup⟩⟩

/-- **A well-made document is accepted if no reference dangles**, and only
then. -/
theorem parse_ok_iff (hj : Json.parse source = .ok j) (h : j.WellMade) :
    (∃ s, parse source = .ok s) ↔ ∀ n, ¬ j.Dangles n := by
  obtain ⟨root, declared, hwalked⟩ := (exists_walked_iff hj).mpr h
  refine ⟨fun ⟨s, hs⟩ => hwalked.not_dangles_of_ok hs, fun hn => ?_⟩
  cases hs : parse source with
  | ok s => exact ⟨s, rfl⟩
  | error e =>
    obtain ⟨n, -, hdangles⟩ := hwalked.dangles_of_error hs
    exact absurd hdangles (hn n)

/-- **A well-made document is rejected for a reference if one dangles**, and
only then. -/
theorem parse_unresolved_iff (hj : Json.parse source = .ok j)
    (h : j.WellMade) :
    (∃ n, parse source = .error (.unresolvedReference n))
      ↔ ∃ n, j.Dangles n := by
  obtain ⟨root, declared, hwalked⟩ := (exists_walked_iff hj).mpr h
  constructor
  · rintro ⟨n, hn⟩
    exact (hwalked.dangles_of_error hn).imp fun _ => And.right
  · rintro ⟨n, hn⟩
    cases hs : parse source with
    | ok s => exact absurd hn (hwalked.not_dangles_of_ok hs n)
    | error e =>
      obtain ⟨n', rfl, -⟩ := hwalked.dangles_of_error hs
      exact ⟨n', rfl⟩

/-- **The reference for which a document is rejected dangles**, and nothing else
is wrong with the document. -/
theorem dangles_of_parse {n : FullName}
    (h : parse source = .error (.unresolvedReference n)) :
    ∃ j, Json.parse source = .ok j ∧ j.WellMade ∧ j.Dangles n := by
  obtain ⟨j, root, declared, hwalked⟩ := exists_walked_of_unresolved h
  obtain ⟨n', hn, hdangles⟩ := hwalked.dangles_of_error h
  obtain rfl := SchemaError.unresolvedReference.inj hn
  exact ⟨j, hwalked.json,
    (exists_walked_iff hwalked.json).mp ⟨root, declared, hwalked⟩, hdangles⟩

end Schema

end Avro
