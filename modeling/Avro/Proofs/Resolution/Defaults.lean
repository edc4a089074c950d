import Avro.Proofs.Resolution.SameSchema

/-!
# Defaults are read back

A default that is converted is a value of its type, and values of a type are
encoded and read back. For a default that is one statement
(`Value.ofDefault_readBack`): what it stands for is of the type, is encoded
without a fault, and is what a program delivers that reads the bytes as the
type.

To read as a type is to read by the schema that has this type for its root
(`Schema.rootedAt`). The program goes only where the type leads
(`Schema.ReachedFrom`), so it is only there that unions have to pick themselves
(`Schema.PicksFrom`); what stands elsewhere in the schema does not matter.
-/

namespace Avro

/-! ## A schema at one of its types -/

/-- **A schema with another root.** -/
def Schema.rootedAt (s : Schema) (t : TypeExpr) : Schema := { s with root := t }

namespace Schema

variable (s : Schema) (t : TypeExpr)

theorem exact_rootedAt : ∀ w r : TypeExpr,
    (s.rootedAt t).exact w (s.rootedAt t) r = s.exact w s r
  | .array items, r => by
    cases r with
    | array items' => exact exact_rootedAt items items'
    | _ => rfl
  | .map values, r => by
    cases r with
    | map values' => exact exact_rootedAt values values'
    | _ => rfl
  | .primitive _, r | .union _, r | .named _, r => by cases r <;> rfl

mutual

theorem readable_rootedAt : ∀ w r : TypeExpr,
    (s.rootedAt t).readable w (s.rootedAt t) r = s.readable w s r
  | .primitive _, _ => rfl
  | .array items, r => by
    simp only [readable, readable_rootedAt items]
  | .map values, r => by
    simp only [readable, readable_rootedAt values]
  | .union branches, r => readableSome_rootedAt branches r
  | .named _, _ => rfl

theorem readableSome_rootedAt : ∀ (branches : List TypeExpr) (r : TypeExpr),
    (s.rootedAt t).readableSome branches (s.rootedAt t) r
      = s.readableSome branches s r
  | [], _ => rfl
  | branch :: rest, r => by
    rw [readableSome, readableSome, readable_rootedAt branch r,
      readableSome_rootedAt rest r]

end

/-- **A branch is picked wherever the root is.** -/
theorem branchFor?_rootedAt (w : TypeExpr) (branches : List TypeExpr) :
    (s.rootedAt t).branchFor? w (s.rootedAt t) branches
      = s.branchFor? w s branches := by
  simp only [branchFor?, exact_rootedAt, readable_rootedAt]

variable {s t}

/-- A schema is well-formed at every type of its names. -/
theorem WellFormed.rootedAt (h : s.WellFormed)
    (ht : t.NamesIn (s.definitions.map (·.name))) :
    (s.rootedAt t).WellFormed where
  regular := h.regular
  root := ht
  field := h.field

end Schema

namespace Value

variable (s : Schema) (t : TypeExpr)

mutual

/-- **A value is encoded alike wherever the root is.** -/
theorem draft_rootedAt : ∀ (v : Value) (u : TypeExpr),
    v.draft (s.rootedAt t) u = v.draft s u
  | .record fields, u => by
    rw [draft, draft, drafts_rootedAt fields]
    rfl
  | .array items, u => by
    simp only [draft, itemsDraft_rootedAt items]
    rfl
  | .map entries, u => by
    rw [draft, draft, drafts_rootedAt entries]
    rfl
  | .union index v, u => by
    simp only [draft, draft_rootedAt v]
    rfl
  | .null, _ | .boolean _, _ | .int _, _ | .long _, _ | .float _, _
  | .double _, _ | .bytes _, _ | .string _, _ | .fixed _, _ | .enum _ _, _ =>
    rfl

theorem itemsDraft_rootedAt : ∀ (items : List Value) (u : TypeExpr),
    itemsDraft (s.rootedAt t) items u = itemsDraft s items u
  | [], _ => rfl
  | item :: rest, u => by
    rw [itemsDraft, itemsDraft, draft_rootedAt item u,
      itemsDraft_rootedAt rest u]

theorem drafts_rootedAt : ∀ fields : List (String × Value),
    drafts (s.rootedAt t) fields = drafts s fields
  | [] => rfl
  | (name, v) :: rest => by
    rw [drafts, drafts, drafts_rootedAt rest, funext (draft_rootedAt v)]

end

/-- A value is of a type wherever the root is. -/
theorem ConformsFirst.rootedAt {s : Schema} {t : TypeExpr} {v : Value}
    {u : TypeExpr} (h : v.ConformsFirst s u) :
    v.ConformsFirst (s.rootedAt t) u := by
  have hdef : ∀ name d, s.definition? name = some d →
      (s.rootedAt t).definition? name = some d := fun _ _ => id
  exact h.transfer hdef fun _ _ _ => id

end Value

/-! ## What a type reaches -/

namespace Schema

/-- **A type is reached from a type**: it is the type itself, a part of a type
that is reached, or the type of a field of a record that is reached. -/
inductive ReachedFrom (s : Schema) (t : TypeExpr) : TypeExpr → Prop
  /-- The type itself. -/
  | here : ReachedFrom s t t
  /-- The items of an array. -/
  | items {items : TypeExpr} (h : ReachedFrom s t (.array items)) :
    ReachedFrom s t items
  /-- The values of a map. -/
  | values {values : TypeExpr} (h : ReachedFrom s t (.map values)) :
    ReachedFrom s t values
  /-- A branch of a union. -/
  | branch {branches : List TypeExpr} {branch : TypeExpr}
    (h : ReachedFrom s t (.union branches)) (mem : branch ∈ branches) :
    ReachedFrom s t branch
  /-- The type of a field. -/
  | field {name : FullName} {r : RecordType} {field : Field}
    (h : ReachedFrom s t (.named name))
    (found : s.definition? name = some (.record r)) (mem : field ∈ r.fields) :
    ReachedFrom s t field.type

/-- **The unions that are reached from a type pick themselves**: they are not
empty, and every branch is the one that receives its data. -/
def PicksFrom (s : Schema) (t : TypeExpr) : Prop :=
  ∀ branches, s.ReachedFrom t (.union branches) → branches ≠ []
    ∧ ∀ (index : Nat) branch, branches[index]? = some branch →
      s.branchFor? branch s branches = some index

variable {s : Schema} {t : TypeExpr}

/-- What is reached from a type of defined names is of defined names. -/
theorem ReachedFrom.namesIn (hs : s.WellFormed)
    (ht : t.NamesIn (s.definitions.map (·.name))) {u : TypeExpr}
    (h : s.ReachedFrom t u) : u.NamesIn (s.definitions.map (·.name)) := by
  induction h with
  | here => exact ht
  | items _ ih => exact ih
  | values _ ih => exact ih
  | branch _ mem ih =>
    obtain ⟨index, hbranch⟩ := List.getElem?_of_mem mem
    exact TypeExpr.AllNamesIn.mem_branches ih _ (List.mem_of_getElem? hbranch)
  | field _ found mem =>
    exact hs.field _ (List.mem_of_find?_eq_some found) _ mem

/-- **What is reached from a type reads itself** if its unions do. -/
theorem PicksFrom.readThemselves (hs : s.WellFormed)
    (ht : t.NamesIn (s.definitions.map (·.name))) (hpicks : s.PicksFrom t) :
    (s.rootedAt t).ReadThemselves (s.ReachedFrom t) where
  items h := h.items
  values h := h.values
  branch h _ _ hbranch := h.branch (List.mem_of_getElem? hbranch)
  field h found _ mem := h.field found mem
  defined h := WellFormed.definition?_of_mem (h.namesIn hs ht)
  nonempty h := (hpicks _ h).1
  picks h index branch hbranch := by
    rw [branchFor?_rootedAt]
    exact (hpicks _ h).2 index branch hbranch

end Schema

/-! ## Defaults -/

/-- **A default is a value of its type, and is read back.** If a default of a
schema that was read is converted to a type, what it gives

* is a value of the type, with every union of its first branch;
* is encoded as the type without a fault;
* and, if the unions that are reached from the type pick themselves, is what
  the program of the type delivers from the bytes, leaving the rest, unless the
  limit on levels is too low. -/
theorem Value.ofDefault_readBack {s : Schema}
    (hs : ∃ source, Schema.parse source = .ok s) {t : TypeExpr} {j : Json}
    (hj : j.Ordered) {v : Value} (h : ofDefault s t j = .ok v) :
    v.ConformsFirst s t ∧ v.FirstBranches ∧ (v.draft s t).fault = none
    ∧ (t.NamesIn (s.definitions.map (·.name)) → s.PicksFrom t →
      ∃ p, compile (s.rootedAt t) (s.rootedAt t) = .ok p
        ∧ ((s.rootedAt t).Fits → p.Fits → v.Fits → ∀ rest : Input,
          ∃ needed, ∀ maxDepth, ∃ o,
            p.Yields (Builder.sink (s.rootedAt t)) maxDepth
              (rest.prepend (v.draft s t).bytes)
              (Builder.fresh (s.rootedAt t) t) o
            ∧ if maxDepth < needed then o.HitsLimit maxDepth
              else o.result = .ok () ∧ o.state.value? (s.rootedAt t) = .ok v
                ∧ o.input = rest)) := by
  have hwell : s.WellFormed := hs.elim fun _ => Schema.parse_wellFormed
  have hv := ofDefault_conforms hwell.ordered hj h
  refine ⟨hv, ofDefault_firstBranches hwell.ordered hj h,
    congrArg Draft.fault (hv.conforms.encodes hwell), fun ht hpicks => ?_⟩
  have hwell' := hwell.rootedAt ht
  have hself := hpicks.readThemselves hwell ht
  obtain ⟨p, hcompile⟩ := hself.compile_ok hwell' .here
  refine ⟨p, hcompile, fun hsfits hpfits hvfits rest => ?_⟩
  have hv' : v.ConformsFirst (s.rootedAt t) t := hv.rootedAt
  have hresolves := compile_resolves (hself.encloses hwell' .here)
    (Demand.namesTellApart_itselfIn hwell') hcompile hpfits hsfits hsfits hwell'
    hv'.conforms hvfits rest
  have hbytes : ((s.rootedAt t).encode v).bytes = (v.draft s t).bytes :=
    congrArg Draft.bytes (draft_rootedAt s t v t)
  have hself' : resolve (s.rootedAt t) (s.rootedAt t) v (s.rootedAt t).root
      (s.rootedAt t).root = .ok v :=
    hv'.resolve_readThemselves hwell' hself .here
  rw [hbytes, hself'] at hresolves
  exact hresolves

/-! ## Knobs

A knob has a level, and perhaps a next knob; both have defaults. The root of the
schema is a union that does not pick itself, since it has two fixed of one
unqualified name. A list of knobs does not reach it. -/

namespace Knob

/-- The document of the schema. -/
def source : String :=
  "[\x7b\"type\":\"fixed\",\"name\":\"a.N\",\"size\":1\x7d," ++
    "\x7b\"type\":\"fixed\",\"name\":\"b.N\",\"size\":1\x7d," ++
    "\x7b\"type\":\"record\",\"name\":\"Knob\",\"fields\":[" ++
      "\x7b\"name\":\"level\",\"type\":\"int\",\"default\":3\x7d," ++
      "\x7b\"name\":\"next\",\"type\":[\"null\",\"Knob\"]," ++
        "\"default\":null\x7d]\x7d]"

/-- The type of knobs. -/
def type : TypeExpr := .named ⟨"Knob", ""⟩

/-- The type of the next knob. -/
def next : TypeExpr := .union [.primitive .null, type]

/-- The record of a knob. -/
def record : RecordType where
  name := ⟨"Knob", ""⟩
  aliases := []
  fields :=
    [⟨"level", .primitive .int, [], some (.integer 3), none⟩,
      ⟨"next", next, [], some .null, none⟩]
  doc := none

/-- The schema. -/
def schema : Schema where
  root := .union [.named ⟨"N", "a"⟩, .named ⟨"N", "b"⟩, type]
  definitions :=
    [.fixed ⟨⟨"N", "a"⟩, [], 1⟩, .fixed ⟨⟨"N", "b"⟩, [], 1⟩, .record record]
  source := source

theorem parse_source : Schema.parse source = .ok schema := by
  have hchars : source.toList = _ :=
    toList_append_eq (toList_append_eq (toList_append_eq (toList_append_eq
      (toList_append_eq String.toList_ofList String.toList_ofList)
        String.toList_ofList) String.toList_ofList) String.toList_ofList)
        String.toList_ofList
  rw [Schema.parse, Json.parse, hchars]
  cbv

/-- The definition of a knob is found. -/
theorem definition?_knob :
    schema.definition? ⟨"Knob", ""⟩ = some (.record record) := rfl

/-- **What a list of knobs reaches.** -/
theorem mem_of_reachedFrom {u : TypeExpr}
    (h : schema.ReachedFrom (.array type) u) :
    u ∈ [.array type, type, .primitive .int, next, .primitive .null] := by
  induction h with
  | here => exact List.mem_cons_self
  | items _ ih =>
    obtain rfl : _ = type := by simpa [type, next] using ih
    simp
  | values _ ih => exact absurd ih (by simp [type, next])
  | @branch branches _ _ mem ih =>
    obtain rfl : branches = [.primitive .null, type] := by
      simpa [type, next] using ih
    rcases List.mem_cons.mp mem with rfl | mem
    · simp
    · obtain rfl := List.mem_singleton.mp mem
      simp
  | @field name r f _ found mem ih =>
    obtain rfl : name = ⟨"Knob", ""⟩ := by simpa [type, next] using ih
    obtain rfl := Definition.record.inj
      (Option.some.inj (found.symm.trans definition?_knob))
    rcases List.mem_cons.mp mem with rfl | mem
    · simp
    · obtain rfl := List.mem_singleton.mp mem
      simp

theorem picksFrom : schema.PicksFrom (.array type) := by
  intro branches h
  obtain rfl : branches = [.primitive .null, type] := by
    simpa [type, next] using mem_of_reachedFrom h
  refine ⟨nofun, fun index branch hbranch => ?_⟩
  match index with
  | 0 => obtain rfl := Option.some.inj hbranch; cbv
  | 1 => obtain rfl := Option.some.inj hbranch; cbv
  | index + 2 => exact absurd hbranch (by simp)

theorem fits : (schema.rootedAt (.array type)).Fits where
  root := trivial
  definition := by
    simp [Schema.rootedAt, schema, record, next, type, Definition.Fits,
      TypeExpr.Fits, TypeExpr.AllFit]

theorem size_compile : (compile (schema.rootedAt (.array type))
    (schema.rootedAt (.array type))).map (fun p =>
      (p.instructions.size, p.errors.length)) = .ok (39, 1) := by cbv

/-- A list of a knob with a level and of one that leaves out both. -/
def json : Json := .array [.object [("level", .integer 5)], .object []]

theorem json_ordered : json.Ordered := by
  have hlevel : (Json.object [("level", .integer 5)]).Ordered :=
    .object (by simp [Entries.Sorted]) fun m hm => by
      obtain rfl := List.mem_singleton.mp hm
      exact .integer 5
  refine .array fun j hj => ?_
  rcases List.mem_cons.mp hj with rfl | hj
  · exact hlevel
  · obtain rfl := List.mem_singleton.mp hj
    exact .object (by simp [Entries.Sorted]) nofun

/-- A knob that has no next one. -/
def last (level : Int32) : Value :=
  .record [("level", .int level), ("next", .union 0 .null)]

/-- The knobs. -/
def knobs : Value := .array [last 5, last 3]

theorem ofDefault_json :
    Value.ofDefault schema (.array type) json = .ok knobs := by cbv

theorem last_fits (level : Int32) : (last level).Fits := by
  refine .record fun x hx => ?_
  rcases List.mem_cons.mp hx with rfl | hx
  · exact .int level
  · obtain rfl := List.mem_singleton.mp hx
    exact .union .null

theorem knobs_fits : knobs.Fits := by
  refine .array (by decide) fun v hv => ?_
  rcases List.mem_cons.mp hv with rfl | hv
  · exact last_fits 5
  · obtain rfl := List.mem_singleton.mp hv
    exact last_fits 3

end Knob

open Knob in
/-- The knobs are what their bytes are read as. -/
theorem Value.ofDefault_readBack_knobs :
    knobs.ConformsFirst schema (.array type) ∧ knobs.FirstBranches
    ∧ (knobs.draft schema (.array type)).fault = none
    ∧ ∃ p, compile (schema.rootedAt (.array type))
        (schema.rootedAt (.array type)) = .ok p
      ∧ ∃ needed, ∀ maxDepth, ∃ o,
        p.Yields (Builder.sink (schema.rootedAt (.array type))) maxDepth
          ((Input.ofBytes [7]).prepend (knobs.draft schema (.array type)).bytes)
          (Builder.fresh (schema.rootedAt (.array type)) (.array type)) o
        ∧ if maxDepth < needed then o.HitsLimit maxDepth
          else o.result = .ok ()
            ∧ o.state.value? (schema.rootedAt (.array type)) = .ok knobs
            ∧ o.input = Input.ofBytes [7] := by
  obtain ⟨hconforms, hfirst, hencodes, hreads⟩ :=
    Value.ofDefault_readBack ⟨_, parse_source⟩ json_ordered ofDefault_json
  have hnames : (TypeExpr.array type).NamesIn
      (schema.definitions.map (·.name)) :=
    List.mem_map.mpr ⟨_, List.mem_of_find?_eq_some definition?_knob, rfl⟩
  obtain ⟨p, hp, h⟩ := hreads hnames picksFrom
  obtain ⟨q, hq, hsize⟩ := exists_of_map_ok size_compile
  obtain rfl := Except.ok.inj (hp.symm.trans hq)
  obtain ⟨hsize, hmessages⟩ := Prod.mk.inj hsize
  exact ⟨hconforms, hfirst, hencodes, p, hp,
    h fits ⟨by omega, by omega⟩ knobs_fits (Input.ofBytes [7])⟩

end Avro
