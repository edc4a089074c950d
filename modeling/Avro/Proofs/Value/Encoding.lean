import Avro.Encode
import Avro.Proofs.Schema.Parsing
import Avro.Proofs.Value.Conformity
import Avro.Proofs.Wire.RoundTrip

/-!
# Encoding values of a type

A value of a type is encoded without a fault (`Value.Conforms.encodes`), and
its bytes are those of its parts, one after another (`Value.written_record`
and the others). Fields are looked up by their names; they are found at their
own places, since no name is there twice.
-/

namespace Avro

/-- Bytes after bytes. -/
theorem Draft.ok_append_ok (a b : List UInt8) :
    Draft.ok a ++ Draft.ok b = Draft.ok (a ++ b) :=
  rfl

namespace Value

/-- The bytes of a value as a type. -/
def written (s : Schema) (v : Value) (t : TypeExpr) : List UInt8 :=
  (v.draft s t).bytes

/-- **A value is encoded** as a type without a fault. -/
def Encodes (s : Schema) (v : Value) (t : TypeExpr) : Prop :=
  v.draft s t = .ok (v.written s t)

variable {s : Schema}

/-- What is known to be a draft without fault are the bytes of the value. -/
theorem Encodes.of_eq {v : Value} {t : TypeExpr} {bytes : List UInt8}
    (h : v.draft s t = .ok bytes) : v.Encodes s t ∧ v.written s t = bytes := by
  unfold Encodes written
  rw [h]
  exact ⟨rfl, rfl⟩

/-! ## Parts -/

/-- The drafts of fields or entries, each under its key. -/
theorem drafts_eq (s : Schema) : ∀ pairs : List (String × Value),
    drafts s pairs = pairs.map fun x => (x.1, draft s x.2)
  | [] => rfl
  | (_, _) :: rest => by
    rw [drafts, drafts_eq s rest, List.map_cons]

/-- Items are encoded one after another. -/
theorem itemsDraft_eq {t : TypeExpr} :
    ∀ {items : List Value}, (∀ v ∈ items, v.Encodes s t) →
      itemsDraft s items t = .ok (items.flatMap fun v => v.written s t)
  | [], _ => rfl
  | v :: rest, h => by
    have hv : v.draft s t = .ok (v.written s t) := h v List.mem_cons_self
    rw [itemsDraft, hv,
      itemsDraft_eq fun v' hv' => h v' (List.mem_cons_of_mem _ hv'),
      Draft.ok_append_ok, List.flatMap_cons]

/-- The bytes of an entry, its key in front. -/
def writtenEntry (s : Schema) (t : TypeExpr) (x : String × Value) :
    List UInt8 :=
  Wire.string x.1 ++ x.2.written s t

/-- Entries are encoded one after another. -/
theorem entriesDraft_eq {t : TypeExpr} :
    ∀ {entries : List (String × Value)}, (∀ x ∈ entries, x.2.Encodes s t) →
      entriesDraft t (drafts s entries)
        = .ok (entries.flatMap (writtenEntry s t))
  | [], _ => rfl
  | (key, v) :: rest, h => by
    have hv : v.draft s t = .ok (v.written s t) :=
      h (key, v) List.mem_cons_self
    rw [drafts, entriesDraft, hv,
      entriesDraft_eq fun x hx => h x (List.mem_cons_of_mem _ hx),
      Draft.ok_append_ok, Draft.ok_append_ok, List.flatMap_cons]
    rfl

/-- The bytes of a field. -/
def writtenField (s : Schema) (x : (String × Value) × Field) : List UInt8 :=
  x.1.2.written s x.2.type

/-- **Fields are encoded one after another**, if each is found under the name
of its definition. -/
theorem fieldsDraft_eq (r : RecordType)
    (named : List (String × (TypeExpr → Draft))) :
    ∀ {fields : List (String × Value)} {definitions : List Field},
      fields.map (·.1) = definitions.map (·.name) →
      (∀ x ∈ fields.zip definitions, x.1.2.Encodes s x.2.type) →
      (∀ x ∈ fields.zip definitions,
        Entries.find? x.2.name named = some (draft s x.1.2)) →
      fieldsDraft r named definitions
        = .ok ((fields.zip definitions).flatMap (writtenField s))
  | [], [], _, _, _ => rfl
  | [], _ :: _, h, _, _ => absurd h (by simp)
  | _ :: _, [], h, _, _ => absurd h (by simp)
  | (name, v) :: rest, definition :: others, hnames, hparts, hfound => by
    have hv : v.draft s definition.type = .ok (v.written s definition.type) :=
      hparts ((name, v), definition) List.mem_cons_self
    rw [fieldsDraft, hfound ((name, v), definition) List.mem_cons_self]
    simp only [hv]
    rw [fieldsDraft_eq r named (List.cons.inj hnames).2
      (fun x hx => hparts x (List.mem_cons_of_mem _ hx))
      (fun x hx => hfound x (List.mem_cons_of_mem _ hx)),
      Draft.ok_append_ok, List.zip_cons_cons, List.flatMap_cons]
    rfl

/-! ## Types -/

theorem written_array {items : List Value} {t : TypeExpr}
    (h : ∀ v ∈ items, v.Encodes s t) :
    (array items).Encodes s (.array t) ∧ (array items).written s (.array t)
      = Wire.block items.length (items.flatMap fun v => v.written s t) := by
  refine Encodes.of_eq ?_
  simp only [draft, Schema.shape?]
  rw [itemsDraft_eq h, blockDraft, Wire.block]
  split <;> rfl

theorem written_map {entries : List (String × Value)} {t : TypeExpr}
    (h : ∀ x ∈ entries, x.2.Encodes s t) :
    (map entries).Encodes s (.map t) ∧ (map entries).written s (.map t)
      = Wire.block entries.length (entries.flatMap (writtenEntry s t)) := by
  refine Encodes.of_eq ?_
  simp only [draft, Schema.shape?]
  rw [entriesDraft_eq h, blockDraft, Wire.block]
  split <;> rfl

theorem written_union {branches : List TypeExpr} {branch : TypeExpr}
    {index : Nat} {v : Value} (hbranch : branches[index]? = some branch)
    (h : v.Encodes s branch) :
    (union index v).Encodes s (.union branches)
      ∧ (union index v).written s (.union branches)
        = Wire.integer index ++ v.written s branch := by
  refine Encodes.of_eq ?_
  have hv : v.draft s branch = .ok (v.written s branch) := h
  simp only [draft, Schema.shape?, hbranch, hv]
  rfl

theorem written_enum {name : FullName} {e : EnumType} {index position : Nat}
    {symbol : String} (hd : s.definition? name = some (.enum e))
    (h : e.symbolIndex? symbol = some position) :
    (enum index symbol).Encodes s (.named name)
      ∧ (enum index symbol).written s (.named name)
        = Wire.integer position := by
  refine Encodes.of_eq ?_
  simp only [draft, scalarDraft, Schema.shape?, hd, h]

theorem written_fixed {name : FullName} {f : FixedType} {b : List UInt8}
    (hd : s.definition? name = some (.fixed f)) (h : b.length = f.size) :
    (fixed b).Encodes s (.named name)
      ∧ (fixed b).written s (.named name) = b := by
  refine Encodes.of_eq ?_
  simp only [draft, scalarDraft, Schema.shape?, hd, h, if_true]

theorem written_record {name : FullName} {r : RecordType}
    {fields : List (String × Value)}
    (hd : s.definition? name = some (.record r))
    (hnames : fields.map (·.1) = r.fields.map (·.name))
    (hdistinct : (r.fields.map (·.name)).Nodup)
    (h : ∀ x ∈ fields.zip r.fields, x.1.2.Encodes s x.2.type) :
    (record fields).Encodes s (.named name)
      ∧ (record fields).written s (.named name)
        = (fields.zip r.fields).flatMap (writtenField s) := by
  refine Encodes.of_eq ?_
  simp only [draft, Schema.shape?, hd]
  refine fieldsDraft_eq r _ hnames h fun x hx => ?_
  -- the two lists have the same names, so a pair has one name
  have hname : x.1.1 = x.2.name := by
    obtain ⟨i, hlt, hi⟩ := List.mem_iff_getElem.mp hx
    have hnth := congrArg (fun l => l[i]?) hnames
    rw [List.length_zip] at hlt
    simp only [List.getElem?_map, List.getElem?_eq_getElem
      (Nat.lt_of_lt_of_le hlt (Nat.min_le_left _ _)), List.getElem?_eq_getElem
      (Nat.lt_of_lt_of_le hlt (Nat.min_le_right _ _)), Option.map_some,
      Option.some.injEq] at hnth
    rw [← hi, List.getElem_zip]
    exact hnth
  refine Entries.find?_of_mem ?_ ?_
  · rw [drafts_eq, List.map_map]
    show (fields.map (·.1)).Nodup
    rw [hnames]
    exact hdistinct
  · rw [drafts_eq, ← hname]
    exact List.mem_map.mpr ⟨x.1, (List.of_mem_zip hx).1, rfl⟩

/-! ## Values of a type -/

end Value

/-- A symbol at a position has a first position. -/
theorem EnumType.exists_symbolIndex? {e : EnumType} {symbol : String}
    {index : Nat} (h : e.symbols[index]? = some symbol) :
    ∃ position ≤ index, e.symbolIndex? symbol = some position := by
  obtain ⟨hlt, hsymbol⟩ := List.getElem?_eq_some_iff.mp h
  cases hfirst : e.symbolIndex? symbol with
  | none =>
    have hnone := List.findIdx?_eq_none_iff.mp hfirst _
      (hsymbol ▸ List.getElem_mem hlt)
    exact absurd hnone (by simp)
  | some position =>
    refine ⟨position, Nat.le_of_not_lt fun hgt => ?_, rfl⟩
    obtain ⟨_, _, hbefore⟩ := List.findIdx?_eq_some_iff_getElem.mp hfirst
    exact absurd (decide_eq_true hsymbol) (hbefore index hgt)

/-- The fields of a record that a well-formed schema finds have names of their
own. -/
theorem Schema.WellFormed.distinct {s : Schema} (h : s.WellFormed)
    {name : FullName} {r : RecordType}
    (hd : s.definition? name = some (.record r)) :
    (r.fields.map (·.name)).Nodup :=
  (h.regular _ (List.mem_of_find?_eq_some hd)).distinct r rfl

/-- **A value of a type is encoded without a fault.** -/
theorem Value.Conforms.encodes {s : Schema} (hs : s.WellFormed) {v : Value}
    {t : TypeExpr} (h : v.Conforms s t) : v.Encodes s t := by
  induction h with
  | null => exact (Value.Encodes.of_eq rfl).1
  | boolean b => exact (Value.Encodes.of_eq rfl).1
  | int n => exact (Value.Encodes.of_eq rfl).1
  | long n => exact (Value.Encodes.of_eq rfl).1
  | float x => exact (Value.Encodes.of_eq rfl).1
  | double x => exact (Value.Encodes.of_eq rfl).1
  | bytes b => exact (Value.Encodes.of_eq rfl).1
  | string x => exact (Value.Encodes.of_eq rfl).1
  | record hd hnames _ ih =>
    exact (Value.written_record hd hnames (hs.distinct hd) ih).1
  | enum hd hsymbol =>
    obtain ⟨_, _, hfirst⟩ := EnumType.exists_symbolIndex? hsymbol
    exact (Value.written_enum hd hfirst).1
  | fixed hd hsize => exact (Value.written_fixed hd hsize).1
  | array _ ih => exact (Value.written_array ih).1
  | map _ _ ih => exact (Value.written_map ih).1
  | union hbranch _ ih => exact (Value.written_union hbranch ih).1

end Avro
