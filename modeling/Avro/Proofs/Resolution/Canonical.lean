import Avro.Proofs.Decoding.Rewriting
import Avro.Proofs.Decoding.TypeSafety
import Avro.Proofs.Resolution.SameSchema

/-!
# Decoding canonicalizes

A schema whose unions pick themselves reads more than its own encoder writes:
integers that are padded, arrays and maps in several blocks, with sizes or
without, and maps that repeat a key. What is read is a value of the schema,
and the encoder writes it in no more bytes than were read. From these the
program of the schema gives the value again, under the limit under which it
was read (`Schema.PicksItself.run_canonicalizes`).

All of it is said about decoding a type as itself
(`decode_self_rewrites`), with a case for each form of a type.

## What is particular to a schema that reads itself

Three steps of decoding look for something, and find it where it was written.
A symbol that an enum declares twice is found at its first position, so the
number that is written may be a smaller one than was read. A branch of a union
receives itself, since unions pick themselves. A field receives itself, since
no other has its name; decoding a record is decoding its fields one after
another (`decodeRecord_self`), and no default is taken.
-/

namespace Avro

open Decoding (Sound Rewrites reading rejected deeper entered blocks)

/-- **The counts in a value are 64-bit integers**: those of the items of its
arrays and the entries of its maps, on every level. -/
inductive Value.CountsFit : Value → Prop
  /-- The null value. -/
  | null : CountsFit .null
  /-- A truth value. -/
  | boolean (b : Bool) : CountsFit (.boolean b)
  /-- A 32-bit integer. -/
  | int (n : Int32) : CountsFit (.int n)
  /-- A 64-bit integer. -/
  | long (n : Int64) : CountsFit (.long n)
  /-- A single precision number. -/
  | float (x : Binary32) : CountsFit (.float x)
  /-- A double precision number. -/
  | double (x : Binary64) : CountsFit (.double x)
  /-- A byte string. -/
  | bytes (b : List UInt8) : CountsFit (.bytes b)
  /-- A text. -/
  | string (x : String) : CountsFit (.string x)
  /-- Fields. -/
  | record {fields : List (String × Value)} :
    (∀ x ∈ fields, CountsFit x.2) → CountsFit (.record fields)
  /-- A symbol. -/
  | enum (index : Nat) (symbol : String) : CountsFit (.enum index symbol)
  /-- A byte string of a fixed size. -/
  | fixed (b : List UInt8) : CountsFit (.fixed b)
  /-- Items. -/
  | array {items : List Value} : Countable items →
    (∀ v ∈ items, CountsFit v) → CountsFit (.array items)
  /-- Entries. -/
  | map {entries : List (String × Value)} : Countable entries →
    (∀ x ∈ entries, CountsFit x.2) → CountsFit (.map entries)
  /-- A value of a branch. -/
  | union {index : Nat} {v : Value} : CountsFit v → CountsFit (.union index v)

/-- A value that is given is one that is sound to give. -/
theorem Decoding.Sound.of_eq_ok {α : Type} {P : α → Prop} {m : Decoding α}
    (h : Sound P m) {levels : Nat} {input left : Input} {a : α}
    (ha : m levels input = .ok a left) : P a := by
  have := h levels input
  rwa [ha] at this

variable {s : Schema} {limit : Nat}

variable (s) in
/-- **Decoding data of a type can be undone**: values of the type are written
again by the encoder. -/
abbrev Schema.Rewrites (t : TypeExpr) (m : Decoding Value) : Prop :=
  m.Rewrites Value.CountsFit (·.written s t)

/-! ## Types without parts -/

/-- **A primitive is written again.** -/
theorem Primitive.decode_self_rewrites :
    ∀ p : Primitive, s.Rewrites (.primitive p) (p.decode p)
  | .null => .pure rfl
  | .boolean => .reading (Read.Rewrites.readBoolean.map fun _ => rfl)
  | .int => .reading (Read.Rewrites.readInt.map fun _ => rfl)
  | .long => .reading (Read.Rewrites.readLong.map fun _ => rfl)
  | .float => .reading (Read.Rewrites.readFloat.map fun _ => rfl)
  | .double => .reading (Read.Rewrites.readDouble.map fun _ => rfl)
  | .bytes => .reading (Read.Rewrites.readBytes.map fun _ => rfl)
  | .string => .reading (Read.Rewrites.readString.map fun _ => rfl)

/-- **A fixed value is written again.** -/
theorem FixedType.decode_self_rewrites {name : FullName} {f : FixedType}
    (hd : s.definition? name = some (.fixed f)) :
    s.Rewrites (.named name) (f.decode f) := by
  unfold FixedType.decode
  rw [if_pos rfl]
  exact .reading ((Read.Rewrites.take f.size).map fun h =>
    (Value.written_fixed hd (Wire.length_of_take h).1).2)

/-! ## Enums -/

namespace EnumType

/-- A symbol that is given has the number that was read. -/
theorem decodeSymbol_eq_ok {r : EnumType} {message : String} {n : Int64}
    {levels : Nat} {input left : Input} {v : Value} :
    ∀ {symbols : List String} {tag : Nat},
      r.decodeSymbol message n tag symbols levels input = .ok v left →
      ∃ index symbol, symbols[index]? = some symbol
        ∧ n = Int64.ofNat (tag + index)
  | [], _, h => nomatch h
  | symbol :: rest, tag, h => by
    by_cases hn : n = Int64.ofNat tag
    · exact ⟨0, symbol, rfl, hn⟩
    · rw [decodeSymbol_of_ne hn] at h
      obtain ⟨index, symbol', hsymbol, hn⟩ := decodeSymbol_eq_ok h
      rw [Nat.add_right_comm] at hn
      exact ⟨index + 1, symbol', hsymbol, hn⟩

section

variable {e : EnumType} (hcount : Countable e.symbols)

include hcount

/-- The number of a symbol gives its first position. -/
theorem decodeSymbol_self {message symbol : String} {index position : Nat}
    (hsymbol : e.symbols[index]? = some symbol)
    (hfirst : e.symbolIndex? symbol = some position) :
    e.decodeSymbol message (Int64.ofNat index) 0 e.symbols
      = return .enum position (e.symbols.getD position "") := by
  have h := @decodeSymbol_getElem? e message e.symbols 0 index symbol hsymbol
    (by omega)
  rw [hfirst, Nat.zero_add] at h
  exact h

/-- An enum that is read as itself: the number of a symbol, in the place of
which the first position of the symbol is given. -/
theorem decode_self_eq_ok {levels : Nat} {input left : Input} {v : Value}
    (h : e.decode e levels input = .ok v left) :
    ∃ n index symbol position, Wire.readInt input = .ok n left
      ∧ n.toInt = (index : Nat) ∧ position ≤ index
      ∧ e.symbolIndex? symbol = some position
      ∧ v = .enum position (e.symbols.getD position "") := by
  obtain ⟨n, between, hn, h⟩ := Decoding.bind_eq_ok h
  obtain ⟨index, symbol, hsymbol, hnumber⟩ := decodeSymbol_eq_ok h
  obtain ⟨position, hle, hfirst⟩ := exists_symbolIndex? hsymbol
  rw [Nat.zero_add] at hnumber
  rw [hnumber, decodeSymbol_self hcount hsymbol hfirst] at h
  obtain ⟨rfl, rfl⟩ := EStateM.Result.ok.inj h
  -- both are numbers of 64 bits, so they are equal as integers
  have hindex : n.toInt = index := by
    have hlow := n.le_toInt
    have hhigh := n.toInt_lt
    have hlt : index < 0x8000000000000000 :=
      Nat.lt_trans (List.getElem?_eq_some_iff.mp hsymbol).1 hcount
    rw [← Int64.toInt_ofNat_of_lt hlt, ← hnumber,
      Int64.toInt_ofInt_of_le (by omega) (by omega)]
  exact ⟨n, index, symbol, position, Decoding.reading_eq_ok hn, hindex, hle,
    hfirst, rfl⟩

/-- The first position of a symbol is read as the symbol. -/
theorem decode_self_ok {symbol : String} {position : Nat}
    (hfirst : e.symbolIndex? symbol = some position)
    (hlt : position < 0x80000000) (levels : Nat) (rest : Input) :
    e.decode e levels (rest.prepend (Wire.integer position))
      = .ok (.enum position (e.symbols.getD position "")) rest := by
  have hnumber : Int64.ofInt (Int32.ofNat position).toInt
      = Int64.ofNat position := by
    rw [Int32.toInt_ofNat_of_lt hlt]
    rfl
  rw [decode, Decoding.bind_ok (Decoding.reading_ok
    (Wire.readInt_natCast hlt rest) levels), hnumber,
    decodeSymbol_self hcount (symbols_getElem? hfirst) hfirst]
  rfl

/-- **A symbol is written again**, by its first position, which is no greater
than the number that was read. -/
theorem decode_self_rewrites {name : FullName}
    (hd : s.definition? name = some (.enum e)) :
    s.Rewrites (.named name) (e.decode e) := by
  intro levels input left v h
  obtain ⟨n, index, symbol, position, hn, hindex, hle, hfirst, rfl⟩ :=
    decode_self_eq_ok hcount h
  have hwritten : Value.written s
      (.enum position (e.symbols.getD position "")) (.named name)
        = Wire.integer position :=
    (Value.written_enum hd (symbolIndex?_getD hfirst)).2
  have hlength : (Wire.integer n.toInt).length + left.rest.length
      ≤ input.rest.length := (Read.Rewrites.readInt hn).1
  have hshorter := Wire.length_integer_mono hle
  have hhigh := n.toInt_lt
  rw [hindex] at hlength
  dsimp only
  rw [hwritten]
  exact ⟨by omega, fun _ => decode_self_ok hcount hfirst (by omega) levels⟩

end

end EnumType

/-! ## Unions -/

section

variable {record : RecordType → RecordType → Decoding Value}
  {message : String} {readers : List TypeExpr}

/-- A branch that is read has the number that was read. -/
theorem decodeBranch_eq_ok {n : Int64} {levels : Nat} {input left : Input}
    {v : Value} :
    ∀ {branches : List TypeExpr} {tag : Nat},
      decodeBranch limit s s record message n tag branches (.union readers)
        levels input = .ok v left →
      ∃ index branch, branches[index]? = some branch
        ∧ n = Int64.ofNat (tag + index)
  | [], _, h => by
    rw [decodeBranch] at h
    exact nomatch h
  | branch :: rest, tag, h => by
    by_cases hn : n = Int64.ofNat tag
    · exact ⟨0, branch, rfl, hn⟩
    · rw [decodeBranch_of_ne hn] at h
      obtain ⟨index, branch', hbranch, hn⟩ := decodeBranch_eq_ok h
      rw [Nat.add_right_comm] at hn
      exact ⟨index + 1, branch', hbranch, hn⟩

/-- **The branch of a number** is read as what receives it. -/
theorem decodeBranch_getElem? {branch receiver : TypeExpr} {position : Nat}
    (hpick : s.branchFor? branch s readers = some position)
    (hreceiver : readers[position]? = some receiver) :
    ∀ {branches : List TypeExpr} {tag index : Nat},
      branches[index]? = some branch →
      tag + branches.length ≤ 0x8000000000000000 →
      decodeBranch limit s s record message (Int64.ofNat (tag + index)) tag
          branches (.union readers)
        = do
          let v ← entered limit receiver
            (decodeWith limit s s record branch receiver)
          return .union position v
  | [], _, _, hbranch, _ => absurd hbranch (by simp)
  | _ :: rest, tag, 0, hbranch, _ => by
    obtain rfl := Option.some.inj hbranch
    rw [decodeBranch, hpick]
    simp only [hreceiver, Nat.add_zero, if_true]
  | first :: rest, tag, index + 1, hbranch, hcount => by
    have hbound : tag + rest.length + 1 ≤ 0x8000000000000000 := hcount
    have hlt : index < rest.length :=
      Nat.lt_of_succ_lt_succ (List.getElem?_eq_some_iff.mp hbranch).1
    have hne : Int64.ofNat (tag + (index + 1)) ≠ Int64.ofNat tag :=
      (Int64.ofNat_ne_of_lt (by omega) (by omega)).symm
    have hrest := @decodeBranch_getElem? branch receiver position hpick
      hreceiver rest (tag + 1) index hbranch (by omega)
    rw [Nat.add_right_comm] at hrest
    rw [decodeBranch_of_ne hne]
    exact hrest

section

variable {branches : List TypeExpr} (hcount : Countable branches)
  (hpicks : ∀ (index : Nat) branch, branches[index]? = some branch →
    s.branchFor? branch s branches = some index)

include hcount hpicks

/-- What is read after the number of a branch that receives itself. -/
theorem decodeBranch_self {index : Nat} {branch : TypeExpr}
    (hbranch : branches[index]? = some branch) :
    decodeBranch limit s s record message (Int64.ofNat index) 0 branches
        (.union branches)
      = do
        let v ← entered limit branch
          (decodeWith limit s s record branch branch)
        return .union index v := by
  have h := @decodeBranch_getElem? s limit record message branches branch
    branch index (hpicks index branch hbranch) hbranch branches 0 index hbranch
    (by omega)
  rwa [Nat.zero_add] at h

/-- A union that is read as itself: a number, and a value of its branch. -/
theorem decodeWith_union_eq_ok {levels : Nat} {input left : Input} {v : Value}
    (h : decodeWith limit s s record (.union branches) (.union branches)
      levels input = .ok v left) :
    ∃ index branch u between, branches[index]? = some branch
      ∧ v = .union index u
      ∧ Wire.readLong input = .ok (Int64.ofNat index) between
      ∧ entered limit branch (decodeWith limit s s record branch branch)
        levels between = .ok u left := by
  rw [decodeWith] at h
  obtain ⟨n, between, hn, h⟩ := Decoding.bind_eq_ok h
  obtain ⟨index, branch, hbranch, hnumber⟩ := decodeBranch_eq_ok h
  rw [Nat.zero_add] at hnumber
  subst hnumber
  rw [decodeBranch_self hcount hpicks hbranch] at h
  obtain ⟨u, behind, hu, h⟩ := Decoding.bind_eq_ok h
  obtain ⟨rfl, rfl⟩ := EStateM.Result.ok.inj h
  exact ⟨index, branch, u, between, hbranch, rfl,
    Decoding.reading_eq_ok hn, hu⟩

/-- A number and a value of its branch are read as a union. -/
theorem decodeWith_union_ok {index : Nat} {branch : TypeExpr}
    (hbranch : branches[index]? = some branch) {levels : Nat}
    {input between left : Input} {u : Value}
    (hn : Wire.readLong input = .ok (Int64.ofNat index) between)
    (hu : entered limit branch (decodeWith limit s s record branch branch)
      levels between = .ok u left) :
    decodeWith limit s s record (.union branches) (.union branches) levels
      input = .ok (.union index u) left := by
  rw [decodeWith, Decoding.bind_ok (Decoding.reading_ok hn levels),
    decodeBranch_self hcount hpicks hbranch, Decoding.bind_ok hu]
  rfl

/-- **A value of a branch is written again**, if every branch receives
itself. -/
theorem decodeWith_union_rewrites (hs : s.WellFormed)
    (hsound : ∀ branch, Sound (·.ConformsFirst s branch)
      (decodeWith limit s s record branch branch))
    (hbranches : ∀ branch ∈ branches, s.Rewrites branch
      (decodeWith limit s s record branch branch)) :
    s.Rewrites (.union branches)
      (decodeWith limit s s record (.union branches) (.union branches)) := by
  intro levels input left v h
  obtain ⟨index, branch, u, between, hbranch, rfl, hn, hu⟩ :=
    decodeWith_union_eq_ok hcount hpicks h
  have hlt : index < 0x8000000000000000 :=
    Nat.lt_trans (List.getElem?_eq_some_iff.mp hbranch).1 hcount
  have htag := (Read.Rewrites.readLong hn).1
  have hentered : s.Rewrites branch (entered limit branch
      (decodeWith limit s s record branch branch)) :=
    (hbranches branch (List.mem_of_getElem? hbranch)).entered branch
  obtain ⟨hlength, hback⟩ := hentered hu
  have hencodes : u.Encodes s branch :=
    (((hsound branch).entered branch).of_eq_ok hu).conforms.encodes hs
  dsimp only at htag hlength ⊢
  rw [Int64.toInt_ofNat_of_lt hlt] at htag
  rw [(Value.written_union hbranch hencodes).2, List.length_append]
  refine ⟨by omega, fun hcounts rest => ?_⟩
  cases hcounts with
  | union hcounts =>
    rw [Input.prepend_append]
    exact decodeWith_union_ok hcount hpicks hbranch
      (Wire.readLong_natCast hlt _) (hback hcounts rest)

end

end

/-! ## Records -/

section

variable (limit) in
/-- Reads fields one after another, each with its name. -/
def decodeEach (decode : TypeExpr → Decoding Value) :
    List Field → Decoding (List (String × Value))
  | [] => return []
  | field :: rest => do
    let v ← entered limit field.type (decode field.type)
    let others ← decodeEach decode rest
    return (field.name, v) :: others

variable {decode : TypeExpr → TypeExpr → Decoding Value}
  {skip : TypeExpr → Decoding Unit}

/-- Fields that receive themselves are read one after another. -/
theorem decodeFields_self {rd : RecordType} :
    ∀ {first : Nat} {definitions : List Field},
      (∀ (index : Nat) field, definitions[index]? = some field →
        rd.fields[first + index]? = some field
          ∧ rd.receivingIndex? field.name = some (first + index)) →
      decodeFields limit decode skip rd definitions
        = do
          let fields ← decodeEach limit (fun t => decode t t) definitions
          return positions first fields
  | _, [], _ => rfl
  | first, definition :: rest, hself => by
    obtain ⟨hfield, hindex⟩ := hself 0 definition rfl
    have hrest := @decodeFields_self rd (first + 1) rest
      fun index field h => by
        rw [Nat.add_right_comm, Nat.add_assoc]
        exact hself (index + 1) field h
    rw [Nat.add_zero] at hfield hindex
    rw [decodeFields, hindex]
    simp only [hfield, hrest, decodeEach, bind_assoc, pure_bind]
    rfl

/-- Fields that are read have their names, and values of their types. -/
theorem decodeEach_sound {decode : TypeExpr → Decoding Value}
    (hdecode : ∀ t, Sound (·.ConformsFirst s t) (decode t)) :
    ∀ definitions : List Field,
      Sound (fun fields => fields.map (·.1) = definitions.map (·.name)
          ∧ ∀ x ∈ fields.zip definitions, x.1.2.ConformsFirst s x.2.type)
        (decodeEach limit decode definitions)
  | [] => .pure ⟨rfl, nofun⟩
  | definition :: rest =>
    ((hdecode definition.type).entered definition.type).bind fun v hv =>
      (decodeEach_sound hdecode rest).bind fun others hothers => .pure (by
        obtain ⟨hnames, hparts⟩ := hothers
        refine ⟨by rw [List.map_cons, List.map_cons, hnames], fun x hx => ?_⟩
        rw [List.zip_cons_cons] at hx
        rcases List.mem_cons.mp hx with rfl | hx
        · exact hv
        · exact hparts x hx)

/-- **Fields are written again**, one after another. -/
theorem decodeEach_rewrites {decode : TypeExpr → Decoding Value} :
    ∀ definitions : List Field,
      (∀ field ∈ definitions, s.Rewrites field.type (decode field.type)) →
      (decodeEach limit decode definitions).Rewrites
        (fun fields => ∀ x ∈ fields, x.2.CountsFit)
        (fun fields =>
          (fields.zip definitions).flatMap (Value.writtenField s))
  | [], _ => .pure rfl
  | definition :: rest, h =>
    ((h definition List.mem_cons_self).entered definition.type).both
      (decodeEach_rewrites rest
        fun field hfield => h field (List.mem_cons_of_mem _ hfield))
      (fun _ _ => rfl)
      fun _ _ hall => ⟨hall _ List.mem_cons_self,
        fun x hx => hall x (List.mem_cons_of_mem _ hx)⟩

/-- **A record that is read as itself** is read field by field. -/
theorem decodeRecord_self {r : RecordType}
    (hdistinct : (r.fields.map (·.name)).Nodup)
    (hdecode : ∀ t, Sound (·.ConformsFirst s t) (decode t t)) :
    decodeRecord limit s decode skip r r
      = do
        let fields ← decodeEach limit (fun t => decode t t) r.fields
        return .record fields := by
  have hfields : decodeFields limit decode skip r r.fields
      = do
        let fields ← decodeEach limit (fun t => decode t t) r.fields
        return positions 0 fields :=
    decodeFields_self fun index field hfield => by
      rw [Nat.zero_add]
      exact ⟨hfield, RecordType.receivingIndex?_self hdistinct hfield⟩
  rw [decodeRecord, hfields, bind_assoc]
  simp only [pure_bind]
  -- names are known of fields that were read, so this is said of each result
  funext levels input
  cases hr : decodeEach limit (fun t => decode t t) r.fields levels input with
  | error cause left =>
    rw [Decoding.bind_error hr, Decoding.bind_error hr]
  | ok fields left =>
    obtain ⟨hnames, -⟩ := (decodeEach_sound hdecode r.fields).of_eq_ok hr
    have hassembled : r.assembled? s (positions 0 fields) = some fields :=
      assembledFrom?_eq hnames fun index => lastReceived_positions 0 index _
    rw [Decoding.bind_ok hr, Decoding.bind_ok hr, hassembled]

/-- **A record is written again** if its fields are. -/
theorem decodeRecord_self_rewrites (hs : s.WellFormed) {name : FullName}
    {r : RecordType} (hd : s.definition? name = some (.record r))
    (hdecode : ∀ t, Sound (·.ConformsFirst s t) (decode t t))
    (hfields : ∀ field ∈ r.fields,
      s.Rewrites field.type (decode field.type field.type)) :
    s.Rewrites (.named name) (decodeRecord limit s decode skip r r) := by
  rw [decodeRecord_self (hs.distinct hd) hdecode]
  refine (@decodeEach_rewrites s limit (fun t => decode t t) r.fields
    hfields).map ?_ ?_
  · intro levels input left fields h
    obtain ⟨hnames, hparts⟩ := (decodeEach_sound hdecode r.fields).of_eq_ok h
    exact (Value.written_record hd hnames (hs.distinct hd)
      fun x hx => (hparts x hx).conforms.encodes hs).2
  · intro fields hcounts
    cases hcounts with
    | record hcounts => exact hcounts

end

/-! ## Types -/

section

variable {record : RecordType → RecordType → Decoding Value}

variable (s record) in
/-- What is meant for records. -/
def RewritesRecords : Prop :=
  ∀ name r, s.definition? name = some (.record r) →
    s.Rewrites (.named name) (record r r)

/-- A named type is written again. -/
theorem decodeNamed_self_rewrites (hfits : s.Fits)
    (hrewrites : RewritesRecords s record) (name : FullName) :
    s.Rewrites (.named name)
      (decodeNamed limit s s record name (.named name)) := by
  unfold decodeNamed
  rw [Schema.shape?_eq]
  cases hd : s.definition? name with
  | none => exact .rejected
  | some d =>
    cases d with
    | record r => exact (hrewrites name r hd).deeper
    | enum e =>
      exact EnumType.decode_self_rewrites (hfits.definition? hd) hd
    | fixed f => exact FixedType.decode_self_rewrites hd

/-- **Items are written again** in one block. -/
theorem decodeWith_array_rewrites (hs : s.WellFormed) {t : TypeExpr}
    (hsound : Sound (·.ConformsFirst s t) (decodeWith limit s s record t t))
    (h : s.Rewrites t (decodeWith limit s s record t t)) :
    s.Rewrites (.array t)
      (decodeWith limit s s record (.array t) (.array t)) := by
  rw [decodeWith, TypeExpr.select_leaf _ _ _ _ rfl]
  refine h.deeper.blocks.map ?_ ?_
  · intro levels input left items hitems
    have hall := hsound.deeper.blocks.of_eq_ok hitems
    exact (Value.written_array fun v hv =>
      (hall v hv).conforms.encodes hs).2
  · intro items hcounts
    cases hcounts with
    | array hcount hcounts => exact ⟨hcount, hcounts⟩

variable (limit) in
/-- Reads an entry: a key, and a value on a level below. -/
def decodeEntry (m : Decoding Value) : Decoding (String × Value) := do
  let key ← reading Wire.readString
  let v ← deeper limit m
  return (key, v)

theorem decodeEntry_sound {m : Decoding Value} {t : TypeExpr}
    (h : Sound (·.ConformsFirst s t) m) :
    Sound (fun x => x.2.ConformsFirst s t) (decodeEntry limit m) := by
  have hkey : Sound (fun _ => True) (reading Wire.readString) :=
    .reading fun _ _ _ _ => trivial
  exact hkey.bind fun key _ => h.deeper.bind fun v hv => .pure hv

theorem decodeEntry_rewrites {m : Decoding Value} {t : TypeExpr}
    (h : s.Rewrites t m) :
    (decodeEntry limit m).Rewrites (·.2.CountsFit)
      (Value.writtenEntry s t) := by
  have hkey : Rewrites (reading Wire.readString) (fun _ => True) Wire.string :=
    .reading Read.Rewrites.readString
  exact hkey.both h.deeper (fun _ _ => rfl) fun _ _ hv => ⟨trivial, hv⟩

/-- A map that is read as itself: entries that are read one by one, of which
the last ones of their keys are kept. -/
theorem decodeWith_map_self (t : TypeExpr) :
    decodeWith limit s s record (.map t) (.map t)
      = do
        let kept ← (do
          let pairs ← blocks limit
            (decodeEntry limit (decodeWith limit s s record t t))
          return Entries.ofList pairs)
        return .map kept := by
  rw [decodeWith, TypeExpr.select_leaf _ _ _ _ rfl]
  simp only [decodeEntry, bind_assoc, pure_bind]

/-- **Entries are written again** in one block. -/
theorem decodeWith_map_rewrites (hs : s.WellFormed) {t : TypeExpr}
    (hsound : Sound (·.ConformsFirst s t) (decodeWith limit s s record t t))
    (h : s.Rewrites t (decodeWith limit s s record t t)) :
    s.Rewrites (.map t)
      (decodeWith limit s s record (.map t) (.map t)) := by
  have hkept : Sound (fun kept => ∀ x ∈ kept, x.2.ConformsFirst s t) (do
      let pairs ← blocks limit
        (decodeEntry limit (decodeWith limit s s record t t))
      return Entries.ofList pairs) :=
    (decodeEntry_sound hsound).blocks.bind fun pairs hpairs =>
      .pure fun x hx => hpairs x (Entries.mem_of_mem_ofList hx)
  rw [decodeWith_map_self]
  refine (decodeEntry_rewrites h).entries.map ?_ ?_
  · intro levels input left kept hkeep
    have hall := hkept.of_eq_ok hkeep
    exact (Value.written_map fun x hx =>
      (hall x hx).conforms.encodes hs).2
  · intro kept hcounts
    cases hcounts with
    | map hcount hcounts => exact ⟨hcount, hcounts⟩

mutual

/-- **What is decoded as its own type is written again**, if it is for
records. -/
theorem decodeWith_self_rewrites (hs : s.WellFormed) (hfits : s.Fits)
    (hsound : SoundRecords s record) (hrewrites : RewritesRecords s record) :
    ∀ t : TypeExpr, t.PicksItself s → t.Fits →
      s.Rewrites t (decodeWith limit s s record t t)
  | .primitive p, _, _ => by
    rw [decodeWith, TypeExpr.select_leaf _ _ _ _ rfl]
    exact Primitive.decode_self_rewrites p
  | .array items, hp, ht =>
    decodeWith_array_rewrites hs (decodeWith_sound hsound items items)
      (decodeWith_self_rewrites hs hfits hsound hrewrites items hp ht)
  | .map values, hp, ht =>
    decodeWith_map_rewrites hs (decodeWith_sound hsound values values)
      (decodeWith_self_rewrites hs hfits hsound hrewrites values hp ht)
  | .named name, _, _ => by
    rw [decodeWith, TypeExpr.select_leaf _ _ _ _ rfl]
    exact decodeNamed_self_rewrites hfits hrewrites name
  | .union branches, hp, ht =>
    decodeWith_union_rewrites ht.1 hp.2.1 hs
      (fun branch => decodeWith_sound hsound branch branch)
      (decodeWith_branches_rewrites hs hfits hsound hrewrites branches hp.2.2
        ht.2)

theorem decodeWith_branches_rewrites (hs : s.WellFormed) (hfits : s.Fits)
    (hsound : SoundRecords s record) (hrewrites : RewritesRecords s record) :
    ∀ branches : List TypeExpr, TypeExpr.AllPickThemselves s branches →
      TypeExpr.AllFit branches → ∀ branch ∈ branches,
      s.Rewrites branch (decodeWith limit s s record branch branch)
  | [], _, _, _, h => absurd h List.not_mem_nil
  | first :: rest, hp, ht, branch, h => by
    rcases List.mem_cons.mp h with h | h
    · rw [h]
      exact decodeWith_self_rewrites hs hfits hsound hrewrites first hp.1 ht.1
    · exact decodeWith_branches_rewrites hs hfits hsound hrewrites rest hp.2
        ht.2 branch h

end

end

/-- **What is decoded as its own type is written again.** -/
theorem decode_self_rewrites (hs : s.WellFormed) (hp : s.PicksItself)
    (hfits : s.Fits) :
    ∀ (depth : Nat) (t : TypeExpr), t.PicksItself s → t.Fits →
      s.Rewrites t (decode limit s s depth t t)
  | 0, t, ht, htfits =>
    -- on the last level records are refused, and so none is to be written
    decodeWith_self_rewrites hs hfits (fun _ _ _ => .rejected)
      (fun _ _ _ => .rejected) t ht htfits
  | depth + 1, t, ht, htfits => by
    refine decodeWith_self_rewrites hs hfits (fun wd _ hrd =>
      decodeRecord_sound hs.ordered (decode_sound hs.ordered depth)
        (skip_sound depth) wd hrd) (fun name r hd => ?_) t ht htfits
    have hr : Definition.Fits (.record r) := hfits.definition? hd
    exact decodeRecord_self_rewrites hs hd
      (fun t => decode_sound hs.ordered depth t t) fun field hfield =>
        decode_self_rewrites hs hp hfits depth field.type
          (hp.field r (List.mem_of_find?_eq_some hd) field hfield)
          (hr.2 field hfield)

/-! ## Programs -/

/-- A run that succeeds gives what decoding gives. -/
theorem Program.Yields.decoded {p : Program} {maxDepth : Nat}
    {input left : Input} {start state : Builder} {v : Value}
    {r : EStateM.Result ExecutionCause Input Value}
    (hrun : p.Yields (Builder.sink s) maxDepth input start
      ⟨.ok (), left, state⟩) (hv : state.value? s = .ok v)
    (h : Decoding.Gives r
      (fun v left => ∃ state, p.Yields (Builder.sink s) maxDepth input start
        ⟨.ok (), left, state⟩ ∧ state.value? s = .ok v)
      (fun cause left => ∃ e state, e.cause = cause
        ∧ p.Yields (Builder.sink s) maxDepth input start
          ⟨.error e, left, state⟩)) : r = .ok v left := by
  cases r with
  | ok u behind =>
    obtain ⟨state', hyields, hu⟩ := h
    obtain ⟨-, rfl, rfl⟩ := Outcome.mk.inj (hrun.unique hyields)
    rw [Except.ok.inj (hu.symm.trans hv)]
  | error cause behind =>
    obtain ⟨e, state', -, hyields⟩ := h
    exact absurd (Outcome.mk.inj (hrun.unique hyields)).1 (by simp)

/-- **Decoding canonicalizes.** Whatever the program of a schema for itself
reads a value from, the encoder writes the value in no more bytes, and these
are read as the value again, under the same limit and with nothing of what
comes after them. -/
theorem Schema.PicksItself.run_canonicalizes
    (hs : ∃ source, Schema.parse source = .ok s) (hp : s.PicksItself)
    {p : Program} (hcompile : compile s s = .ok p) (hsfits : s.Fits)
    (hpfits : p.Fits) {maxDepth : Nat} {input left : Input} {state : Builder}
    (hrun : p.Yields (Builder.sink s) maxDepth input
      (Builder.fresh s s.root) ⟨.ok (), left, state⟩)
    {v : Value} (hv : state.value? s = .ok v) (hcounts : v.CountsFit) :
    (s.encode v).fault = none
      ∧ (s.encode v).bytes.length + left.rest.length ≤ input.rest.length
      ∧ ∀ rest : Input, ∃ again,
        p.Yields (Builder.sink s) maxDepth (rest.prepend (s.encode v).bytes)
            (Builder.fresh s s.root) ⟨.ok (), rest, again⟩
          ∧ again.value? s = .ok v := by
  have hwell : s.WellFormed := hs.elim fun _ => Schema.parse_wellFormed
  have hdelivers := compile_delivers (hp.encloses hwell)
    (Demand.namesTellApart_itself hwell) hcompile hpfits hsfits hsfits maxDepth
  have hrewrites : s.Rewrites s.root
      (decode maxDepth s s maxDepth s.root s.root) :=
    decode_self_rewrites hwell hp hsfits maxDepth s.root hp.root hsfits.root
  have hsound : Sound (·.ConformsFirst s s.root)
      (decode maxDepth s s maxDepth s.root s.root) :=
    decode_sound hwell.ordered maxDepth s.root s.root
  -- a run is decoding, both before the value is encoded and after it
  have hdecode := hrun.decoded hv (hdelivers input)
  obtain ⟨hlength, hback⟩ := hrewrites hdecode
  have hencodes : v.Encodes s s.root :=
    (hsound.of_eq_ok hdecode).conforms.encodes hwell
  refine ⟨congrArg Draft.fault hencodes, hlength, fun rest => ?_⟩
  have hagain : decode maxDepth s s maxDepth s.root s.root maxDepth
      (rest.prepend (s.encode v).bytes) = .ok v rest := hback hcounts rest
  have h := hdelivers (rest.prepend (s.encode v).bytes)
  rw [hagain] at h
  exact h

/-! ## Lists of numbers under keys

A map of arrays that no encoder would write: one key is there twice, the
numbers are padded, and blocks come with sizes or one item at a time. -/

namespace Lists

/-- The document of the schema. -/
def source : String :=
  "\x7b\"type\":\"map\",\"values\":" ++
    "\x7b\"type\":\"array\",\"items\":\"int\"\x7d\x7d"

/-- The schema. -/
def schema : Schema where
  root := .map (.array (.primitive .int))
  definitions := []
  source := source

theorem parse_source : Schema.parse source = .ok schema := by
  have hchars : source.toList = _ :=
    toList_append_eq String.toList_ofList String.toList_ofList
  rw [Schema.parse, Json.parse, hchars]
  cbv

theorem size_compile : (compile schema schema).map (fun p =>
    (p.instructions.size, p.errors.length)) = .ok (34, 0) := by cbv

/-- Two entries in a block with a size that is not its size; the array of the
first one has an item, and that of the second one has two, in two blocks. -/
def bytes : List UInt8 :=
  [131, 0, 0] ++ ([130, 0, 97] ++ [2, 132, 128, 0, 0])
    ++ ([2, 97] ++ ([2, 2] ++ [1, 6, 4] ++ [128, 0])) ++ [0]

/-- The value that is read from them. -/
def value : Value := .map [("a", .array [.int 1, .int 2])]

/-- Whether a run reads the value from them, in front of another byte. -/
def reads (p : Program) : Bool :=
  (p.run (Builder.sink schema) 4 300 (Input.ofBytes (bytes ++ [7]))
      (Builder.fresh schema schema.root)).any fun o =>
    o.result.toOption.isSome && decide (o.input = Input.ofBytes [7])
      && match o.state.value? schema with
        | .ok (.map [(key, .array [.int m, .int n])]) =>
          key == "a" && m == 1 && n == 2
        | _ => false

theorem reads_bytes : (compile schema schema).toOption.any reads = true := by
  decide +kernel

/-- The run that reads the value. -/
theorem exists_run_bytes : ∃ p state, compile schema schema = .ok p
    ∧ p.Fits
    ∧ p.Yields (Builder.sink schema) 4 (Input.ofBytes (bytes ++ [7]))
      (Builder.fresh schema schema.root) ⟨.ok (), Input.ofBytes [7], state⟩
    ∧ state.value? schema = .ok value := by
  obtain ⟨p, hp, hreads⟩ := (Option.any_eq_true _ _).mp reads_bytes
  obtain ⟨q, hq, hsize⟩ := exists_of_map_ok size_compile
  have hp := toOption_eq_some hp
  obtain rfl := Except.ok.inj (hp.symm.trans hq)
  obtain ⟨hsize, hmessages⟩ := Prod.mk.inj hsize
  obtain ⟨o, hrun, htests⟩ := (Option.any_eq_true _ _).mp hreads
  obtain ⟨ho, hvalue⟩ := Outcome.eq_of_tests htests
  rw [ho] at hrun
  refine ⟨p, o.state, hp, ⟨by omega, by omega⟩, .of_run hrun, ?_⟩
  split at hvalue
  · next key m n hread =>
    simp only [Bool.and_eq_true, beq_iff_eq] at hvalue
    obtain ⟨⟨rfl, rfl⟩, rfl⟩ := hvalue
    exact hread
  · exact absurd hvalue (by simp)

theorem picksItself : schema.PicksItself where
  root := trivial
  field := nofun

theorem fits : schema.Fits where
  root := trivial
  definition := nofun

theorem value_countsFit : value.CountsFit := by
  refine .map (by decide) fun x hx => ?_
  obtain rfl := List.mem_singleton.mp hx
  refine .array (by decide) fun v hv => ?_
  rcases List.mem_cons.mp hv with rfl | hv
  · exact .int 1
  · obtain rfl := List.mem_singleton.mp hv
    exact .int 2

end Lists

/-- The lists of numbers are written in fewer bytes, and read back. -/
theorem Schema.PicksItself.run_canonicalizes_lists : ∃ p state,
    compile Lists.schema Lists.schema = .ok p
    ∧ p.Yields (Builder.sink Lists.schema) 4
      (Input.ofBytes (Lists.bytes ++ [7]))
      (Builder.fresh Lists.schema Lists.schema.root)
      ⟨.ok (), Input.ofBytes [7], state⟩
    ∧ state.value? Lists.schema = .ok Lists.value
    ∧ (Lists.schema.encode Lists.value).fault = none
    ∧ (Lists.schema.encode Lists.value).bytes.length + 1
      ≤ (Lists.bytes ++ [7]).length
    ∧ ∀ rest : Input, ∃ again,
      p.Yields (Builder.sink Lists.schema) 4
          (rest.prepend (Lists.schema.encode Lists.value).bytes)
          (Builder.fresh Lists.schema Lists.schema.root)
          ⟨.ok (), rest, again⟩
        ∧ again.value? Lists.schema = .ok Lists.value := by
  obtain ⟨p, state, hp, hfits, hrun, hvalue⟩ := Lists.exists_run_bytes
  exact ⟨p, state, hp, hrun, hvalue,
    Schema.PicksItself.run_canonicalizes ⟨_, Lists.parse_source⟩
      Lists.picksItself hp Lists.fits hfits hrun hvalue
      Lists.value_countsFit⟩

/-- Twenty-one bytes become eight. -/
example : Lists.bytes.length = 21
    ∧ (Lists.schema.encode Lists.value).bytes = [2, 2, 97, 4, 2, 4, 0, 0] := by
  decide +kernel

end Avro
