import Avro.Proofs.Resolution.Scalars

/-!
# What is written is resolved

Decoding the bytes of a value as a type gives what the value resolves to
(`Value.Conforms.takes_decode`). On the left there is a recursion on types
that reads, on the right one on values that does not, and the bytes in between
are those of a third recursion, which wrote them.

The induction is on the value. It goes through every way in which the three
nest: the items and entries of blocks, the fields of a record, each taken from
the place where it was written to the place where it is received, and the
branches of unions on both sides.
-/

namespace Avro

open Decoding (Takes)

section

variable {writer reader : Schema}

/-- Reads a writer's record as a reader's record, with a depth of records. -/
def decodeRecordWithin (limit : Nat) (writer reader : Schema) :
    (depth : Nat) → RecordType → RecordType → Decoding Value
  | 0, _, _ => .rejected
  | depth + 1, wd, rd => decodeRecord limit reader
    (decode limit writer reader depth) (skip limit writer depth) wd rd

/-- What decoding does at every depth. -/
theorem decode_eq {limit : Nat} (depth : Nat) (w r : TypeExpr) :
    decode limit writer reader depth w r
      = decodeWith limit writer reader
        (decodeRecordWithin limit writer reader depth) w r := by
  cases depth <;> rfl

/-! ## Branches -/

/-- Beyond the tag there is no branch. -/
theorem decodeBranch_of_lt {limit : Nat}
    {record : RecordType → RecordType → Decoding Value} {message : String}
    {n : Nat} {r : TypeExpr} :
    ∀ {branches : List TypeExpr} {tag : Nat}, n < tag →
      tag + branches.length ≤ 0x8000000000000000 →
      decodeBranch limit writer reader record message (Int64.ofNat n) tag
        branches r = .stop message
  | [], _, _, _ => by rw [decodeBranch]
  | branch :: rest, tag, hlt, hcount => by
    have hbound : tag + rest.length + 1 ≤ 0x8000000000000000 := hcount
    have hrest := @decodeBranch_of_lt limit record message n r rest (tag + 1)
      (by omega) (by omega)
    have hne : Int64.ofNat n ≠ Int64.ofNat tag :=
      Int64.ofNat_ne_of_lt hlt (by omega)
    rw [decodeBranch_of_ne hne, hrest]

/-- What receives a branch if it is no union. -/
theorem receiver?_of_not_union {branch r : TypeExpr}
    (hr : r.isUnion = false) :
    receiver? writer reader branch r
      = if writer.readable branch reader r then some (r, id) else none := by
  cases r with
  | union readers => exact absurd hr (by simp [TypeExpr.isUnion])
  | primitive p => rw [receiver?]; simp
  | array items => rw [receiver?]; simp
  | map values => rw [receiver?]; simp
  | named name => rw [receiver?]; simp

section

variable {record : (limit depth : Nat) → RecordType → RecordType →
    Decoding Value} {message : String} {e : ResolutionError}
  {bytes : List UInt8} {result : TypeExpr → Resolved Value}

/-- The branch in front is resolved as what receives it. -/
theorem takes_decodeBranch_cons (hcause : e.cause = .halt message)
    {branch : TypeExpr} (rest : List TypeExpr) {tag : Nat}
    (hcount : tag + rest.length < 0x8000000000000000)
    (h : ∀ r', Takes (fun limit depth => decodeWith limit writer reader
      (record limit depth) branch r') bytes (result r')) (r : TypeExpr) :
    Takes (fun limit depth => decodeBranch limit writer reader
        (record limit depth) message (Int64.ofNat tag) tag (branch :: rest) r)
      bytes
      (match receiver? writer reader branch r with
        | none => .error e
        | some (r', wrap) => (result r').map wrap) := by
  have hrest : ∀ limit depth, decodeBranch limit writer reader
      (record limit depth) message (Int64.ofNat tag) (tag + 1) rest r
      = .stop message := fun limit depth =>
    decodeBranch_of_lt (Nat.lt_succ_self tag) (by omega)
  cases hunion : r.isUnion with
  | false =>
    rw [receiver?_of_not_union hunion]
    by_cases hreadable : writer.readable branch reader r = true
    · rw [if_pos hreadable]
      have hid : (result r).map id = result r := by cases result r <;> rfl
      refine Takes.congr ?_ fun limit depth => by
        rw [decodeBranch_cons hunion, if_pos hreadable, if_pos rfl]
      show Takes _ _ ((result r).map id)
      rw [hid]
      exact h r
    · rw [if_neg hreadable]
      refine Takes.congr (Takes.stop hcause _) fun limit depth => ?_
      rw [decodeBranch_cons hunion, if_neg hreadable, hrest]
  | true =>
    obtain ⟨readers, rfl⟩ := TypeExpr.isUnion_iff.mp hunion
    cases hbranch : writer.branchFor? branch reader readers with
    | none =>
      have hreceiver : receiver? writer reader branch (.union readers)
          = none := by
        simp only [receiver?, hbranch, Option.bind_eq_bind, Option.bind_none]
      rw [hreceiver]
      refine Takes.congr (Takes.stop hcause _) fun limit depth => ?_
      rw [decodeBranch, hbranch]
      exact hrest limit depth
    | some index =>
      cases hr : readers[index]? with
      | none =>
        have hreceiver : receiver? writer reader branch (.union readers)
            = none := by
          simp only [receiver?, hbranch, Option.bind_eq_bind,
            Option.bind_some, hr, Option.bind_none]
        rw [hreceiver]
        refine Takes.congr (Takes.stop hcause _) fun limit depth => ?_
        rw [decodeBranch, hbranch]
        simp only [hr]
        exact hrest limit depth
      | some r' =>
        have hreceiver : receiver? writer reader branch (.union readers)
            = some (r', .union index) := by
          simp only [receiver?, hbranch, Option.bind_eq_bind,
            Option.bind_some, hr]
          rfl
        rw [hreceiver]
        refine (((h r').entered r').map (Value.union index)).congr
          fun limit depth => ?_
        rw [decodeBranch, hbranch]
        simp only [hr, if_true]

/-- **The branch of the number** is resolved as what receives it. -/
theorem takes_decodeBranch (hcause : e.cause = .halt message) (r : TypeExpr)
    {branch : TypeExpr}
    (h : ∀ r', Takes (fun limit depth => decodeWith limit writer reader
      (record limit depth) branch r') bytes (result r')) :
    ∀ {branches : List TypeExpr} {tag index : Nat},
      branches[index]? = some branch →
      tag + branches.length ≤ 0x8000000000000000 →
      Takes (fun limit depth => decodeBranch limit writer reader
          (record limit depth) message (Int64.ofNat (tag + index)) tag branches
          r) bytes
        (match receiver? writer reader branch r with
          | none => .error e
          | some (r', wrap) => (result r').map wrap)
  | [], _, _, hbranch, _ => absurd hbranch (by simp)
  | _ :: rest, tag, 0, hbranch, hcount => by
    obtain rfl := Option.some.inj hbranch
    exact takes_decodeBranch_cons hcause rest hcount h r
  | first :: rest, tag, index + 1, hbranch, hcount => by
    have hbound : tag + rest.length + 1 ≤ 0x8000000000000000 := hcount
    have hlt : index < rest.length :=
      Nat.lt_of_succ_lt_succ (List.getElem?_eq_some_iff.mp hbranch).1
    have hne : Int64.ofNat (tag + (index + 1)) ≠ Int64.ofNat tag :=
      (Int64.ofNat_ne_of_lt (by omega) (by omega)).symm
    have hrest := @takes_decodeBranch hcause r branch h rest (tag + 1) index
      hbranch (by omega)
    refine hrest.congr fun limit depth => ?_
    rw [Nat.add_right_comm, decodeBranch_of_ne hne, Nat.add_assoc]

end

/-! ## Parts -/

/-- Items are resolved one by one. -/
theorem resolveItems_eq (w r : TypeExpr) : ∀ items : List Value,
    resolveItems writer reader items w r
      = items.mapM fun v => resolve writer reader v w r
  | [] => by rw [resolveItems]; rfl
  | v :: rest => by
    rw [resolveItems, resolveItems_eq w r rest, List.mapM_cons]

/-- Resolves an entry under its key. -/
def resolveEntry (writer reader : Schema) (w r : TypeExpr)
    (x : String × Value) : Resolved (String × Value) := do
  let v ← resolve writer reader x.2 w r
  return (x.1, v)

/-- Entries are resolved one by one. -/
theorem resolveEntries_eq (w r : TypeExpr) :
    ∀ entries : List (String × Value),
      resolveEntries writer reader entries w r
        = entries.mapM (resolveEntry writer reader w r)
  | [] => by rw [resolveEntries]; rfl
  | (key, v) :: rest => by
    rw [resolveEntries, resolveEntries_eq w r rest, List.mapM_cons,
      resolveEntry, bind_assoc]
    simp only [pure_bind]

/-- Resolving entries keeps their keys. -/
theorem resolveEntries_keys {w r : TypeExpr} :
    ∀ {entries resolved : List (String × Value)},
      resolveEntries writer reader entries w r = .ok resolved →
      resolved.map (·.1) = entries.map (·.1)
  | [], resolved, h => by
    rw [resolveEntries] at h
    rw [← Except.ok.inj h]
  | (key, v) :: rest, resolved, h => by
    rw [resolveEntries] at h
    cases hv : resolve writer reader v w r with
    | error e => rw [hv] at h; exact absurd h (by simp [bind, Except.bind])
    | ok v' =>
      cases hrest : resolveEntries writer reader rest w r with
      | error e =>
        rw [hv, hrest] at h
        exact absurd h (by simp [bind, Except.bind])
      | ok others =>
        rw [hv, hrest] at h
        rw [← Except.ok.inj h, List.map_cons, resolveEntries_keys hrest,
          List.map_cons]

/-- **Fields take the bytes of all that was written**, and what is received is
resolved. -/
theorem takes_decodeFields (rd : RecordType) :
    ∀ {fields : List (String × Value)} {definitions : List Field},
      fields.length = definitions.length →
      (∀ x ∈ fields.zip definitions, Takes
        (fun limit depth => skip limit writer depth x.2.type)
        (x.1.2.written writer x.2.type) (.ok ())) →
      (∀ x ∈ fields.zip definitions, ∀ r, Takes
        (fun limit depth => decode limit writer reader depth x.2.type r)
        (x.1.2.written writer x.2.type)
        (resolve writer reader x.1.2 x.2.type r)) →
      Takes (fun limit depth => decodeFields limit
          (decode limit writer reader depth) (skip limit writer depth) rd
          definitions)
        ((fields.zip definitions).flatMap (Value.writtenField writer))
        (resolveFields writer reader fields definitions rd)
  | [], [], _, _, _ => by
    simp only [resolveFields]
    exact .pure []
  | [], _ :: _, h, _, _ => absurd h (by simp)
  | _ :: _, [], h, _, _ => absurd h (by simp)
  | (name, v) :: rest, definition :: others, hlength, hskip, hdecode => by
    have hfirst : ((name, v), definition)
        ∈ ((name, v) :: rest).zip (definition :: others) := List.mem_cons_self
    have ih := takes_decodeFields rd (Nat.succ.inj hlength)
      (fun x hx => hskip x (List.mem_cons_of_mem _ hx))
      (fun x hx => hdecode x (List.mem_cons_of_mem _ hx))
    rw [List.zip_cons_cons, List.flatMap_cons]
    cases hindex : rd.receivingIndex? definition.name with
    | none =>
      simp only [resolveFields, decodeFields, hindex]
      exact (hskip _ hfirst).bind fun _ _ => ih
    | some index =>
      have hlt := RecordType.receivingIndex?_lt hindex
      simp only [resolveFields, decodeFields, hindex,
        List.getElem?_eq_getElem hlt]
      refine ((hdecode _ hfirst _).entered _).bind fun v' _ => ?_
      have h := ih.bind (f := fun received _ _ => pure ((index, v') :: received))
        fun received _ => Takes.pure ((index, v') :: received)
      rw [List.append_nil] at h
      exact h

/-! ## Types without parts -/

/-- Primitives take the bytes that were written. -/
theorem takes_promote {v : Value} {p : Primitive}
    (hv : v.Conforms writer (.primitive p)) (hfits : v.Fits) (q : Primitive) :
    Takes (fun _ _ => p.decode q) (v.written writer (.primitive p))
      (v.promote q) := by
  cases hv with
  | null => exact takes_null q
  | boolean b => exact takes_boolean b q
  | int n => exact takes_int n q
  | long n => exact takes_long n q
  | float x => exact takes_float x q
  | double x => exact takes_double x q
  | bytes b =>
    cases hfits with
    | bytes hlength => exact takes_bytes hlength q
  | string x =>
    cases hfits with
    | string hlength => exact takes_string hlength q

/-- A value of a primitive type has no parts. -/
theorem resolve_primitive {v : Value} {p : Primitive}
    (hv : v.Conforms writer (.primitive p)) (r : TypeExpr) :
    resolve writer reader v (.primitive p) r
      = selecting writer reader (.primitive p) r
        (resolveScalar writer reader v (.primitive p)) := by
  cases hv <;> rfl

/-- A primitive is promoted as what it is read as. -/
theorem takes_primitive {v : Value} {p : Primitive}
    (hv : v.Conforms writer (.primitive p)) (hfits : v.Fits) (r : TypeExpr) :
    Takes (fun limit depth => decode limit writer reader depth (.primitive p) r)
      (v.written writer (.primitive p))
      (resolve writer reader v (.primitive p) r) := by
  rw [resolve_primitive hv]
  refine Takes.congr (Decoding.takes_select (fun t _ => ?_) r)
    fun limit depth => by rw [decode_eq, decodeWith]
  cases t with
  | primitive q => exact takes_promote hv hfits q
  | array items => exact .rejected _
  | map values => exact .rejected _
  | union branches => exact .rejected _
  | named name =>
    have hmismatch : resolveScalar writer reader v (.primitive p) (.named name)
        = .error .mismatch := by
      unfold resolveScalar
      simp only [Schema.shape?]
    rw [hmismatch]
    exact .rejected _

/-- A symbol is that of the reader's enum, if there is an enum. -/
theorem takes_enum {name : FullName} {e : EnumType} {index : Nat}
    {symbol : String} (hd : writer.definition? name = some (.enum e))
    (hsymbol : e.symbols[index]? = some symbol) (hlt : index < 0x80000000)
    (hcount : Countable e.symbols) (r : TypeExpr) :
    Takes (fun limit depth => decode limit writer reader depth (.named name) r)
      ((Value.enum index symbol).written writer (.named name))
      (resolve writer reader (.enum index symbol) (.named name) r) := by
  obtain ⟨position, hle, hfirst⟩ := EnumType.exists_symbolIndex? hsymbol
  have hshape : writer.shape? (.named name) = some (.enum e) := by
    rw [Schema.shape?_eq, hd]
    rfl
  rw [(Value.written_enum hd hfirst).2, resolve_enum]
  refine Takes.congr (Decoding.takes_select (fun t _ => ?_) r)
    fun limit depth => by rw [decode_eq, decodeWith]
  unfold decodeNamed resolveScalar
  simp only [hshape]
  cases reader.shape? t with
  | none => exact .rejected _
  | some shape =>
    cases shape with
    | enum e' =>
      exact EnumType.takes_decode hfirst (Nat.lt_of_le_of_lt hle hlt) hcount
    | _ => exact .rejected _

/-- A fixed value is taken as it is, if the reader's size is the same. -/
theorem takes_fixed {name : FullName} {f : FixedType} {b : List UInt8}
    (hd : writer.definition? name = some (.fixed f)) (hsize : b.length = f.size)
    (r : TypeExpr) :
    Takes (fun limit depth => decode limit writer reader depth (.named name) r)
      ((Value.fixed b).written writer (.named name))
      (resolve writer reader (.fixed b) (.named name) r) := by
  have hshape : writer.shape? (.named name) = some (.fixed f) := by
    rw [Schema.shape?_eq, hd]
    rfl
  rw [(Value.written_fixed hd hsize).2, resolve_fixed]
  refine Takes.congr (Decoding.takes_select (fun t _ => ?_) r)
    fun limit depth => by rw [decode_eq, decodeWith]
  unfold decodeNamed resolveScalar
  simp only [hshape]
  cases reader.shape? t with
  | none => exact .rejected _
  | some shape =>
    cases shape with
    | fixed f' =>
      by_cases hsame : f.size = f'.size
      · simp only [FixedType.decode, if_pos hsame]
        exact .reading (hsize ▸ (Wire.take_prepend b).map Value.fixed)
      · simp only [FixedType.decode, if_neg hsame]
        exact .rejected _
    | _ => exact .rejected _

/-! ## Types with parts -/

/-- Items are taken one by one. -/
theorem takes_array {items : List Value} {w : TypeExpr}
    (hcount : Countable items) (hencodes : ∀ v ∈ items, v.Encodes writer w)
    (ih : ∀ v ∈ items, ∀ r, Takes
      (fun limit depth => decode limit writer reader depth w r)
      (v.written writer w) (resolve writer reader v w r)) (r : TypeExpr) :
    Takes (fun limit depth => decode limit writer reader depth (.array w) r)
      ((Value.array items).written writer (.array w))
      (resolve writer reader (.array items) (.array w) r) := by
  rw [(Value.written_array hencodes).2, resolve_array]
  refine Takes.congr (Decoding.takes_select (fun t _ => ?_) r)
    fun limit depth => by rw [decode_eq, decodeWith]
  cases t with
  | array w' =>
    show Takes _ _ ((resolveItems writer reader items w w').map Value.array)
    rw [resolveItems_eq]
    refine Takes.congr ((Takes.blocks hcount fun v hv =>
      (ih v hv w').deeper).map Value.array) fun limit depth => ?_
    simp only [decode_eq]
  | _ => exact .rejected _

/-- Entries are taken one by one, and stay sorted. -/
theorem takes_map {entries : List (String × Value)} {w : TypeExpr}
    (hsorted : Entries.Sorted entries) (hcount : Countable entries)
    (hkeys : ∀ x ∈ entries, Countable (utf8 x.1))
    (hencodes : ∀ x ∈ entries, x.2.Encodes writer w)
    (ih : ∀ x ∈ entries, ∀ r, Takes
      (fun limit depth => decode limit writer reader depth w r)
      (x.2.written writer w) (resolve writer reader x.2 w r)) (r : TypeExpr) :
    Takes (fun limit depth => decode limit writer reader depth (.map w) r)
      ((Value.map entries).written writer (.map w))
      (resolve writer reader (.map entries) (.map w) r) := by
  rw [(Value.written_map hencodes).2, resolve_map]
  refine Takes.congr (Decoding.takes_select (fun t _ => ?_) r)
    fun limit depth => by rw [decode_eq, decodeWith]
  cases t with
  | map w' =>
    have hentry : ∀ x ∈ entries, Takes (fun limit depth => do
          let key ← Decoding.reading Wire.readString
          let v ← Decoding.deeper limit
            (decode limit writer reader depth w w')
          return (key, v)) (Value.writtenEntry writer w x)
        (resolveEntry writer reader w w' x) := fun x hx => by
      refine (Takes.reading (Wire.readString_string (hkeys x hx))).bind
        (g := fun key => (resolve writer reader x.2 w w').map
          fun v => (key, v)) fun key _ => ?_
      exact (ih x hx w').deeper.map fun v => (key, v)
    have hblocks := (Takes.blocks hcount hentry).map
      fun pairs => Value.map (Entries.ofList pairs)
    rw [← resolveEntries_eq] at hblocks
    have hresult : (resolveEntries writer reader entries w w').map
          (fun pairs => Value.map (Entries.ofList pairs))
        = (resolveEntries writer reader entries w w').map Value.map := by
      cases hr : resolveEntries writer reader entries w w' with
      | error e => rfl
      | ok pairs =>
        have hpairs : Entries.Sorted pairs := by
          unfold Entries.Sorted
          rw [resolveEntries_keys hr]
          exact hsorted
        show Except.ok (Value.map (Entries.ofList pairs)) = _
        rw [Entries.ofList_eq hpairs]
        rfl
    rw [hresult] at hblocks
    refine hblocks.congr fun limit depth => ?_
    simp only [decode_eq]
  | _ => exact .rejected _

/-- The written branch is taken as what receives it. -/
theorem takes_union {branches : List TypeExpr} {branch : TypeExpr}
    {index : Nat} {v : Value} (hbranch : branches[index]? = some branch)
    (hcount : Countable branches) (hencodes : v.Encodes writer branch)
    (ih : ∀ r, Takes
      (fun limit depth => decode limit writer reader depth branch r)
      (v.written writer branch) (resolve writer reader v branch r))
    (r : TypeExpr) :
    Takes (fun limit depth =>
        decode limit writer reader depth (.union branches) r)
      ((Value.union index v).written writer (.union branches))
      (resolve writer reader (.union index v) (.union branches) r) := by
  have hlt : index < 0x8000000000000000 :=
    Nat.lt_trans (List.getElem?_eq_some_iff.mp hbranch).1 hcount
  have htag := Takes.reading (Wire.readLong_natCast hlt)
  have hchosen := @takes_decodeBranch writer reader
    (fun limit depth => decodeRecordWithin limit writer reader depth)
    s!"written branch of `{(TypeExpr.union branches).text}` cannot be read as `{r.text}`"
    (.unreadableBranch (.union branches) r) (v.written writer branch)
    (resolve writer reader v branch) rfl r branch
    (fun r' => (ih r').congr fun limit depth => (decode_eq depth _ _).symm)
    branches 0 index hbranch (by rw [Nat.zero_add]; exact Nat.le_of_lt hcount)
  rw [(Value.written_union hbranch hencodes).2, resolve_union hbranch]
  rw [Nat.zero_add] at hchosen
  refine (htag.bind (f := fun n limit depth =>
    decodeBranch limit writer reader
      (decodeRecordWithin limit writer reader depth)
      s!"written branch of `{(TypeExpr.union branches).text}` cannot be read as `{r.text}`"
      n 0 branches r) (g := fun _ => _)
    fun _ h => Except.ok.inj h ▸ hchosen).congr fun limit depth => ?_
  rw [decode_eq, decodeWith]

/-- The fields of a record are taken, and the reader's record is put together
from what is received. -/
theorem takes_record {name : FullName} {wd : RecordType}
    {fields : List (String × Value)}
    (hd : writer.definition? name = some (.record wd))
    (hnames : fields.map (·.1) = wd.fields.map (·.name))
    (hdistinct : (wd.fields.map (·.name)).Nodup)
    (hencodes : ∀ x ∈ fields.zip wd.fields, x.1.2.Encodes writer x.2.type)
    (hskip : ∀ x ∈ fields.zip wd.fields, Takes
      (fun limit depth => skip limit writer depth x.2.type)
      (x.1.2.written writer x.2.type) (.ok ()))
    (ih : ∀ x ∈ fields.zip wd.fields, ∀ r, Takes
      (fun limit depth => decode limit writer reader depth x.2.type r)
      (x.1.2.written writer x.2.type)
      (resolve writer reader x.1.2 x.2.type r)) (r : TypeExpr) :
    Takes (fun limit depth => decode limit writer reader depth (.named name) r)
      ((Value.record fields).written writer (.named name))
      (resolve writer reader (.record fields) (.named name) r) := by
  have hshape : writer.shape? (.named name) = some (.record wd) := by
    rw [Schema.shape?_eq, hd]
    rfl
  have hlength : fields.length = wd.fields.length := by
    rw [← List.length_map (·.1), hnames, List.length_map]
  rw [(Value.written_record hd hnames hdistinct hencodes).2, resolve_record]
  refine Takes.congr (Decoding.takes_select (fun t _ => ?_) r)
    fun limit depth => by rw [decode_eq, decodeWith]
  unfold decodeNamed
  simp only [hshape]
  cases reader.shape? t with
  | none => exact .rejected _
  | some shape =>
    cases shape with
    | record rd =>
      have hfields := takes_decodeFields rd hlength hskip ih
      refine (Takes.descend (f := fun limit depth =>
        decodeRecordWithin limit writer reader depth wd rd) ?_
        fun _ _ => rfl).deeper
      rw [← List.append_nil (List.flatMap _ _)]
      refine hfields.bind fun received _ => ?_
      cases rd.assembled? reader received with
      | none => exact .rejected _
      | some values => exact .pure (Value.record values)
    | _ => exact .rejected _

/-! ## Values -/

/-- **Decoding takes the bytes of every value of the type** and gives what it
resolves to. -/
theorem Value.Conforms.takes_decode (hs : writer.WellFormed)
    (hwriter : writer.Fits) {v : Value} {w : TypeExpr}
    (hv : v.Conforms writer w) : v.Fits → w.Fits → ∀ r : TypeExpr,
    Takes (fun limit depth => decode limit writer reader depth w r)
      (v.written writer w) (resolve writer reader v w r) := by
  induction hv with
  | null => exact fun hfits _ => takes_primitive .null hfits
  | boolean b => exact fun hfits _ => takes_primitive (.boolean b) hfits
  | int n => exact fun hfits _ => takes_primitive (.int n) hfits
  | long n => exact fun hfits _ => takes_primitive (.long n) hfits
  | float x => exact fun hfits _ => takes_primitive (.float x) hfits
  | double x => exact fun hfits _ => takes_primitive (.double x) hfits
  | bytes b => exact fun hfits _ => takes_primitive (.bytes b) hfits
  | string x => exact fun hfits _ => takes_primitive (.string x) hfits
  | enum hd hsymbol =>
    intro hfits _
    cases hfits with
    | enum _ hlt => exact takes_enum hd hsymbol hlt (hwriter.definition? hd)
  | fixed hd hsize => exact fun _ _ => takes_fixed hd hsize
  | @record name r fields hd hnames hparts ih =>
    intro hfits _
    cases hfits with
    | record hfields =>
      have hdefinition : Definition.Fits (.record r) := hwriter.definition? hd
      have hin : ∀ x ∈ fields.zip r.fields, x.1.2.Fits := fun x hx =>
        hfields x.1 (List.of_mem_zip hx).1
      have hout : ∀ x ∈ fields.zip r.fields, x.2.type.Fits := fun x hx =>
        hdefinition.2 x.2 (List.of_mem_zip hx).2
      exact takes_record hd hnames (hs.distinct hd)
        (fun x hx => Value.Conforms.encodes hs (hparts x hx))
        (fun x hx => Value.Conforms.takes_skip hs hwriter (hparts x hx)
          (hin x hx) (hout x hx))
        (fun x hx => ih x hx (hin x hx) (hout x hx))
  | array hparts ih =>
    intro hfits hw
    cases hfits with
    | array hcount hitems =>
      exact takes_array hcount
        (fun v hv => Value.Conforms.encodes hs (hparts v hv))
        (fun v hv => ih v hv (hitems v hv) hw)
  | map hsorted hparts ih =>
    intro hfits hw
    cases hfits with
    | map hcount hkeys hentries =>
      exact takes_map hsorted hcount hkeys
        (fun x hx => Value.Conforms.encodes hs (hparts x hx))
        (fun x hx => ih x hx (hentries x hx) hw)
  | union hbranch hpart ih =>
    intro hfits hw
    cases hfits with
    | union hfits =>
      exact takes_union hbranch hw.1 (Value.Conforms.encodes hs hpart)
        (ih hfits (hw.2.getElem? hbranch))

end

end Avro
