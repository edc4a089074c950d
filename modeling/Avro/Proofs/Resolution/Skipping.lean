import Avro.Proofs.Resolution.Taking
import Avro.Proofs.Value.Encoding

/-!
# What is written is skipped

Data of a type are bytes in which the type is found again: the data of its
parts one after another, a number in front of what is in a union, and items in
blocks (`Schema.Data`). Dropping a type takes data of it
(`Schema.Data.takes_skip`).

The bytes of a value are data of its type (`Value.Conforms.data`), so the
fields that a reader does not have leave no trace
(`Value.Conforms.takes_skip`). There are more data than values: items may be
cut into blocks in any way, numbers may have more digits than they need, and
what should be text need not be.
-/

namespace Avro

/-- Numbers of branches and symbols are told apart by their 64-bit
integers. -/
theorem Int64.ofNat_ne_of_lt {m n : Nat} (h : m < n)
    (hn : n < 0x8000000000000000) : Int64.ofNat m ≠ Int64.ofNat n := by
  intro heq
  have hm : (Int64.ofNat m).toInt = m :=
    Int64.toInt_ofNat_of_lt (Nat.lt_trans h hn)
  have hn : (Int64.ofNat n).toInt = n := Int64.toInt_ofNat_of_lt hn
  rw [heq, hn] at hm
  exact absurd (Int.ofNat.inj hm) (Nat.ne_of_gt h)

open Decoding (Takes)

section

variable {limit : Nat} {writer : Schema}

variable (limit writer) in
/-- Drops the fields of a record, with a depth of records. -/
def skipRecord : (depth : Nat) → RecordType → Decoding Unit
  | 0, _ => .rejected
  | depth + 1, r => skipFields (skip limit writer depth) r.fields

/-- What skipping does at every depth. -/
theorem skip_eq (depth : Nat) (t : TypeExpr) :
    skip limit writer depth t
      = skipWith limit writer (skipRecord limit writer depth) t := by
  cases depth <;> rfl

/-- **The branch of the number** is skipped. -/
theorem skipBranch_getElem? {record : RecordType → Decoding Unit}
    {message : String} :
    ∀ {branches : List TypeExpr} {tag index : Nat} {branch : TypeExpr},
      branches[index]? = some branch → tag + index < 0x8000000000000000 →
      skipBranch limit writer record message (Int64.ofNat (tag + index)) tag
        branches = skipWith limit writer record branch
  | [], _, _, _, h, _ => absurd h (by simp)
  | _ :: _, tag, 0, _, h, _ => by
    rw [skipBranch, Nat.add_zero, if_pos rfl, ← Option.some.inj h]
  | _ :: _, tag, index + 1, _, h, hlt => by
    have hne : Int64.ofNat (tag + (index + 1)) ≠ Int64.ofNat tag :=
      (Int64.ofNat_ne_of_lt (by omega) hlt).symm
    rw [skipBranch, if_neg hne, ← Nat.add_assoc, Nat.add_right_comm]
    exact skipBranch_getElem? h (by omega)

end

variable {writer : Schema}

/-- Dropping what was read takes its bytes. -/
theorem Kind.takes_skip {kind : Kind} {bytes : List UInt8} {v : Value}
    (h : Reads kind.readValue bytes v) :
    Takes (fun _ _ => kind.skip) bytes (.ok ()) :=
  (Takes.reading h).map fun _ => ()

/-- What is written as a primitive is read as the kind that is dropped. -/
theorem reads_dropped {v : Value} {p : Primitive}
    (hv : v.Conforms writer (.primitive p)) (hfits : v.Fits) :
    ∃ v', Reads p.dropped.readValue (v.written writer (.primitive p)) v' := by
  cases hv with
  | null => exact ⟨.null, fun _ => rfl⟩
  | boolean b => exact ⟨.boolean b, (Wire.readBoolean_boolean b).map _⟩
  | int n => exact ⟨.int n, (Wire.readInt_integer n).map _⟩
  | long n => exact ⟨.long n, (Wire.readLong_integer n).map _⟩
  | float x => exact ⟨.float x, (Wire.readFloat_toBytes x).map _⟩
  | double x => exact ⟨.double x, (Wire.readDouble_toBytes x).map _⟩
  | bytes b =>
    cases hfits with
    | bytes hlength => exact ⟨.bytes b, (Wire.readBytes_bytes hlength).map _⟩
  | string x =>
    cases hfits with
    | string hlength =>
      exact ⟨.bytes (utf8 x), (Wire.readBytes_bytes hlength).map _⟩

/-- Blocks are dropped. -/
theorem takes_dropped {α : Type} {m : (limit depth : Nat) → Decoding (List Unit)}
    {bytes : List UInt8} {items : List α}
    (h : Takes m bytes (items.mapM fun _ => .ok ())) :
    Takes (fun limit depth => do let _ ← m limit depth) bytes (.ok ()) := by
  have hall : (items.mapM fun _ => (.ok () : Resolved Unit))
      = .ok (items.map fun _ => ()) := List.mapM_pure
  rw [hall] at h
  exact h.map fun _ => ()

/-- Fields are dropped one after another. -/
theorem takes_skipFields :
    ∀ {parts : List (Field × List UInt8)},
      (∀ x ∈ parts, Takes
        (fun limit depth => skip limit writer depth x.1.type) x.2 (.ok ())) →
      Takes (fun limit depth =>
          skipFields (skip limit writer depth) (parts.map (·.1)))
        (parts.flatMap (·.2)) (.ok ())
  | [], _ => .pure ()
  | x :: rest, h => by
    rw [List.flatMap_cons]
    exact (h x List.mem_cons_self).bind fun _ _ =>
      takes_skipFields fun y hy => h y (List.mem_cons_of_mem _ hy)

/-! ## Data -/

/-- **Data of a type.** -/
inductive Schema.Data (s : Schema) : TypeExpr → List UInt8 → Prop
  /-- What is read as a primitive type. -/
  | primitive {p : Primitive} {bytes : List UInt8} {v : Value} :
    Reads p.dropped.readValue bytes v → Data s (.primitive p) bytes
  /-- The number of a symbol, which need not be declared. -/
  | enum {name : FullName} {e : EnumType} {bytes : List UInt8} {n : Int32} :
    s.definition? name = some (.enum e) → Reads Wire.readInt bytes n →
    Data s (.named name) bytes
  /-- As many bytes as are declared. -/
  | fixed {name : FullName} {f : FixedType} {bytes : List UInt8} :
    s.definition? name = some (.fixed f) → bytes.length = f.size →
    Data s (.named name) bytes
  /-- The data of the fields, in the order of the record. -/
  | record {name : FullName} {r : RecordType}
    {parts : List (Field × List UInt8)} :
    s.definition? name = some (.record r) → parts.map (·.1) = r.fields →
    (∀ x ∈ parts, Data s x.1.type x.2) →
    Data s (.named name) (parts.flatMap (·.2))
  /-- The number of a branch, and data of the branch. -/
  | union {branches : List TypeExpr} {branch : TypeExpr} {index : Nat}
    {n : Int64} {tag bytes : List UInt8} : Reads Wire.readLong tag n →
    n.toInt = index → branches[index]? = some branch →
    Data s branch bytes → Data s (.union branches) (tag ++ bytes)
  /-- Items in chunks. -/
  | array {t : TypeExpr} {parts : List (List UInt8)} {bytes : List UInt8} :
    Wire.Chunked parts bytes → (∀ part ∈ parts, Data s t part) →
    Data s (.array t) bytes
  /-- Entries in chunks, each of a key and data. -/
  | map {t : TypeExpr} {entries : List (List UInt8 × List UInt8)}
    {bytes : List UInt8} :
    Wire.Chunked (entries.map fun x => x.1 ++ x.2) bytes →
    (∀ x ∈ entries, ∃ key, Reads Wire.readBytes x.1 key) →
    (∀ x ∈ entries, Data s t x.2) → Data s (.map t) bytes

/-- **Skipping a type takes data of it.** -/
theorem Schema.Data.takes_skip {t : TypeExpr} {bytes : List UInt8}
    (h : writer.Data t bytes) :
    Takes (fun limit depth => skip limit writer depth t) bytes (.ok ()) := by
  induction h with
  | @primitive p bytes v hread =>
    refine Takes.congr ?_ fun limit depth => by rw [skip_eq, skipWith]
    unfold Primitive.skip
    split
    · rename_i hnull
      subst hnull
      have hnone : bytes = [] := List.append_cancel_right
        (congrArg Input.rest (EStateM.Result.ok.inj (hread (.ofBytes []))).2)
      rw [hnone]
      exact .pure ()
    · exact Kind.takes_skip hread
  | enum hd hread =>
    have hread : Reads Kind.int.readValue _ _ := hread.map Value.int
    refine (Kind.takes_skip hread).congr fun limit depth => ?_
    rw [skip_eq, skipWith, Schema.shape?_eq, hd]
    rfl
  | @fixed name f bytes hd hsize =>
    have hread : Reads (Kind.fixed f.size).readValue bytes _ :=
      hsize ▸ (Wire.take_prepend bytes).map Value.fixed
    refine (Kind.takes_skip hread).congr fun limit depth => ?_
    rw [skip_eq, skipWith, Schema.shape?_eq, hd]
    rfl
  | @record name r parts hd hfields _ ih =>
    have hparts := takes_skipFields ih
    rw [hfields] at hparts
    have hrecord : Takes (fun limit depth => skipRecord limit writer depth r)
        _ _ := hparts.descend fun _ _ => rfl
    refine hrecord.deeper.congr fun limit depth => ?_
    rw [skip_eq, skipWith, Schema.shape?_eq, hd]
    rfl
  | @union branches branch index n tag bytes htag hn hbranch _ ih =>
    have hlt : index < 0x8000000000000000 := by
      have := n.toInt_lt
      omega
    have hindex : n = Int64.ofNat index := by
      rw [← Int64.toInt_inj, hn, Int64.toInt_ofNat_of_lt hlt]
    refine Takes.congr ((Takes.reading htag).bind (f := fun n limit depth =>
      skipBranch limit writer (skipRecord limit writer depth)
        s!"union tag out of range for `{(TypeExpr.union branches).text}`" n 0
        branches) (g := fun _ => .ok ()) ?_) ?_
    · rintro _ ⟨⟩
      refine ih.congr fun limit depth => ?_
      have hskip := @skipBranch_getElem? limit writer
        (skipRecord limit writer depth)
        s!"union tag out of range for `{(TypeExpr.union branches).text}`"
        branches 0 index branch hbranch (by omega)
      rw [Nat.zero_add] at hskip
      rw [hindex, hskip, skip_eq]
    · intro limit depth
      rw [skip_eq, skipWith]
  | @array t parts bytes hchunks _ ih =>
    rw [← List.map_id parts] at hchunks
    refine (takes_dropped (.chunked hchunks ih)).congr fun limit depth => ?_
    rw [skip_eq, skipWith, ← skip_eq]
  | @map t entries bytes hchunks hkeys _ ih =>
    have hentry : ∀ x ∈ entries, Takes (fun limit depth => do
        Kind.bytes.skip
        skip limit writer depth t) (x.1 ++ x.2) (.ok ()) := fun x hx => by
      obtain ⟨key, hkey⟩ := hkeys x hx
      have hkey : Reads Kind.bytes.readValue x.1 _ := hkey.map Value.bytes
      exact (Kind.takes_skip hkey).bind fun _ _ => ih x hx
    refine (takes_dropped (.chunked hchunks hentry)).congr
      fun limit depth => ?_
    rw [skip_eq, skipWith, ← skip_eq]

/-! ## Values -/

/-- The bytes of a primitive are data of its type. -/
theorem Schema.Data.of_primitive {v : Value} {p : Primitive}
    (hv : v.Conforms writer (.primitive p)) (hfits : v.Fits) :
    writer.Data (.primitive p) (v.written writer (.primitive p)) :=
  (reads_dropped hv hfits).elim fun _ => .primitive

/-- **The bytes of a value are data of its type.** -/
theorem Value.Conforms.data (hs : writer.WellFormed) (hwriter : writer.Fits)
    {v : Value} {t : TypeExpr} (hv : v.Conforms writer t) :
    v.Fits → t.Fits → writer.Data t (v.written writer t) := by
  induction hv with
  | null => exact fun hfits _ => .of_primitive .null hfits
  | boolean b => exact fun hfits _ => .of_primitive (.boolean b) hfits
  | int n => exact fun hfits _ => .of_primitive (.int n) hfits
  | long n => exact fun hfits _ => .of_primitive (.long n) hfits
  | float x => exact fun hfits _ => .of_primitive (.float x) hfits
  | double x => exact fun hfits _ => .of_primitive (.double x) hfits
  | bytes b => exact fun hfits _ => .of_primitive (.bytes b) hfits
  | string x => exact fun hfits _ => .of_primitive (.string x) hfits
  | @record name r fields hd hnames hparts ih =>
    intro hfits _
    cases hfits with
    | record hfields =>
      have hdefinition : Definition.Fits (.record r) := hwriter.definition? hd
      have hlength : fields.length = r.fields.length := by
        rw [← List.length_map (·.1), hnames, List.length_map]
      rw [(Value.written_record hd hnames (hs.distinct hd)
        fun x hx => Value.Conforms.encodes hs (hparts x hx)).2]
      have hdata := @Schema.Data.record writer name r
        ((fields.zip r.fields).map fun x =>
          (x.2, Value.writtenField writer x)) hd (by
            rw [List.map_map]
            exact List.map_snd_zip (Nat.le_of_eq hlength.symm)) fun x hx => ?_
      · rw [List.flatMap_map] at hdata
        exact hdata
      · obtain ⟨y, hy, rfl⟩ := List.mem_map.mp hx
        exact ih y hy (hfields y.1 (List.of_mem_zip hy).1)
          (hdefinition.2 y.2 (List.of_mem_zip hy).2)
  | @enum name e index symbol hd hsymbol =>
    intro hfits _
    cases hfits with
    | enum _ hlt =>
      obtain ⟨position, hle, hfirst⟩ := EnumType.exists_symbolIndex? hsymbol
      rw [(Value.written_enum hd hfirst).2]
      exact .enum hd (Wire.readInt_natCast (Nat.lt_of_le_of_lt hle hlt))
  | fixed hd hsize =>
    intro _ _
    rw [(Value.written_fixed hd hsize).2]
    exact .fixed hd hsize
  | @array items t hparts ih =>
    intro hfits ht
    cases hfits with
    | array hcount hitems =>
      rw [(Value.written_array fun v hv =>
        Value.Conforms.encodes hs (hparts v hv)).2]
      refine .array (Wire.chunked_flatMap hcount _) fun part hpart => ?_
      obtain ⟨v, hv, rfl⟩ := List.mem_map.mp hpart
      exact ih v hv (hitems v hv) ht
  | @map entries t hsorted hparts ih =>
    intro hfits ht
    cases hfits with
    | map hcount hkeys hentries =>
      rw [(Value.written_map fun x hx =>
        Value.Conforms.encodes hs (hparts x hx)).2]
      refine @Schema.Data.map writer t (entries.map fun x =>
        (Wire.string x.1, x.2.written writer t)) _ ?_ ?_ ?_
      · rw [List.map_map]
        exact Wire.chunked_flatMap hcount _
      · intro x hx
        obtain ⟨entry, hentry, rfl⟩ := List.mem_map.mp hx
        exact ⟨_, Wire.readBytes_bytes (hkeys entry hentry)⟩
      · intro x hx
        obtain ⟨entry, hentry, rfl⟩ := List.mem_map.mp hx
        exact ih entry hentry (hentries entry hentry) ht
  | @union branches branch index v hbranch hpart ih =>
    intro hfits ht
    cases hfits with
    | union hfits =>
      have hlt : index < 0x8000000000000000 :=
        Nat.lt_trans (List.getElem?_eq_some_iff.mp hbranch).1 ht.1
      rw [(Value.written_union hbranch (Value.Conforms.encodes hs hpart)).2]
      exact .union (Wire.readLong_natCast hlt) (Int64.toInt_ofNat_of_lt hlt)
        hbranch (ih hfits (ht.2.getElem? hbranch))

/-- **Skipping takes the bytes of every value of the type.** -/
theorem Value.Conforms.takes_skip (hs : writer.WellFormed)
    (hwriter : writer.Fits) {v : Value} {t : TypeExpr}
    (hv : v.Conforms writer t) (hfits : v.Fits) (ht : t.Fits) :
    Takes (fun limit depth => skip limit writer depth t) (v.written writer t)
      (.ok ()) :=
  (hv.data hs hwriter hfits ht).takes_skip

end Avro
