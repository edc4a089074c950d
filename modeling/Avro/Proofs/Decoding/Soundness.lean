import Avro.Proofs.Decoding.Loops
import Avro.Proofs.Value.Defaults

/-!
# What is decoded is of the reader's type

Decoding as a reader's type gives a value of that type, whatever the bytes
are (`decode_sound`). Where it fails, it is the data that is to blame, or the
limit on levels.

Both are said by `Decoding.Sound`, which is kept by everything that decoding
is made of. Nothing is asked of the writer's type: where the two types do not
match, decoding gives no value at all.
-/

namespace Avro

/-- **A failure is due to the data**: it is malformed, has no place in the
reader's type, or nests too deep. -/
def ExecutionCause.DueToData : ExecutionCause → Prop
  | decode _ | halt _ | tooDeep .. => True
  | sink _ | defect _ => False

/-! ## Loops -/

namespace Running

variable {σ α β : Type}

/-- **A computation keeps an invariant** of the state beside the input, and
fails only due to the data. -/
def Keeps (I : σ → Prop) (m : Running σ α) : Prop :=
  ∀ s, I s.2 → match m s with
    | .ok _ s' => I s'.2
    | .error cause _ => cause.DueToData

namespace Keeps

variable {I : σ → Prop}

theorem pure (a : α) : Keeps I (Pure.pure a : Running σ α) := fun _ h => h

theorem reading (m : Read α) : Keeps I (Running.reading m) := by
  intro s h
  unfold Running.reading
  cases m s.1 with
  | ok a left => exact h
  | error e left => trivial

theorem bind {m : Running σ α} {f : α → Running σ β} (hm : Keeps I m)
    (hf : ∀ a, Keeps I (f a)) : Keeps I (m >>= f) := by
  intro s h
  have hs := hm s h
  cases hr : m s with
  | error cause s' =>
    rw [hr] at hs
    rw [bind_error hr]
    exact hs
  | ok a s' =>
    rw [hr] at hs
    rw [bind_ok hr]
    exact hf a s' hs

theorem loopClosed : LoopClosed (Keeps I) :=
  ⟨pure, bind, reading _, fun _ _ => trivial⟩

/-- **A loop keeps what its rounds keep.** -/
theorem blocks {round : Running σ Unit} (h : Keeps I round) :
    Keeps I (Running.blocks round) :=
  fun s hs => loopClosed.blocksWithin h (s.1.rest.length + 1) s hs

end Keeps

end Running

namespace Decoding

variable {α β : Type} {P : α → Prop} {Q : β → Prop} {limit : Nat}

/-- **A computation is sound**: its values have a property, and it fails only
due to the data. -/
def Sound (P : α → Prop) (m : Decoding α) : Prop :=
  ∀ levels input, Gives (m levels input) (fun a _ => P a)
    (fun cause _ => cause.DueToData)

namespace Sound

theorem pure {a : α} (h : P a) : Sound P (Pure.pure a) := fun _ _ => h

theorem stop (message : String) : Sound P (Decoding.stop message) :=
  fun _ _ => trivial

theorem rejected : Sound P (Decoding.rejected : Decoding α) :=
  stop _

theorem reading {m : Read α}
    (h : ∀ input a left, m input = .ok a left → P a) :
    Sound P (Decoding.reading m) := by
  intro levels input
  unfold Decoding.reading
  cases hr : m input with
  | ok a left => exact h input a left hr
  | error e left => trivial

theorem bind {m : Decoding α} {f : α → Decoding β} (hm : Sound P m)
    (hf : ∀ a, P a → Sound Q (f a)) : Sound Q (m >>= f) := by
  intro levels input
  exact (hm levels input).bind (fun a left h => hf a h levels left)
    fun _ _ h => h

theorem ite {c : Prop} [Decidable c] {m n : Decoding α} (hm : Sound P m)
    (hn : Sound P n) : Sound P (if c then m else n) := by
  split
  · exact hm
  · exact hn

theorem deeper {m : Decoding α} (h : Sound P m) :
    Sound P (Decoding.deeper limit m) := by
  intro levels input
  cases levels with
  | zero => trivial
  | succ levels => exact h levels input

theorem entered {m : Decoding α} (h : Sound P m) (r : TypeExpr) :
    Sound P (Decoding.entered limit r m) :=
  ite h h.deeper

/-- **A loop collects items with the property.** -/
theorem blocks {item : Decoding α} (h : Sound P item) :
    Sound (fun items => ∀ a ∈ items, P a) (Decoding.blocks limit item) := by
  intro levels input
  have hround : Running.Keeps (fun items : List α => ∀ a ∈ items, P a)
      (Decoding.collecting (Decoding.deeper limit item levels)) := by
    intro s hs
    have hdeeper : Sound P (Decoding.deeper limit item) := h.deeper
    have hitem := hdeeper levels s.1
    unfold Decoding.collecting
    cases hr : Decoding.deeper limit item levels s.1 with
    | error cause left => rw [hr] at hitem; exact hitem
    | ok a left =>
      rw [hr] at hitem
      intro b hb
      rcases List.mem_cons.mp hb with rfl | hb
      · exact hitem
      · exact hs b hb
  have hloop := hround.blocks (input, []) nofun
  unfold Decoding.blocks
  cases hr : Running.blocks (Decoding.collecting
      (Decoding.deeper limit item levels)) (input, []) with
  | error cause s => rw [hr] at hloop; exact hloop
  | ok u s =>
    rw [hr] at hloop
    exact fun a ha => hloop a (List.mem_reverse.mp ha)

end Sound

end Decoding

/-! ## Dropping -/

section

open Decoding (Sound)

variable {limit : Nat} {writer reader : Schema}

theorem Kind.skip_sound (kind : Kind) : Sound (fun _ => True) kind.skip :=
  .bind (.reading fun _ _ _ _ => trivial) (fun _ _ => .pure trivial)

mutual

theorem skipWith_sound {record : RecordType → Decoding Unit}
    (hrecord : ∀ r, Sound (fun _ => True) (record r)) :
    ∀ t : TypeExpr, Sound (fun _ => True) (skipWith limit writer record t)
  | .primitive p => by
    rw [skipWith]
    exact .ite (.pure trivial) (Kind.skip_sound _)
  | .array items => by
    rw [skipWith]
    exact .bind (skipWith_sound hrecord items).blocks
      (fun _ _ => .pure trivial)
  | .map values => by
    rw [skipWith]
    have hentry : Sound (fun _ => True) (do
        Kind.bytes.skip
        skipWith limit writer record values) :=
      .bind (Kind.skip_sound _) (fun _ _ => skipWith_sound hrecord values)
    exact .bind hentry.blocks (fun _ _ => .pure trivial)
  | .union branches => by
    rw [skipWith]
    have htag : Sound (fun _ => True) (Decoding.reading Wire.readLong) :=
      .reading fun _ _ _ _ => trivial
    exact htag.bind fun n _ => skipBranch_sound hrecord _ n 0 branches
  | .named name => by
    rw [skipWith]
    split
    · exact (hrecord _).deeper
    · exact Kind.skip_sound _
    · exact Kind.skip_sound _
    · exact .rejected

theorem skipBranch_sound {record : RecordType → Decoding Unit}
    (hrecord : ∀ r, Sound (fun _ => True) (record r)) (message : String)
    (n : Int64) :
    ∀ (tag : Nat) (branches : List TypeExpr), Sound (fun _ => True)
      (skipBranch limit writer record message n tag branches)
  | tag, [] => by rw [skipBranch]; exact .stop message
  | tag, branch :: rest => by
    rw [skipBranch]
    exact .ite (skipWith_sound hrecord branch)
      (skipBranch_sound hrecord message n (tag + 1) rest)

end

theorem skipFields_sound {skip : TypeExpr → Decoding Unit}
    (hskip : ∀ t, Sound (fun _ => True) (skip t)) :
    ∀ fields : List Field, Sound (fun _ => True) (skipFields skip fields)
  | [] => .pure trivial
  | field :: rest =>
    .bind (hskip field.type) (fun _ _ => skipFields_sound hskip rest)

/-- **Dropping fails only due to the data.** -/
theorem skip_sound : ∀ (depth : Nat) (t : TypeExpr),
    Sound (fun _ => True) (skip limit writer depth t)
  | 0, t => skipWith_sound (fun _ => .rejected) t
  | depth + 1, t =>
    skipWith_sound (fun r => skipFields_sound (skip_sound depth) r.fields) t

/-! ## Types without parts -/

/-- What is promoted to a primitive is of its type. -/
theorem promotion?_conforms {w r : Primitive} {kind : Kind}
    (h : Plan.promotion? w r = some kind) {input left : Input} {v : Value}
    (hv : kind.readValue input = .ok v left) :
    v.ConformsFirst reader (.primitive r) := by
  cases w <;> cases r <;> simp only [Plan.promotion?] at h <;>
    first
    | (obtain rfl := Option.some.inj h
       simp only [Kind.readValue, Kind.ofPrimitive, bind, EStateM.bind, pure,
         EStateM.pure] at hv
       first
       | (obtain ⟨rfl, -⟩ := EStateM.Result.ok.inj hv; constructor)
       | (split at hv
          · obtain ⟨rfl, -⟩ := EStateM.Result.ok.inj hv
            constructor
          · exact absurd hv (by simp)))
    | (simp at h)

theorem Primitive.decode_sound (w r : Primitive) :
    Sound (·.ConformsFirst reader (.primitive r)) (w.decode r) := by
  unfold Primitive.decode
  split
  · rename_i hnull
    rw [hnull.2]
    exact .pure .null
  · split
    · rename_i kind hkind
      exact .reading fun input v left hv => promotion?_conforms hkind hv
    · exact .rejected

/-- A symbol is given by the position at which it is found. -/
theorem EnumType.symbolIndex?_getD {e : EnumType} {symbol : String}
    {index : Nat} (h : e.symbolIndex? symbol = some index) :
    e.symbolIndex? (e.symbols.getD index "") = some index := by
  rw [List.getD_eq_getElem?_getD, EnumType.symbols_getElem? h]
  exact h

theorem EnumType.decodeSymbol_sound {r : EnumType}
    (hr : reader.definition? r.name = some (.enum r)) (message : String)
    (n : Int64) :
    ∀ (tag : Nat) (symbols : List String),
      Sound (·.ConformsFirst reader (.named r.name))
        (r.decodeSymbol message n tag symbols)
  | tag, [] => .stop message
  | tag, symbol :: rest => by
    rw [decodeSymbol]
    split
    · rename_i index hindex
      refine .ite (.pure (.enum hr ?_))
        (decodeSymbol_sound hr message n (tag + 1) rest)
      rcases Option.or_eq_some_iff.mp hindex with h | ⟨-, h⟩
      · exact symbolIndex?_getD h
      · obtain ⟨x, _, hx⟩ := Option.bind_eq_some_iff.mp h
        exact symbolIndex?_getD hx
    · exact decodeSymbol_sound hr message n (tag + 1) rest

theorem EnumType.decode_sound (w : EnumType) {r : EnumType}
    (hr : reader.definition? r.name = some (.enum r)) :
    Sound (·.ConformsFirst reader (.named r.name)) (w.decode r) := by
  have hindex : Sound (fun _ => True) (Decoding.reading Wire.readInt) :=
    .reading fun _ _ _ _ => trivial
  exact hindex.bind fun n _ => decodeSymbol_sound hr _ _ 0 w.symbols

/-- A read of a number of bytes gives as many. -/
theorem Wire.take_length {size : Nat} {input left : Input} {b : List UInt8}
    (h : Wire.take size input = .ok b left) : b.length = size := by
  unfold Wire.take at h
  dsimp only at h
  split at h
  · rename_i hlength
    obtain ⟨rfl, -⟩ := EStateM.Result.ok.inj h
    exact hlength
  · exact absurd h (by simp)

theorem FixedType.decode_sound (w : FixedType) {r : FixedType}
    (hr : reader.definition? r.name = some (.fixed r)) :
    Sound (·.ConformsFirst reader (.named r.name)) (w.decode r) := by
  unfold FixedType.decode
  split
  · rename_i hsize
    refine .reading fun input v left hv => ?_
    simp only [Kind.readValue, bind, EStateM.bind, pure, EStateM.pure] at hv
    split at hv
    · rename_i b _ htake
      obtain ⟨rfl, -⟩ := EStateM.Result.ok.inj hv
      exact .fixed hr ((Wire.take_length htake).trans hsize)
    · exact absurd hv (by simp)
  · exact .rejected

/-! ## Selecting a branch -/

section

variable {pick : List TypeExpr → Option Nat}
  {leaf : TypeExpr → Decoding Value}

mutual

/-- A selected branch gives a value of the union. -/
theorem select_sound (hleaf : ∀ t, t.isUnion = false →
      Sound (·.ConformsFirst reader t) (leaf t)) :
    ∀ r : TypeExpr, Sound (·.ConformsFirst reader r)
      (r.select .rejected (Decoding.entered limit) pick leaf)
  | .union branches => by
    rw [TypeExpr.select]
    split
    · exact .rejected
    · rename_i index _
      exact selectFrom_sound hleaf index branches branches (fun _ h => h)
  | .primitive p => by
    rw [TypeExpr.select_leaf _ _ _ _ rfl]
    exact hleaf _ rfl
  | .array items => by
    rw [TypeExpr.select_leaf _ _ _ _ rfl]
    exact hleaf _ rfl
  | .map values => by
    rw [TypeExpr.select_leaf _ _ _ _ rfl]
    exact hleaf _ rfl
  | .named name => by
    rw [TypeExpr.select_leaf _ _ _ _ rfl]
    exact hleaf _ rfl

theorem selectFrom_sound (hleaf : ∀ t, t.isUnion = false →
      Sound (·.ConformsFirst reader t) (leaf t)) {index : Nat} :
    ∀ (position : Nat) (branches all : List TypeExpr),
      (∀ t, branches[position]? = some t → all[index]? = some t) →
      Sound (·.ConformsFirst reader (.union all))
        (TypeExpr.selectFrom .rejected (Decoding.entered limit) pick leaf index
          position branches)
  | position, [], _, _ => by rw [TypeExpr.selectFrom]; exact .rejected
  | 0, branch :: rest, all, hall => by
    rw [TypeExpr.selectFrom]
    exact ((select_sound hleaf branch).entered branch).bind
      fun v hv => .pure (.union (hall branch rfl) hv)
  | position + 1, branch :: rest, all, hall => by
    rw [TypeExpr.selectFrom]
    exact selectFrom_sound hleaf position rest all fun t ht => hall t ht

end

end

/-! ## Records -/

/-- What is received last is among what is received. -/
theorem mem_of_lastReceived {index : Nat} {v : Value} :
    ∀ {received : List (Nat × Value)},
      lastReceived index received = some v → (index, v) ∈ received
  | [], h => absurd h (by simp [lastReceived])
  | (i, x) :: rest, h => by
    rw [lastReceived] at h
    rcases Option.or_eq_some_iff.mp h with h | ⟨-, h⟩
    · exact List.mem_cons_of_mem _ (mem_of_lastReceived h)
    · split at h
      · rename_i hi
        rw [← hi, ← Option.some.inj h]
        exact List.mem_cons_self
      · exact absurd h (by simp)

/-- **Fields that are put together** are those of the record, in its order. -/
theorem RecordType.assembledFrom?_conforms (hreader : reader.Ordered)
    {received : List (Nat × Value)} :
    ∀ {fields : List Field} {first : Nat} {values : List (String × Value)},
      (∀ field ∈ fields, field.Ordered) →
      (∀ x ∈ received, ∀ index, x.1 = first + index → ∀ field,
        fields[index]? = some field → x.2.ConformsFirst reader field.type) →
      assembledFrom? reader received first fields = some values →
      values.map (·.1) = fields.map (·.name)
        ∧ ∀ x ∈ values.zip fields, x.1.2.ConformsFirst reader x.2.type
  | [], first, values, _, _, h => by
    obtain rfl := Option.some.inj h
    exact ⟨rfl, nofun⟩
  | field :: rest, first, values, hordered, hreceived, h => by
    rw [assembledFrom?] at h
    obtain ⟨v, hv, h⟩ := Option.bind_eq_some_iff.mp h
    obtain ⟨others, hothers, h⟩ := Option.bind_eq_some_iff.mp h
    obtain rfl := Option.some.inj h
    obtain ⟨hnames, hconforms⟩ := assembledFrom?_conforms hreader
      (fun f hf => hordered f (List.mem_cons_of_mem _ hf))
      (fun x hx index hindex f hf =>
        hreceived x hx (index + 1) (by omega) f hf) hothers
    refine ⟨by rw [List.map_cons, hnames, List.map_cons], fun x hx => ?_⟩
    rw [List.zip_cons_cons] at hx
    rcases List.mem_cons.mp hx with rfl | hx
    · rcases Option.or_eq_some_iff.mp hv with hlast | ⟨-, hdefault⟩
      · exact hreceived _ (mem_of_lastReceived hlast) 0 rfl field rfl
      · obtain ⟨j, hj, hdefault⟩ := Option.bind_eq_some_iff.mp hdefault
        refine Value.ofDefault_conforms hreader
          (hordered field List.mem_cons_self j hj) ?_
        cases hof : Value.ofDefault reader field.type j with
        | error e => rw [hof] at hdefault; exact absurd hdefault (by simp [Except.toOption])
        | ok v' =>
          rw [hof] at hdefault
          exact congrArg Except.ok (Option.some.inj hdefault)
    · exact hconforms x hx

section

variable {decode : TypeExpr → TypeExpr → Decoding Value}
  {skip : TypeExpr → Decoding Unit}

/-- What is received for a field is of its type. -/
theorem decodeFields_sound
    (hdecode : ∀ w r, Sound (·.ConformsFirst reader r) (decode w r))
    (hskip : ∀ t, Sound (fun _ => True) (skip t)) (rd : RecordType) :
    ∀ fields : List Field, Sound (fun received => ∀ x ∈ received, ∀ field,
        rd.fields[x.1]? = some field → x.2.ConformsFirst reader field.type)
      (decodeFields limit decode skip rd fields)
  | [] => .pure nofun
  | wf :: rest => by
    have ih := decodeFields_sound hdecode hskip rd rest
    rw [decodeFields]
    split
    · exact .bind (hskip wf.type) (fun _ _ => ih)
    · rename_i index _
      split
      · exact ih
      · rename_i rf hrf
        refine .bind ((hdecode wf.type rf.type).entered rf.type)
          (fun v hv => ih.bind fun others hothers => .pure ?_)
        intro x hx field hfield
        rcases List.mem_cons.mp hx with rfl | hx
        · obtain rfl := Option.some.inj (hrf.symm.trans hfield)
          exact hv
        · exact hothers x hx field hfield

/-- **A record that is decoded is one of the reader's.** -/
theorem decodeRecord_sound (hreader : reader.Ordered)
    (hdecode : ∀ w r, Sound (·.ConformsFirst reader r) (decode w r))
    (hskip : ∀ t, Sound (fun _ => True) (skip t)) (wd : RecordType)
    {rd : RecordType}
    (hrd : reader.definition? rd.name = some (.record rd)) :
    Sound (·.ConformsFirst reader (.named rd.name))
      (decodeRecord limit reader decode skip wd rd) := by
  refine .bind (decodeFields_sound hdecode hskip rd wd.fields)
    fun received hreceived => ?_
  split
  · rename_i fields hfields
    obtain ⟨hnames, hconforms⟩ := RecordType.assembledFrom?_conforms hreader
      (hreader rd (List.mem_of_find?_eq_some hrd))
      (fun x hx index hindex field hfield => hreceived x hx field
        (by rwa [hindex, Nat.zero_add])) hfields
    exact .pure (.record hrd hnames hconforms)
  · exact .rejected

end

/-! ## Types -/

section

variable {record : RecordType → RecordType → Decoding Value}

variable (reader record) in
/-- What is meant for records. -/
def SoundRecords : Prop :=
  ∀ wd rd, reader.definition? rd.name = some (.record rd) →
    Sound (·.ConformsFirst reader (.named rd.name)) (record wd rd)

theorem decodeNamed_sound (hrecord : SoundRecords reader record)
    (name : FullName) (r : TypeExpr) :
    Sound (·.ConformsFirst reader r)
      (decodeNamed limit writer reader record name r) := by
  unfold decodeNamed
  split
  · rename_i wd rd _ hr
    obtain ⟨rfl, hrd⟩ := Schema.shape?_named (d := .record rd) hr
    exact (hrecord wd rd hrd).deeper
  · rename_i we re _ hr
    obtain ⟨rfl, hre⟩ := Schema.shape?_named (d := .enum re) hr
    exact EnumType.decode_sound we hre
  · rename_i wf rf _ hr
    obtain ⟨rfl, hrf⟩ := Schema.shape?_named (d := .fixed rf) hr
    exact FixedType.decode_sound wf hrf
  · exact .rejected

mutual

/-- Decoding is sound if it is for records. -/
theorem decodeWith_sound (hrecord : SoundRecords reader record) :
    ∀ w r : TypeExpr, Sound (·.ConformsFirst reader r)
      (decodeWith limit writer reader record w r)
  | .union branches, r => by
    rw [decodeWith]
    have htag : Sound (fun _ => True) (Decoding.reading Wire.readLong) :=
      .reading fun _ _ _ _ => trivial
    exact htag.bind fun n _ => decodeBranch_sound hrecord _ n 0 branches r
  | .primitive p, r => by
    rw [decodeWith]
    refine select_sound (fun t ht => ?_) r
    split
    · exact Primitive.decode_sound p _
    · exact .rejected
  | .array items, r => by
    rw [decodeWith]
    refine select_sound (fun t ht => ?_) r
    split
    · exact (decodeWith_sound hrecord items _).deeper.blocks.bind
        fun values hvalues => .pure (.array hvalues)
    · exact .rejected
  | .map values, r => by
    rw [decodeWith]
    refine select_sound (fun t ht => ?_) r
    split
    · rename_i values'
      have hkey : Sound (fun _ => True) (Decoding.reading Wire.readString) :=
        .reading fun _ _ _ _ => trivial
      have hentry : Sound (fun x => x.2.ConformsFirst reader values') (do
          let key ← Decoding.reading Wire.readString
          let v ← Decoding.deeper limit
            (decodeWith limit writer reader record values values')
          return (key, v)) :=
        hkey.bind fun key _ => (decodeWith_sound hrecord values _).deeper.bind
          fun v hv => .pure hv
      exact hentry.blocks.bind fun pairs hpairs =>
        .pure (.map (Entries.sorted_ofList pairs)
          fun x hx => hpairs x (Entries.mem_of_mem_ofList hx))
    · exact .rejected
  | .named name, r => by
    rw [decodeWith]
    exact select_sound (fun t ht => decodeNamed_sound hrecord name t) r

theorem decodeBranch_sound (hrecord : SoundRecords reader record)
    (message : String) (n : Int64) :
    ∀ (tag : Nat) (branches : List TypeExpr) (r : TypeExpr),
      Sound (·.ConformsFirst reader r)
        (decodeBranch limit writer reader record message n tag branches r)
  | tag, [], r => by
    rw [decodeBranch]
    exact .stop message
  | tag, branch :: rest, r => by
    have ih := decodeBranch_sound hrecord message n (tag + 1) rest r
    cases hunion : r.isUnion with
    | false =>
      rw [decodeBranch_cons hunion]
      exact .ite (.ite (decodeWith_sound hrecord branch r) ih) ih
    | true =>
      obtain ⟨readers, rfl⟩ := TypeExpr.isUnion_iff.mp hunion
      rw [decodeBranch]
      split
      · exact ih
      · split
        · exact ih
        · rename_i index _ _ branch' hbranch'
          exact .ite (((decodeWith_sound hrecord branch branch').entered
            branch').bind fun v hv => .pure (.union hbranch' hv)) ih

end

end

/-- **What is decoded is of the reader's type**, and decoding fails only due
to the data. -/
theorem decode_sound (hreader : reader.Ordered) :
    ∀ (depth : Nat) (w r : TypeExpr), Sound (·.ConformsFirst reader r)
      (decode limit writer reader depth w r)
  | 0, w, r => decodeWith_sound (fun _ _ _ => .rejected) w r
  | depth + 1, w, r => decodeWith_sound
      (fun wd _ hrd => decodeRecord_sound hreader
        (decode_sound hreader depth) (skip_sound depth) wd hrd) w r

end

end Avro
