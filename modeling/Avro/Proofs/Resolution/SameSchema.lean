import Avro.Proofs.Plan.SameSchema
import Avro.Proofs.Resolution.Programs

/-!
# A schema reads what it wrote

A value of a schema resolves to itself as a type of this schema
(`Value.ConformsFirst.resolve_self`), if the unions in the types pick
themselves. So encoding a value and running the program of the schema over the
bytes gives the value back (`Schema.exists_roundTrip`).
-/

namespace Avro

variable {s : Schema}

/-! ## Records -/

/-- The values of fields, numbered from a position on. -/
def positions (first : Nat) : List (String × Value) → List (Nat × Value)
  | [] => []
  | x :: rest => (first, x.2) :: positions (first + 1) rest

/-- Nothing is received before the first position. -/
theorem lastReceived_positions_of_lt {index : Nat} :
    ∀ {first : Nat} {fields : List (String × Value)}, index < first →
      lastReceived index (positions first fields) = none
  | _, [], _ => rfl
  | first, _ :: rest, h => by
    rw [positions, lastReceived,
      lastReceived_positions_of_lt (Nat.lt_succ_of_lt h),
      if_neg (Nat.ne_of_gt h)]
    rfl

/-- Each position has received the value of its field. -/
theorem lastReceived_positions :
    ∀ (first index : Nat) (fields : List (String × Value)),
      lastReceived (first + index) (positions first fields)
        = (fields[index]?).map (·.2)
  | _, _, [] => rfl
  | first, 0, x :: rest => by
    rw [positions, lastReceived, Nat.add_zero,
      lastReceived_positions_of_lt (Nat.lt_succ_self first), if_pos rfl]
    rfl
  | first, index + 1, x :: rest => by
    have hrest := lastReceived_positions (first + 1) index rest
    rw [Nat.add_right_comm] at hrest
    have hne : first ≠ first + (index + 1) := by omega
    rw [positions, lastReceived, if_neg hne, Option.or_none,
      List.getElem?_cons_succ]
    exact hrest

/-- A record is put together from the values of its own fields. -/
theorem assembledFrom?_eq {received : List (Nat × Value)} :
    ∀ {first : Nat} {fields : List (String × Value)}
      {definitions : List Field},
      fields.map (·.1) = definitions.map (·.name) →
      (∀ index, lastReceived (first + index) received
        = (fields[index]?).map (·.2)) →
      RecordType.assembledFrom? s received first definitions = some fields
  | _, [], [], _, _ => rfl
  | _, [], _ :: _, h, _ => absurd h (by simp)
  | _, _ :: _, [], h, _ => absurd h (by simp)
  | first, (name, v) :: rest, definition :: others, hnames, hreceived => by
    obtain ⟨hname, hnames⟩ := List.cons.inj hnames
    have hname : name = definition.name := hname
    have hfirst : lastReceived first received = some v := hreceived 0
    have hrest := @assembledFrom?_eq received (first + 1) rest others hnames
      fun index => by
        rw [Nat.add_right_comm, Nat.add_assoc]
        exact hreceived (index + 1)
    rw [RecordType.assembledFrom?, hfirst, hrest, hname]
    rfl

/-- Fields that receive themselves are resolved where they are. -/
theorem resolveFields_self {rd : RecordType} :
    ∀ {first : Nat} {fields : List (String × Value)}
      {definitions : List Field},
      fields.length = definitions.length →
      (∀ (index : Nat) field, definitions[index]? = some field →
        rd.fields[first + index]? = some field
          ∧ rd.receivingIndex? field.name = some (first + index)) →
      (∀ x ∈ fields.zip definitions,
        resolve s s x.1.2 x.2.type x.2.type = .ok x.1.2) →
      resolveFields s s fields definitions rd = .ok (positions first fields)
  | _, [], [], _, _, _ => by rw [resolveFields, positions]; simp
  | _, [], _ :: _, h, _, _ => absurd h (by simp)
  | _, _ :: _, [], h, _, _ => absurd h (by simp)
  | first, (name, v) :: rest, definition :: others, hlength, hself, hparts => by
    obtain ⟨hfield, hindex⟩ := hself 0 definition rfl
    have hv : resolve s s v definition.type definition.type = .ok v :=
      hparts ((name, v), definition) List.mem_cons_self
    have hrest := @resolveFields_self rd (first + 1) rest others
      (Nat.succ.inj hlength)
      (fun index field h => by
        rw [Nat.add_right_comm, Nat.add_assoc]
        exact hself (index + 1) field h)
      (fun x hx => hparts x (List.mem_cons_of_mem _ hx))
    rw [Nat.add_zero] at hfield hindex
    rw [resolveFields, hindex]
    simp only [hfield, hv, hrest, positions]
    rfl

/-! ## Values -/

/-- A type that is no union is what a value is resolved as. -/
theorem selecting_leaf {w r : TypeExpr} (hr : r.isUnion = false)
    (leaf : TypeExpr → Resolved Value) :
    selecting s s w r leaf = leaf r :=
  TypeExpr.select_leaf _ _ _ _ hr

/-- A primitive value is itself. -/
theorem resolve_primitive_self {v : Value} {p : Primitive}
    (hv : v.Conforms s (.primitive p)) :
    resolve s s v (.primitive p) (.primitive p) = .ok v := by
  rw [resolve_primitive hv, selecting_leaf rfl]
  cases hv <;> rfl

/-- **A value of a type that reads itself resolves to itself.** -/
theorem Value.ConformsFirst.resolve_readThemselves (hs : s.WellFormed)
    {T : TypeExpr → Prop} (h : s.ReadThemselves T) {v : Value} {t : TypeExpr}
    (hv : v.ConformsFirst s t) : T t → resolve s s v t t = .ok v := by
  induction hv with
  | null => exact fun _ => resolve_primitive_self .null
  | boolean b => exact fun _ => resolve_primitive_self (.boolean b)
  | int n => exact fun _ => resolve_primitive_self (.int n)
  | long n => exact fun _ => resolve_primitive_self (.long n)
  | float x => exact fun _ => resolve_primitive_self (.float x)
  | double x => exact fun _ => resolve_primitive_self (.double x)
  | bytes b => exact fun _ => resolve_primitive_self (.bytes b)
  | string x => exact fun _ => resolve_primitive_self (.string x)
  | @record name r fields hd hnames hparts ih =>
    intro ht
    have hlength : fields.length = r.fields.length := by
      rw [← List.length_map (·.1), hnames, List.length_map]
    have hfields : resolveFields s s fields r.fields r
        = .ok (positions 0 fields) := by
      refine resolveFields_self hlength (fun index field hfield => ?_)
        fun x hx => ih x hx (h.field ht hd x.2 (List.of_mem_zip hx).2)
      rw [Nat.zero_add]
      exact ⟨hfield, RecordType.receivingIndex?_self (hs.distinct hd) hfield⟩
    have hassembled : r.assembled? s (positions 0 fields) = some fields :=
      assembledFrom?_eq hnames fun index => lastReceived_positions 0 index _
    rw [resolve_record, selecting_leaf rfl, Schema.shape?_eq, hd]
    simp only [Option.map_some, Definition.shape, hfields, bind, Except.bind,
      hassembled]
  | @enum name e index symbol hd hfirst =>
    intro _
    have hsymbol := EnumType.symbols_getElem? hfirst
    rw [resolve_enum, selecting_leaf rfl]
    unfold resolveScalar
    rw [Schema.shape?_eq, hd]
    show e.resolveSymbol e symbol = _
    rw [EnumType.resolveSymbol, hfirst]
    show Except.ok (Value.enum index (e.symbols.getD index "")) = _
    rw [List.getD_eq_getElem?_getD, hsymbol]
    rfl
  | @fixed name f b hd hsize =>
    intro _
    rw [resolve_fixed, selecting_leaf rfl]
    unfold resolveScalar
    rw [Schema.shape?_eq, hd]
    exact if_pos rfl
  | @array items t hparts ih =>
    intro ht
    rw [resolve_array, selecting_leaf rfl]
    show (resolveItems s s items t t).map Value.array = _
    rw [resolveItems_eq, mapM_eq_ok fun v hv => ih v hv (h.items ht)]
    rfl
  | @map entries t hsorted hparts ih =>
    intro ht
    have hentry : ∀ x ∈ entries, resolveEntry s s t t x = .ok x :=
      fun x hx => by rw [resolveEntry, ih x hx (h.values ht)]; rfl
    rw [resolve_map, selecting_leaf rfl]
    show (resolveEntries s s entries t t).map Value.map = _
    rw [resolveEntries_eq, mapM_eq_ok hentry]
    rfl
  | @union branches branch index v hbranch hpart ih =>
    intro ht
    have hreceiver : receiver? s s branch (.union branches)
        = some (branch, .union index) := by
      simp only [receiver?, h.picks ht index branch hbranch, Option.bind_eq_bind,
        Option.bind_some, hbranch]
      rfl
    rw [resolve_union hbranch]
    simp only [hreceiver, ih (h.branch ht hbranch)]
    rfl

/-- A value of the root of a schema that picks itself resolves to itself. -/
theorem Value.ConformsFirst.resolve_self (hs : s.WellFormed)
    (hp : s.PicksItself) {v : Value} (hv : v.ConformsFirst s s.root) :
    s.root.PicksItself s → resolve s s v s.root s.root = .ok v :=
  fun hroot => hv.resolve_readThemselves hs (hp.readThemselves hs)
    ⟨hroot, hs.root⟩

/-! ## Programs -/

/-- **A schema reads back what it wrote.** A schema whose unions pick
themselves is compiled for itself; every value of its root type is encoded
without a fault, and a run of the program over the bytes gives the value and
leaves the rest, unless the limit on levels is too low. -/
theorem Schema.exists_roundTrip (hs : ∃ source, Schema.parse source = .ok s)
    (hp : s.PicksItself) :
    ∃ p, compile s s = .ok p ∧ (s.Fits → p.Fits →
      ∀ v : Value, v.ConformsFirst s s.root → v.Fits → ∀ rest : Input,
        (s.encode v).fault = none
          ∧ ∃ needed, ∀ maxDepth, ∃ o, p.Yields (Builder.sink s) maxDepth
              (rest.prepend (s.encode v).bytes) (Builder.fresh s s.root) o
            ∧ if maxDepth < needed then o.HitsLimit maxDepth
              else o.result = .ok () ∧ o.state.value? s = .ok v
                ∧ o.input = rest) := by
  have hwell : s.WellFormed := hs.elim fun _ => Schema.parse_wellFormed
  obtain ⟨p, hcompile⟩ := hp.compile_ok hwell
  refine ⟨p, hcompile, fun hsfits hpfits v hv hvfits rest => ?_⟩
  refine ⟨congrArg Draft.fault (hv.conforms.encodes hwell), ?_⟩
  have hresolves := compile_resolves (hp.encloses hwell)
    (Demand.namesTellApart_itself hwell) hcompile hpfits hsfits hsfits hwell
    hv.conforms hvfits rest
  rw [hv.resolve_self hwell hp hp.root] at hresolves
  exact hresolves

/-! ## A chain

A recursive record with a union, and a chain of two. -/

namespace Chain

/-- The document of the schema. -/
def source : String :=
  "\x7b\"type\":\"record\",\"name\":\"Node\",\"fields\":[" ++
    "\x7b\"name\":\"item\",\"type\":\"int\"\x7d," ++
    "\x7b\"name\":\"next\",\"type\":[\"null\",\"Node\"]\x7d]\x7d"

/-- The record of a node. -/
def node : RecordType where
  name := ⟨"Node", ""⟩
  aliases := []
  fields :=
    [⟨"item", .primitive .int, [], none, none⟩,
      ⟨"next", .union [.primitive .null, .named ⟨"Node", ""⟩], [], none, none⟩]
  doc := none

/-- The schema. -/
def schema : Schema where
  root := .named ⟨"Node", ""⟩
  definitions := [.record node]
  source := source

theorem parse_source : Schema.parse source = .ok schema := by
  have hchars : source.toList = _ :=
    toList_append_eq (toList_append_eq String.toList_ofList
      String.toList_ofList) String.toList_ofList
  rw [Schema.parse, Json.parse, hchars]
  cbv

theorem picksItself : schema.PicksItself where
  root := trivial
  field := by
    intro r hr field hfield
    obtain rfl : r = node := by simpa [schema] using hr
    rcases List.mem_cons.mp hfield with rfl | hfield
    · trivial
    · obtain rfl := List.mem_singleton.mp hfield
      refine ⟨nofun, fun index branch hbranch => ?_, trivial, trivial, trivial⟩
      match index with
      | 0 => obtain rfl := Option.some.inj hbranch; cbv
      | 1 => obtain rfl := Option.some.inj hbranch; cbv
      | index + 2 => exact absurd hbranch (by simp)

theorem fits : schema.Fits where
  root := trivial
  definition := by
    simp [schema, node, Definition.Fits, TypeExpr.Fits, TypeExpr.AllFit]

theorem size_compile : (compile schema schema).map (fun p =>
    (p.instructions.size, p.errors.length)) = .ok (24, 1) := by cbv

/-- A node of the chain. -/
def link (item : Int32) (next : Value) : Value :=
  .record [("item", .int item), ("next", next)]

/-- A chain of two nodes. -/
def pair : Value := link 1 (.union 1 (link 2 (.union 0 .null)))

/-- A node is one of the schema if its next one is. -/
theorem link_conforms {item : Int32} {next : Value}
    (h : next.ConformsFirst schema
      (.union [.primitive .null, .named ⟨"Node", ""⟩])) :
    (link item next).ConformsFirst schema (.named ⟨"Node", ""⟩) := by
  refine .record (r := node) (by rfl) rfl fun x hx => ?_
  rcases List.mem_cons.mp hx with rfl | hx
  · exact .int item
  · obtain rfl := List.mem_singleton.mp hx
    exact h

theorem pair_conforms : pair.ConformsFirst schema schema.root :=
  link_conforms (.union rfl (link_conforms
    (.union rfl .null)))

theorem link_fits {item : Int32} {next : Value} (h : next.Fits) :
    (link item next).Fits := by
  refine .record fun x hx => ?_
  rcases List.mem_cons.mp hx with rfl | hx
  · exact .int item
  · obtain rfl := List.mem_singleton.mp hx
    exact h

theorem pair_fits : pair.Fits :=
  link_fits (.union (link_fits (.union .null)))

end Chain

/-- A chain of two nodes is read back. -/
theorem exists_roundTrip_chain : ∃ p, compile Chain.schema Chain.schema = .ok p
    ∧ (Chain.schema.encode Chain.pair).fault = none
    ∧ ∃ needed, ∀ maxDepth, ∃ o,
        p.Yields (Builder.sink Chain.schema) maxDepth
          ((Input.ofBytes [7]).prepend (Chain.schema.encode Chain.pair).bytes)
          (Builder.fresh Chain.schema Chain.schema.root) o
        ∧ if maxDepth < needed then o.HitsLimit maxDepth
          else o.result = .ok () ∧ o.state.value? Chain.schema = .ok Chain.pair
            ∧ o.input = Input.ofBytes [7] := by
  obtain ⟨p, hp, h⟩ := Schema.exists_roundTrip ⟨_, Chain.parse_source⟩
    Chain.picksItself
  obtain ⟨q, hq, hsize⟩ := exists_of_map_ok Chain.size_compile
  obtain rfl := Except.ok.inj (hp.symm.trans hq)
  obtain ⟨hsize, hmessages⟩ := Prod.mk.inj hsize
  exact ⟨p, hp, h Chain.fits ⟨by omega, by omega⟩ Chain.pair
    Chain.pair_conforms Chain.pair_fits (Input.ofBytes [7])⟩

end Avro
