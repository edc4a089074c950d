import Avro.Container.Reader
import Avro.Proofs.Container.Header
import Avro.Proofs.Decoding.Covering
import Avro.Proofs.Plan.Chunks
import Avro.Proofs.Plan.SameSchema
import Avro.Proofs.Program.Termination
import Avro.Proofs.Resolution.Items

/-!
# Opening a container file

A file that begins with the bytes of a header is opened (`Reader.start_header`).
The entries of the metadata may be cut into chunks in any way, numbers and
lengths may be spelled with more digits than they need, and of a key that comes
twice the last entry counts; all of this is left open by `Header.Written`, of
which the header that a writer puts in front of a file is one case.

The header is read by a compiled program into slots. What the program does is
read off its plan: a method is called, which opens three fields, the second of
which is a loop that opens an entry in every round. That makes four levels.
-/

namespace Avro

/-! ## Plans on slots -/

namespace Plan

variable {limit levels : Nat} {body : Demand → Plan}

/-- What is run first, if it succeeds, is followed by what is run second. -/
theorem eval_seq_ok {σ : Type} {k : Sink σ} {first : Plan}
    {frame frame' : Frame} {s t : Input × σ}
    (h : eval k limit body levels first frame s = .ok frame' t)
    (second : Plan) :
    eval k limit body levels (.seq first second) frame s
      = eval k limit body levels second frame' t := by
  rw [eval_seq, Running.bind_ok h]

/-- Bytes that are read as a value of a kind. -/
theorem eval_read_of_reads {σ : Type} {k : Sink σ} {kind : Kind}
    (hkind : Kind.ofOperand? kind.operand = some kind) {item : List UInt8}
    {v : Value} (hread : Reads kind.readValue item v) (label : String)
    (frame : Frame) (rest : Input) (s : σ) :
    eval k limit body levels (read kind label) frame (rest.prepend item, s)
      = .ok (frame.after kind v) (rest, s) := by
  rw [eval_read hkind, hread rest]

/-- **Bytes are read into a slot** that takes them. -/
theorem eval_slot_bytes {kind : Kind}
    (hkind : Kind.ofOperand? kind.operand = some kind) {item b : List UInt8}
    {v : Value} (hread : Reads kind.readValue item v)
    (hregister : ∀ frame : Frame, (frame.after kind v).bytes = b)
    {slot slot' : Slot} (hset : slot.set (.bytes b) = .ok () slot')
    (label : String) (frame : Frame) (rest : Input) :
    ∃ frame', eval Slot.sink limit body levels
        (.seq (read kind label) (set .bytes label)) frame
        (rest.prepend item, slot) = .ok frame' (rest, slot') := by
  have hdelivery : (frame.after kind v).delivery .bytes
      = .scalar (.bytes b) := by
    rw [← hregister frame]
    rfl
  have hsink : Slot.sink.set (.bytes b) slot = .ok () slot' := hset
  rw [eval_seq_ok (eval_read_of_reads hkind hread label frame rest slot),
    eval_eq, set, evalWith, perform_set rfl label hdelivery, hsink]
  exact ⟨_, rfl⟩

/-- What a plan does on the level below. -/
theorem beneath_ok {σ : Type} {k : Sink σ} {plan : Plan} {frame : Frame}
    {s t : Input × σ}
    (h : eval k limit body levels plan .blank s = .ok frame t) :
    beneath limit (evalBelow k limit body (levels + 1)) plan s = .ok () t :=
  Running.bind_ok (f := fun _ => Pure.pure ()) h

/-- **A part of a slot is opened**, filled on the level below, and put
back. -/
theorem eval_slot_part {i : Instruction} {plan : Plan} {frame frame' last : Frame}
    {input left : Input} {s child child' : Slot} {close : Slot → Slot}
    (hstep : step [] Slot.sink i 0 frame input s
      = .descend 1 child close (· + 1) frame' input)
    (hplan : eval Slot.sink limit body levels plan .blank (input, child)
      = .ok last (left, child')) (label : String) :
    eval Slot.sink limit body (levels + 1) (.within i label plan) frame
        (input, s) = .ok frame' (left, close child') := by
  have hpart : beneathPart Slot.sink limit
      (evalBelow Slot.sink limit body (levels + 1)) plan (input, child)
      = .ok () (left, child') := by
    rw [beneathPart, Running.bind_ok (beneath_ok hplan)]
    rfl
  rw [eval_eq, evalWith, opened]
  simp only [hstep, hpart]

/-- **A field of a record of slots** is opened, filled and put back. -/
theorem eval_slot_field {plan : Plan} {name : String} {fields : List Slot}
    {index : Nat} (hindex : index < 0x8000000000000000) {child child' : Slot}
    (hchild : fields[index]? = some child) {input left : Input} {last : Frame}
    (hplan : eval Slot.sink limit body levels plan .blank (input, child)
      = .ok last (left, child')) (label label' : String) (frame : Frame) :
    eval Slot.sink limit body (levels + 1)
        (.within ⟨.enter, Int64.ofNat index, label⟩ label' plan) frame
        (input, .record name fields)
      = .ok frame (left, .record name (fields.set index child')) := by
  have haddress : address? (Int64.ofNat index) = some index :=
    address?_target hindex
  have hopen : Slot.sink.enter (.field index) (.record name fields)
      = .ok (fun child => .record name (fields.set index child)) child := by
    simp only [Slot.sink, Slot.enter, hchild, Sink.accept]
  have hstep : step [] Slot.sink ⟨.enter, Int64.ofNat index, label⟩ 0 frame
      input (.record name fields)
      = .descend 1 child (fun child => .record name (fields.set index child))
        (· + 1) frame input := by
    simp only [step, haddress, hopen, afterOpening, Nat.zero_add]
  exact eval_slot_part hstep hplan label'

/-- **An entry of a map of slots** is opened, filled and put under the key. -/
theorem eval_slot_entry {plan : Plan} {blank child' : Slot}
    {entries : List (String × Slot)} {input left : Input} {last : Frame}
    (hplan : eval Slot.sink limit body levels plan .blank (input, blank)
      = .ok last (left, child')) (label label' : String) (frame : Frame) :
    eval Slot.sink limit body (levels + 1)
        (.within ⟨.appendMap, 0, label⟩ label' plan) frame
        (input, .map blank entries)
      = .ok { frame with string := "" }
        (left, .map blank (Entries.insert frame.string child' entries)) := by
  have hstep : step [] Slot.sink ⟨.appendMap, 0, label⟩ 0 frame input
      (.map blank entries)
      = .descend 1 blank
        (fun child => .map blank (Entries.insert frame.string child entries))
        (· + 1) { frame with string := "" } input := by
    simp only [step, Slot.sink, Slot.enter, Sink.accept, afterOpening,
      Nat.zero_add]
  exact eval_slot_part hstep hplan label'

end Plan

/-! ## The bytes of a header -/

namespace Header

/-- **The bytes of an entry of the metadata**: its key and its value. -/
structure Entry (item : List UInt8) (entry : String × List UInt8) : Prop where
  /-- The key is in front of the value. -/
  reads : ∃ key value, item = key ++ value
    ∧ Reads Wire.readString key entry.1 ∧ Reads Wire.readBytes value entry.2

/-- **The bytes of a header** with metadata and a marker: the magic bytes, the
entries in chunks, and the marker. -/
structure Written (entries : List (String × List UInt8)) (sync : List UInt8)
    (bytes : List UInt8) : Prop where
  /-- The marker has sixteen bytes. -/
  length_sync : sync.length = 16
  /-- The bytes are these. -/
  exists_chunks : ∃ items chunks, bytes = magicBytes ++ chunks ++ sync
    ∧ Wire.Chunked items chunks ∧ List.Forall₂ Entry items entries

/-- The metadata that a writer writes, as bytes. -/
def writtenBytes (source : String) : List (String × List UInt8) :=
  [(codecKey, utf8 "null"), (schemaKey, utf8 source)]

/-- What a writer writes under the two keys. -/
theorem find?_writtenBytes (source : String) :
    Entries.find? schemaKey (Entries.ofList (writtenBytes source))
        = some (utf8 source)
      ∧ Entries.find? codecKey (Entries.ofList (writtenBytes source))
        = some (utf8 "null") := by
  rw [Entries.find?_ofList, Entries.find?_ofList]
  refine ⟨if_pos rfl, (if_neg ?_).trans (if_pos rfl)⟩
  decide

/-- **The header that a writer puts in front of a file** is one way to write
its metadata. -/
theorem written_headerBytes {s : Schema}
    (hsource : (utf8 s.source).length < 0x8000000000000000)
    {sync : List UInt8} (hsync : sync.length = 16) :
    Written (writtenBytes s.source) sync (s.headerBytes sync) := by
  have hentry : ∀ {key : String} {b : List UInt8},
      (utf8 key).length < 0x8000000000000000 →
      b.length < 0x8000000000000000 →
      Entry (Wire.string key ++ Wire.bytes b) (key, b) := fun hkey hb =>
    ⟨_, _, rfl, Wire.readString_string hkey, Wire.readBytes_bytes hb⟩
  have hchunks : Wire.Chunked
      [Wire.string codecKey ++ Wire.bytes (utf8 "null"),
        Wire.string schemaKey ++ Wire.bytes (utf8 s.source)] _ :=
    Wire.chunked_block (show 2 < 0x8000000000000000 by decide)
  refine ⟨hsync, _, _, ?_, hchunks,
    .cons (hentry (by cbv) (by cbv))
      (.cons (hentry (by cbv) hsource) .nil)⟩
  simp only [Schema.headerBytes, Wire.block, List.length_cons, List.length_nil,
    Nat.zero_add, Nat.reduceAdd, List.flatten_cons, List.flatten_nil,
    List.append_nil, List.append_assoc, if_neg (Nat.succ_ne_zero 1)]
  rfl

/-- The slot of the metadata that has received entries. -/
def held (entries : List (String × List UInt8)) : Slot :=
  .map (.bytes []) (entries.map fun entry => (entry.1, .bytes entry.2))

/-- The slot of a header. -/
def filled (magic : List UInt8) (entries : List (String × List UInt8))
    (sync : List UInt8) : Slot :=
  .record (FullName.mk "Header" space).text
    [.fixed magic, held entries, .fixed sync]

/-- The header in a slot. -/
theorem ofSlot_filled (magic : List UInt8)
    (entries : List (String × List UInt8)) (sync : List UInt8) :
    ofSlot (filled magic entries sync) = ⟨magic, entries, sync⟩ := by
  have hentries : (entries.map fun entry => (entry.1, Slot.bytes entry.2)).map
      (fun entry => (entry.1, bytesOf entry.2)) = entries := by
    rw [List.map_map]
    exact List.map_id entries
  exact congrArg (Header.mk magic · sync) hentries

end Header

/-- Inserting and then changing the values is changing the values and then
inserting. -/
theorem Entries.map_insert {α β : Type} (f : α → β) (key : String)
    (value : α) : ∀ entries : List (String × α),
    (insert key value entries).map (fun entry => (entry.1, f entry.2))
      = insert key (f value) (entries.map fun entry => (entry.1, f entry.2))
  | [] => rfl
  | (k, v) :: rest => by
    simp only [insert, List.map_cons]
    split
    · rfl
    · split
      · rfl
      · rw [List.map_cons, map_insert f key value rest]

namespace Header

open Plan (read set)

/-- The plan of an entry of the metadata. -/
def entryPlan : Plan :=
  .seq (read .string "Header.meta key")
    (.within ⟨.appendMap, 0, "Header.meta"⟩ "Header.meta"
      (.seq (read .bytes "Header.meta[]") (set .bytes "Header.meta[]")))

/-- The plan of a field of the header. -/
def fieldPlan (index : Nat) (label : String) (plan : Plan) : Plan :=
  .within ⟨.enter, Int64.ofNat index, label⟩ label plan

/-- The plan of the magic bytes or the marker. -/
def fixedPlan (size : Nat) (label : String) : Plan :=
  .seq (read (.fixed size) label) (set .bytes label)

theorem body_header :
    (Demand.deliver record.name record.name).body schema schema
      = Code.sequence
        [fieldPlan 0 "Header.magic" (fixedPlan 4 "Header.magic"),
          fieldPlan 1 "Header.meta" (.blocks "Header.meta" entryPlan),
          fieldPlan 2 "Header.sync" (fixedPlan 16 "Header.sync")] := by cbv

theorem mainPlan_header : mainPlan schema schema
    = .call (.deliver record.name record.name) := by cbv

section

variable {limit levels : Nat} {body : Demand → Plan}

/-- **An entry is read** into the slot of the metadata. -/
theorem eval_entry {item : List UInt8} {entry : String × List UInt8}
    (hentry : Entry item entry) (entries : List (String × List UInt8))
    (rest : Input) :
    ∃ frame, Plan.eval Slot.sink limit body (levels + 1) entryPlan .blank
        (rest.prepend item, held entries)
      = .ok frame (rest, held (Entries.insert entry.1 entry.2 entries)) := by
  obtain ⟨key, value, rfl, hkey, hvalue⟩ := hentry.reads
  have hkeyValue : Reads (Kind.readValue .string) key (.string entry.1) :=
    hkey.map Value.string
  have hread : Plan.eval Slot.sink limit body (levels + 1)
      (read .string "Header.meta key") .blank
      ((rest.prepend value).prepend key, held entries)
      = .ok (Frame.blank.after .string (.string entry.1))
        (rest.prepend value, held entries) :=
    Plan.eval_read_of_reads rfl hkeyValue _ _ _ _
  have hbytes : Reads (Kind.readValue .bytes) value (.bytes entry.2) :=
    hvalue.map Value.bytes
  have hset : (Slot.bytes []).set (.bytes entry.2)
      = .ok () (.bytes entry.2) := rfl
  obtain ⟨last, hlast⟩ : ∃ last, Plan.eval Slot.sink limit body levels
      (.seq (read .bytes "Header.meta[]") (set .bytes "Header.meta[]")) .blank
      (rest.prepend value, .bytes []) = .ok last (rest, .bytes entry.2) :=
    Plan.eval_slot_bytes rfl hbytes (fun _ => rfl) hset _ _ _
  have hput : held (Entries.insert entry.1 entry.2 entries)
      = .map (.bytes []) (Entries.insert entry.1 (.bytes entry.2)
        (entries.map fun entry => (entry.1, .bytes entry.2))) :=
    congrArg (Slot.map (.bytes []))
      (Entries.map_insert Slot.bytes entry.1 entry.2 entries)
  rw [Input.prepend_append, entryPlan, Plan.eval_seq_ok hread, hput]
  exact ⟨_, Plan.eval_slot_entry hlast _ _ _⟩

/-- **Entries are read one after another**, each in a round. -/
theorem onItems_entries {items : List (List UInt8)}
    {entries : List (String × List UInt8)}
    (h : List.Forall₂ Entry items entries)
    (before : List (String × List UInt8)) :
    OnItems (fun s r => Plan.beneath limit
        (Plan.evalBelow Slot.sink limit body (levels + 2)) entryPlan s = r)
      items (held before)
      (.ok () (held (entries.foldl
        (fun entries entry => Entries.insert entry.1 entry.2 entries)
        before))) := by
  induction h generalizing before with
  | nil => exact .done _
  | @cons item entry items entries hentry _ ih =>
    refine .next (fun rest => ?_) (ih _)
    obtain ⟨frame, heval⟩ := eval_entry hentry before rest
    exact Plan.beneath_ok heval

/-- **The metadata is read**: of a key that comes twice, the last entry
stays. -/
theorem eval_metadata {items : List (List UInt8)} {chunks : List UInt8}
    {entries : List (String × List UInt8)}
    (hchunks : Wire.Chunked items chunks)
    (hentries : List.Forall₂ Entry items entries) (rest : Input) :
    ∃ frame, Plan.eval Slot.sink limit body (levels + 2)
        (.blocks "Header.meta" entryPlan) .blank
        (rest.prepend chunks, held [])
      = .ok frame (rest, held (Entries.ofList entries)) := by
  have hitems : OnItems (fun s r => Plan.beneath limit
        (Plan.evalBelow Slot.sink limit body (levels + 2)) entryPlan s = r)
      items (held []) (.ok () (held (Entries.ofList entries))) :=
    onItems_entries hentries []
  have hloop := Running.blocks_chunked hchunks hitems rest
  rw [Plan.eval_eq, Plan.evalWith, Running.bind_ok hloop]
  exact ⟨_, rfl⟩

/-- Bytes of a length are read into a slot of their length. -/
theorem eval_fixed {b before : List UInt8} (hlength : b.length = before.length)
    {size : Nat} (hsize : before.length = size)
    (hkind : Kind.ofOperand? (Kind.fixed size).operand = some (.fixed size))
    (label : String) (rest : Input) :
    ∃ frame, Plan.eval Slot.sink limit body levels (fixedPlan size label)
        .blank (rest.prepend b, .fixed before)
      = .ok frame (rest, .fixed b) := by
  have hread : Reads (Wire.take size) b b := by
    rw [← hsize, ← hlength]
    exact Wire.take_prepend b
  have hset : (Slot.fixed before).set (.bytes b) = .ok () (.fixed b) := by
    simp only [Slot.set, if_pos hlength, Sink.accept]
  exact Plan.eval_slot_bytes hkind (hread.map Value.fixed) (fun _ => rfl) hset
    label .blank rest

/-- **The method of headers reads a header.** -/
theorem eval_body {entries : List (String × List UInt8)}
    {sync bytes : List UInt8} (h : Written entries sync bytes)
    (rest : Input) :
    ∃ frame, Plan.eval Slot.sink limit body (levels + 3)
        ((Demand.deliver record.name record.name).body schema schema) .blank
        (rest.prepend bytes, slot)
      = .ok frame
        (rest, filled magicBytes (Entries.ofList entries) sync) := by
  obtain ⟨items, chunks, rfl, hchunks, hentries⟩ := h.exists_chunks
  have hmagicLength : magicBytes.length = (List.replicate 4 (0 : UInt8)).length :=
    rfl
  have hsyncLength : sync.length = (List.replicate 16 (0 : UInt8)).length :=
    h.length_sync
  obtain ⟨_, hmagic⟩ : ∃ frame, Plan.eval Slot.sink limit body (levels + 2)
      (fixedPlan 4 "Header.magic") .blank
      (((rest.prepend sync).prepend chunks).prepend magicBytes, .zeros 4)
      = .ok frame ((rest.prepend sync).prepend chunks, .fixed magicBytes) :=
    eval_fixed hmagicLength rfl rfl _ _
  obtain ⟨_, hmeta⟩ : ∃ frame, Plan.eval Slot.sink limit body (levels + 2)
      (.blocks "Header.meta" entryPlan) .blank
      ((rest.prepend sync).prepend chunks, held [])
      = .ok frame (rest.prepend sync, held (Entries.ofList entries)) :=
    eval_metadata hchunks hentries _
  obtain ⟨_, hsync⟩ : ∃ frame, Plan.eval Slot.sink limit body (levels + 2)
      (fixedPlan 16 "Header.sync") .blank (rest.prepend sync, .zeros 16)
      = .ok frame (rest, .fixed sync) :=
    eval_fixed hsyncLength rfl rfl _ _
  have hfirst : Plan.eval Slot.sink limit body (levels + 3)
      (fieldPlan 0 "Header.magic" (fixedPlan 4 "Header.magic")) .blank
      (((rest.prepend sync).prepend chunks).prepend magicBytes, slot)
      = .ok .blank ((rest.prepend sync).prepend chunks, filled magicBytes []
        (List.replicate 16 0)) :=
    Plan.eval_slot_field (by decide) rfl hmagic _ _ _
  have hsecond : Plan.eval Slot.sink limit body (levels + 3)
      (fieldPlan 1 "Header.meta" (.blocks "Header.meta" entryPlan)) .blank
      ((rest.prepend sync).prepend chunks, filled magicBytes []
        (List.replicate 16 0))
      = .ok .blank (rest.prepend sync, filled magicBytes
        (Entries.ofList entries) (List.replicate 16 0)) :=
    Plan.eval_slot_field (by decide) rfl hmeta _ _ _
  have hthird : Plan.eval Slot.sink limit body (levels + 3)
      (fieldPlan 2 "Header.sync" (fixedPlan 16 "Header.sync")) .blank
      (rest.prepend sync, filled magicBytes (Entries.ofList entries)
        (List.replicate 16 0))
      = .ok .blank (rest, filled magicBytes (Entries.ofList entries) sync) :=
    Plan.eval_slot_field (by decide) rfl hsync _ _ _
  rw [body_header, Input.prepend_append, Input.prepend_append]
  exact ⟨_, (Plan.eval_seq_ok hfirst _).trans
    ((Plan.eval_seq_ok hsecond _).trans hthird)⟩

end

/-! ## The program of headers -/

/-- The only record of the schema of headers. -/
theorem eq_record {r : RecordType} (h : .record r ∈ schema.definitions) :
    r = record := by
  simp only [schema, List.mem_cons, List.not_mem_nil, or_false,
    Definition.record.injEq, reduceCtorEq] at h
  exact h

/-- The fields of a header have no defaults, and their types are a map or
have definitions. -/
theorem field_cases {f : Field} (h : f ∈ record.fields) :
    f.default = none ∧ f.type.NamesIn (schema.definitions.map (·.name))
      ∧ f.type.PicksItself schema := by
  have hnames : ∀ name ∈ schema.definitions.map (·.name),
      (TypeExpr.named name).NamesIn (schema.definitions.map (·.name)) :=
    fun _ hname => hname
  simp only [record, List.mem_cons, List.not_mem_nil, or_false] at h
  rcases h with rfl | rfl | rfl
  · exact ⟨rfl, hnames ⟨"Magic", space⟩ (by decide), trivial⟩
  · exact ⟨rfl, trivial, trivial⟩
  · exact ⟨rfl, hnames ⟨"Sync", space⟩ (by decide), trivial⟩

theorem wellFormed : schema.WellFormed where
  regular d hd := by
    have hplain : '.' ∉ d.name.name.toList := by
      simp only [schema, List.mem_cons, List.not_mem_nil, or_false] at hd
      rcases hd with rfl | rfl | rfl <;> decide
    refine ⟨hplain, fun r hr => ?_, fun r hr f hf j hj => ?_⟩
    · subst hr
      rw [eq_record hd]
      decide
    · subst hr
      rw [eq_record hd] at hf
      rw [(field_cases hf).1] at hj
      exact absurd hj (by simp)
  root := List.mem_cons_self
  field _ hr _ hf := (field_cases (eq_record hr ▸ hf)).2.1

/-- The schema of headers has no unions. -/
theorem picksItself : schema.PicksItself where
  root := trivial
  field _ hr _ hf := (field_cases (eq_record hr ▸ hf)).2.2

theorem size_compile : (compile schema schema).map (fun p =>
    (p.instructions.size, p.errors.length)) = .ok (31, 0) := by decide +kernel

/-- **The program of headers reads a header**, and nothing after it. -/
theorem program_yields : ∃ p, compile schema schema = .ok p
    ∧ ∀ {maxDepth : Nat}, 4 ≤ maxDepth →
      ∀ {entries : List (String × List UInt8)} {sync bytes : List UInt8},
      Written entries sync bytes → ∀ rest : Input,
      p.Yields Slot.sink maxDepth (rest.prepend bytes) slot
        ⟨.ok (), rest, filled magicBytes (Entries.ofList entries) sync⟩ := by
  obtain ⟨p, hp, hsize⟩ := exists_of_map_ok size_compile
  obtain ⟨hsize, hmessages⟩ := Prod.mk.inj hsize
  refine ⟨p, hp, fun {maxDepth} hdepth {entries sync bytes} h rest => ?_⟩
  obtain ⟨R, address, code, -, -, hrealizes, hlinked, hcode⟩ :=
    compile_realizes (picksItself.encloses wellFormed)
      (Demand.namesTellApart_itself wellFormed) hp ⟨by omega, by omega⟩
  have hyields := hrealizes.yields Slot.sink maxDepth hlinked hcode
    (rest.prepend bytes, slot)
  obtain ⟨levels, rfl⟩ : ∃ levels, maxDepth = levels + 4 :=
    ⟨maxDepth - 4, by omega⟩
  obtain ⟨frame, hbody⟩ : ∃ frame, Plan.eval Slot.sink (levels + 4)
      (Demand.body schema schema) (levels + 3)
      ((Demand.deliver record.name record.name).body schema schema) .blank
      (rest.prepend bytes, slot)
      = .ok frame (rest, filled magicBytes (Entries.ofList entries) sync) :=
    eval_body h rest
  rw [mainPlan_header, Plan.eval_eq, Plan.evalWith,
    Running.bind_ok (Plan.beneath_ok hbody)] at hyields
  exact hyields

end Header

/-! ## Opening -/

namespace Reader

/-- **A reader of a header's records** has the program of the schema in the
header and the schema asked for. -/
theorem ofHeader_ok {header : Header} {source : String} {writer : Schema}
    {p : Program} {reader : Option Schema}
    (hcodec : Entries.find? Header.codecKey header.metadata = none
      ∨ Entries.find? Header.codecKey header.metadata = some (utf8 "null"))
    (hsource : Entries.find? Header.schemaKey header.metadata
      = some (utf8 source))
    (hwriter : Schema.parse source = .ok writer)
    (hp : compile writer (reader.getD writer) = .ok p) (input : Input)
    (maxDepth : Nat) :
    ofHeader header input reader maxDepth
      = .ok ⟨input, writer, reader.getD writer, header.metadata, p, maxDepth,
        header.sync, 0, 0, false⟩ := by
  rcases hcodec with h | h <;>
    simp only [ofHeader, h, hsource, Wire.textOfBytes?_utf8, Option.getD_some,
      bind, Except.bind, pure, Except.pure, hwriter, hp, Except.mapError,
      ne_eq, not_true_eq_false, if_false]

/-- **A file that begins with a header is opened**, and the reader stands
behind the header. -/
theorem start_header {entries : List (String × List UInt8)}
    {sync bytes : List UInt8} (h : Header.Written entries sync bytes)
    {source : String} {writer : Schema} {p : Program}
    {reader : Option Schema}
    (hcodec : Entries.find? Header.codecKey (Entries.ofList entries) = none
      ∨ Entries.find? Header.codecKey (Entries.ofList entries)
        = some (utf8 "null"))
    (hsource : Entries.find? Header.schemaKey (Entries.ofList entries)
      = some (utf8 source))
    (hwriter : Schema.parse source = .ok writer)
    (hp : compile writer (reader.getD writer) = .ok p) {maxDepth : Nat}
    (hdepth : 4 ≤ maxDepth) (rest : Input) :
    ∃ enough, ∀ steps, enough ≤ steps →
      start (rest.prepend bytes) reader maxDepth steps
        = some (.ok ⟨rest, writer, reader.getD writer, Entries.ofList entries,
          p, maxDepth, sync, 0, 0, false⟩) := by
  obtain ⟨q, hq, hruns⟩ := Header.program_yields
  obtain ⟨enough, hruns⟩ := hruns hdepth h rest
  refine ⟨enough, fun steps hsteps => ?_⟩
  unfold start
  simp only [hq, hruns steps hsteps, Option.map_some, Header.ofSlot_filled]
  rw [if_neg (by simp), ofHeader_ok hcodec hsource hwriter hp]

end Reader

end Avro
