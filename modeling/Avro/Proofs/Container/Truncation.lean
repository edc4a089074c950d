import Avro.Proofs.Container.Partial

/-!
# Container files that are cut off

A file that a writer has written is cut off somewhere, because the stream ends
there or because the device fails. Inside the header it is not opened
(`Reader.start_part`). Behind it, the iteration gives the values of the first
records, as the whole file does, and then one error, or none: none just if the
stream ends at the end of the header or of a block (`Reader.iterates_cut`).

Records have to take all of their bytes for that. If one does not, the marker
of the file may be found in the midst of it, and a file that is cut off there
is read as if it were complete (`Arrows.lost_end`).
-/

namespace Avro

namespace Reader

variable {sync : List UInt8}

/-! ## Opening a file that is cut off -/

/-- **A header that is cut off is not read**, under any limit on levels. -/
theorem start_part {s : Schema} (hsource : (utf8 s.source).length
      < 0x8000000000000000) (hsync : sync.length = 16) {cut : List UInt8}
    (hcut : cut <+: s.headerBytes sync) (hproper : cut ≠ s.headerBytes sync)
    (ending : Ending) (reader : Option Schema) (maxDepth : Nat) :
    ∃ e enough, ∀ steps, enough ≤ steps →
      start ⟨cut, ending⟩ reader maxDepth steps = some (.error e) := by
  obtain ⟨q, hq, hruns⟩ := Header.program_yields
  have hfits : q.Fits := by
    obtain ⟨q', hq', hsize⟩ := exists_of_map_ok Header.size_compile
    obtain rfl := Except.ok.inj (hq.symm.trans hq')
    obtain ⟨hsize, hmessages⟩ := Prod.mk.inj hsize
    exact ⟨by omega, by omega⟩
  have hwritten := Header.written_headerBytes hsource hsync
  -- With levels enough, the run fails because the bytes end.
  obtain ⟨enough, hrun⟩ := hruns (Nat.le_max_right maxDepth 4) hwritten
    (Input.ofBytes [])
  obtain ⟨e, left, _, _, hfails, -⟩ :=
    Program.run_cut (hrun enough (Nat.le_refl _)) hcut hproper ending
  -- With fewer levels it fails as well, perhaps because of them.
  obtain ⟨o, ho⟩ := Plan.program_terminates
    (encloses_ofRecords Header.schema Header.schema) hq hfits Slot.sink maxDepth
    ⟨cut, ending⟩ Header.slot
  obtain ⟨e', he'⟩ : ∃ e', o.result = .error e' := by
    rcases ho.raise_limit (Nat.le_max_left maxDepth 4) with ⟨e', he', -⟩ | hmore
    · exact ⟨e', he'⟩
    · rw [← hmore.eq_of_run hfails]
      exact ⟨e, rfl⟩
  obtain ⟨enough, ho⟩ := ho
  by_cases hmagic : (Header.ofSlot o.state).magic ≠ Header.magicBytes
  · refine ⟨.badMagic, enough, fun steps hsteps => ?_⟩
    unfold start
    simp only [hq, ho steps hsteps, Option.map_some]
    rw [if_pos hmagic]
  · refine ⟨.execution e', enough, fun steps hsteps => ?_⟩
    unfold start
    simp only [hq, ho steps hsteps, Option.map_some]
    rw [if_neg hmagic, he']

end Reader

/-! ## Files that were written -/

/-- **What a writer has written** when it is opened on an output that takes
everything, calls are made, and it is closed. -/
def Writer.Writes (s : Schema) (sync : List UInt8) (recordsPerBlock : Nat)
    (calls : List WriterCall) (file : List UInt8) : Prop :=
  ∃ w output answers w' closed,
    Writer.start (Output.empty none) s sync recordsPerBlock = (.ok w, output)
    ∧ w.performAll calls = (answers, w')
    ∧ w'.close = .ok closed
    ∧ closed.written = file

/-- The values of a file, block by block. -/
def Schema.blocksOf (s : Schema) (recordsPerBlock : Nat)
    (calls : List WriterCall) : List (List Value) :=
  (calls.foldl (WriterCall.apply s (max 1 recordsPerBlock)) .none).close.closed

theorem Schema.blocked_blocksOf (s : Schema) (recordsPerBlock : Nat)
    (calls : List WriterCall) :
    s.Blocked (max 1 recordsPerBlock) calls (s.blocksOf recordsPerBlock calls) :=
  have hsize : 0 < max 1 recordsPerBlock := by omega
  ((Batches.of_none hsize).foldl hsize calls).blocked hsize

/-- A writer writes one file. -/
theorem Writer.Writes.unique {s : Schema} {sync : List UInt8}
    {recordsPerBlock : Nat} {calls : List WriterCall} {file file' : List UInt8}
    (h : Writer.Writes s sync recordsPerBlock calls file)
    (h' : Writer.Writes s sync recordsPerBlock calls file') : file = file' := by
  obtain ⟨w, output, answers, w', closed, hstart, hcalls, hclose, rfl⟩ := h
  obtain ⟨v, _, _, v', closed', hstart', hcalls', hclose', rfl⟩ := h'
  obtain rfl := Except.ok.inj (Prod.mk.inj (hstart.symm.trans hstart')).1
  obtain rfl := (Prod.mk.inj (hcalls.symm.trans hcalls')).2
  obtain rfl := Except.ok.inj (hclose.symm.trans hclose')
  rfl

/-- **A writer writes its header and the blocks of its calls.** -/
theorem Writer.writes_blocksOf (s : Schema) {sync : List UInt8}
    (hsync : sync.length = 16) (recordsPerBlock : Nat)
    (calls : List WriterCall) :
    Writer.Writes s sync recordsPerBlock calls (s.headerBytes sync
      ++ (s.blocksOf recordsPerBlock calls).flatMap (s.blockBytes sync)) := by
  have hunlimited : (Output.empty none).capacity = none := rfl
  obtain ⟨w, hstart, hw⟩ := start_carries s hsync recordsPerBlock hunlimited
  obtain ⟨w', hcalls, hw'⟩ := hw.performAll calls
  obtain ⟨w'', hclose, hw''⟩ := hw'.writeBlock
  refine ⟨w, _, _, w', w''.output, hstart, hcalls, ?_, ?_⟩
  · unfold close flush
    rw [hclose]
  · rw [hw''.output]
    rfl

/-- The blocks of a file that is not too long can be counted. -/
theorem Schema.Blocked.countable {s : Schema} {sync : List UInt8} {size : Nat}
    {calls : List WriterCall} {blocks : List (List Value)}
    (h : s.Blocked size calls blocks)
    (hcalls : calls.length < 0x8000000000000000)
    (hbytes : (blocks.flatMap (s.blockBytes sync)).length
      < 0x8000000000000000) :
    ∀ block ∈ blocks, block ≠ [] ∧ s.Countable block := by
  intro block hblock
  obtain ⟨before, after, rfl⟩ := List.append_of_mem hblock
  refine ⟨h.nonempty block hblock, ?_, ?_⟩
  · have hall : block.length ≤ (s.accepted calls).length := by
      rw [← h.values, List.flatten_append, List.flatten_cons]
      simp only [List.length_append]
      omega
    have haccepted : (s.accepted calls).length ≤ calls.length :=
      List.length_filterMap_le _ _
    omega
  · rw [List.flatMap_append, List.flatMap_cons] at hbytes
    simp only [List.length_append, Schema.blockBytes] at hbytes
    omega

/-- **A file that is cut off behind its header** is opened, and its iteration
gives the first values, and then a fault or none. -/
theorem Reader.iterates_behind {s : Schema}
    (hs : Schema.parse s.source = .ok s) {reader : Option Schema} {p : Program}
    (hp : compile s (reader.getD s) = .ok p) {maxDepth : Nat}
    (hdepth : 4 ≤ maxDepth) {sync : List UInt8} (hsync : sync.length = 16)
    (hsource : (utf8 s.source).length < 0x8000000000000000)
    {blocks : List (List Value)}
    (hblocks : ∀ block ∈ blocks, block ≠ [] ∧ s.Countable block)
    {received : List Value}
    (hdecodes : List.Forall₂ (fun v v' =>
      p.Decodes (reader.getD s) maxDepth (s.encode v).bytes v')
      blocks.flatten received) {rest : List UInt8} (ending : Ending)
    (hrest : rest <+: blocks.flatMap (s.blockBytes sync)) :
    ∃ r got fault enough, got <+: received
      ∧ (fault = none
        ↔ ending = .endOfInput ∧ s.EndsBlock sync [] blocks rest)
      ∧ (ending = .endOfInput → rest = s.ahead sync [] blocks →
        got = received)
      ∧ ∀ steps, enough ≤ steps →
        Reader.start ⟨s.headerBytes sync ++ rest, ending⟩ reader maxDepth steps
          = some (.ok r)
        ∧ ∀ count, Reader.iterate steps count r
          = some ((answered got fault
            ++ List.replicate count (Except.ok none)).take count) := by
  obtain ⟨enough, hstart⟩ := Reader.start_header
    (Header.written_headerBytes hsource hsync)
    (.inr (Header.find?_writtenBytes _).2) (Header.find?_writtenBytes _).1 hs
    hp hdepth ⟨rest, ending⟩
  -- Behind the header a reader stands in front of all the blocks.
  have hcut : Reader.Cut s (reader.getD s) p maxDepth sync ending [] blocks rest
      ⟨⟨rest, ending⟩, s, reader.getD s,
        Entries.ofList (Header.writtenBytes s.source), p, maxDepth, sync, 0, 0,
        false⟩ :=
    ⟨rfl, rfl, rfl, rfl, rfl, rfl, hblocks, rfl, hrest⟩
  obtain ⟨got, fault, enough', hgot, hfault, hwhole, hanswers⟩ :=
    hcut.iterate hsync hdecodes
  exact ⟨_, got, fault, max enough enough', hgot, hfault, hwhole,
    fun steps hsteps =>
      ⟨hstart steps (by omega), hanswers steps (by omega)⟩⟩

/-- **A file that is cut off gives no wrong data.** A writer has written a file,
and each of its records decodes to a value, all of its bytes being taken.

* The file itself is opened, and its iteration gives these values and then
  nothing.
* Cut off inside the header, it is not opened, under any limit on levels.
* Cut off behind the header, it is opened, and its iteration gives the first
  ones of these values, then a fault if there is one, and then nothing. There
  is none just if the stream ends, and does so at the end of the header or of a
  block.

Whether the stream ends at the cut or the device fails there is left open. -/
theorem Reader.iterates_cut {s : Schema}
    (hs : Schema.parse s.source = .ok s) {reader : Option Schema} {p : Program}
    (hp : compile s (reader.getD s) = .ok p) {maxDepth : Nat}
    (hdepth : 4 ≤ maxDepth) {sync : List UInt8} (hsync : sync.length = 16)
    {recordsPerBlock : Nat} {calls : List WriterCall} {file : List UInt8}
    (hfile : Writer.Writes s sync recordsPerBlock calls file)
    (hlength : file.length < 0x8000000000000000)
    (hcalls : calls.length < 0x8000000000000000) {received : List Value}
    (hdecodes : List.Forall₂ (fun v v' =>
      p.Decodes (reader.getD s) maxDepth (s.encode v).bytes v')
      (s.accepted calls) received) :
    ∃ blocks, s.Blocked (max 1 recordsPerBlock) calls blocks
      ∧ file = s.headerBytes sync ++ blocks.flatMap (s.blockBytes sync)
      ∧ (∃ r enough, ∀ steps, enough ≤ steps →
        Reader.start (Input.ofBytes file) reader maxDepth steps = some (.ok r)
        ∧ ∀ count, Reader.iterate steps count r
          = some ((answered received none
            ++ List.replicate count (Except.ok none)).take count))
      ∧ ∀ (cut : List UInt8) (ending : Ending), cut <+: file →
        (cut.length < (s.headerBytes sync).length →
          ∀ limit, ∃ e enough, ∀ steps, enough ≤ steps →
            Reader.start ⟨cut, ending⟩ reader limit steps = some (.error e))
        ∧ ((s.headerBytes sync).length ≤ cut.length →
          ∃ r got fault enough, got <+: received
            ∧ (fault = none ↔ ending = .endOfInput
              ∧ ∃ m, cut = s.headerBytes sync
                ++ (blocks.take m).flatMap (s.blockBytes sync))
            ∧ ∀ steps, enough ≤ steps →
              Reader.start ⟨cut, ending⟩ reader maxDepth steps = some (.ok r)
              ∧ ∀ count, Reader.iterate steps count r
                = some ((answered got fault
                  ++ List.replicate count (Except.ok none)).take count)) := by
  obtain rfl := hfile.unique
    (Writer.writes_blocksOf s hsync recordsPerBlock calls)
  have hblocked := s.blocked_blocksOf recordsPerBlock calls
  generalize s.blocksOf recordsPerBlock calls = blocks at *
  rw [List.length_append] at hlength
  have hsource : (utf8 s.source).length < 0x8000000000000000 := by
    have : (utf8 s.source).length ≤ (s.headerBytes sync).length := by
      simp only [Schema.headerBytes, Wire.bytes, List.length_append]
      omega
    omega
  have hblocks : ∀ block ∈ blocks, block ≠ [] ∧ s.Countable block :=
    hblocked.countable hcalls (Nat.lt_of_le_of_lt (Nat.le_add_left _ _) hlength)
  rw [← hblocked.values] at hdecodes
  refine ⟨blocks, hblocked, rfl, ?_, fun cut ending hcut =>
    ⟨fun hinside limit => ?_, fun hbehind => ?_⟩⟩
  · -- The whole file ends at the end of its last block.
    obtain ⟨r, got, fault, enough, -, hfault, hwhole, hanswers⟩ :=
      Reader.iterates_behind hs hp hdepth hsync hsource hblocks hdecodes
        .endOfInput (List.prefix_refl _)
    obtain rfl := hwhole rfl rfl
    obtain rfl := hfault.mpr ⟨rfl, blocks.length, by rw [List.take_length]; rfl⟩
    exact ⟨r, enough, hanswers⟩
  · rcases proper_or_append hcut with ⟨hpart, hproper⟩ | ⟨rest, rfl, -⟩
    · exact Reader.start_part hsource hsync hpart hproper ending reader limit
    · rw [List.length_append] at hinside
      omega
  · rcases proper_or_append hcut with ⟨hpart, hproper⟩ | ⟨rest, rfl, hrest⟩
    · have := length_lt_of_proper hpart hproper
      omega
    · obtain ⟨r, got, fault, enough, hgot, hfault, -, hanswers⟩ :=
        Reader.iterates_behind hs hp hdepth hsync hsource hblocks hdecodes
          ending hrest
      refine ⟨r, got, fault, enough, hgot, hfault.trans ?_, hanswers⟩
      simp only [Schema.EndsBlock, Schema.ahead_nil,
        List.append_cancel_left_eq]

/-! ### A file of numbers that is cut off -/

namespace Numbers

/-- The file that a writer writes. -/
def written : List UInt8 :=
  schema.headerBytes (List.replicate 16 7)
    ++ (schema.blocksOf 2 calls).flatMap
      (schema.blockBytes (List.replicate 16 7))

theorem length_written : written.length = 114 := by decide +kernel

/-- Whether a number is read from what is written for it. -/
def reads (p : Program) (n : Int32) : Bool :=
  (p.run (Builder.sink schema) 4 10
      (Input.ofBytes (schema.encode (.int n)).bytes)
      (Builder.fresh schema schema.root)).any fun o =>
    o.result.toOption.isSome && decide (o.input = Input.ofBytes [])
      && match o.state.value? schema with
        | .ok (.int m) => m == n
        | _ => false

theorem decodes_of_reads {p : Program} {n : Int32} (h : reads p n = true) :
    p.Decodes schema 4 (schema.encode (.int n)).bytes (.int n) := by
  obtain ⟨o, hrun, htests⟩ := (Option.any_eq_true _ _).mp h
  obtain ⟨ho, hvalue⟩ := Outcome.eq_of_tests htests
  rw [ho] at hrun
  refine ⟨o.state, .of_run hrun, ?_⟩
  split at hvalue
  · next m hm => rw [hm, eq_of_beq hvalue]
  · exact absurd hvalue (by simp)

theorem reads_all : (compile schema schema).toOption.any (fun p =>
    reads p 1 && reads p 2 && reads p 3 && reads p 4) = true := by
  decide +kernel

/-- The program that reads the numbers of the file. -/
theorem exists_decodes : ∃ p, compile schema schema = .ok p
    ∧ List.Forall₂
      (fun v v' => p.Decodes schema 4 (schema.encode v).bytes v')
      (schema.accepted calls) [.int 1, .int 2, .int 3, .int 4] := by
  obtain ⟨p, hp, hreads⟩ := (Option.any_eq_true _ _).mp reads_all
  simp only [Bool.and_eq_true] at hreads
  obtain ⟨⟨⟨h₁, h₂⟩, h₃⟩, h₄⟩ := hreads
  exact ⟨p, toOption_eq_some hp, .cons (decodes_of_reads h₁)
    (.cons (decodes_of_reads h₂) (.cons (decodes_of_reads h₃)
      (.cons (decodes_of_reads h₄) .nil)))⟩

end Numbers

/-- The file of four numbers, in blocks of two, one, and one, cut off
anywhere. -/
theorem Reader.iterates_cut_numbers : ∃ p,
    compile Numbers.schema Numbers.schema = .ok p
    ∧ Writer.Writes Numbers.schema (List.replicate 16 7) 2 Numbers.calls
      Numbers.written
    ∧ List.Forall₂ (fun v v' =>
        p.Decodes Numbers.schema 4 (Numbers.schema.encode v).bytes v')
      (Numbers.schema.accepted Numbers.calls)
      [.int 1, .int 2, .int 3, .int 4]
    ∧ ∃ blocks, Numbers.schema.Blocked 2 Numbers.calls blocks
      ∧ Numbers.written = Numbers.schema.headerBytes (List.replicate 16 7)
        ++ blocks.flatMap (Numbers.schema.blockBytes (List.replicate 16 7))
      ∧ (∃ r enough, ∀ steps, enough ≤ steps →
        Reader.start (Input.ofBytes Numbers.written) none 4 steps
          = some (.ok r)
        ∧ ∀ count, Reader.iterate steps count r
          = some ((answered [.int 1, .int 2, .int 3, .int 4] none
            ++ List.replicate count (Except.ok none)).take count))
      ∧ ∀ (cut : List UInt8) (ending : Ending), cut <+: Numbers.written →
        (cut.length
            < (Numbers.schema.headerBytes (List.replicate 16 7)).length →
          ∀ limit, ∃ e enough, ∀ steps, enough ≤ steps →
            Reader.start ⟨cut, ending⟩ none limit steps = some (.error e))
        ∧ ((Numbers.schema.headerBytes (List.replicate 16 7)).length
            ≤ cut.length →
          ∃ r got fault enough, got <+: [.int 1, .int 2, .int 3, .int 4]
            ∧ (fault = none ↔ ending = .endOfInput
              ∧ ∃ m, cut = Numbers.schema.headerBytes (List.replicate 16 7)
                ++ (blocks.take m).flatMap
                  (Numbers.schema.blockBytes (List.replicate 16 7)))
            ∧ ∀ steps, enough ≤ steps →
              Reader.start ⟨cut, ending⟩ none 4 steps = some (.ok r)
              ∧ ∀ count, Reader.iterate steps count r
                = some ((answered got fault
                  ++ List.replicate count (Except.ok none)).take count)) := by
  obtain ⟨p, hp, hdecodes⟩ := Numbers.exists_decodes
  have hwrites : Writer.Writes Numbers.schema (List.replicate 16 7) 2
      Numbers.calls Numbers.written :=
    Writer.writes_blocksOf Numbers.schema List.length_replicate 2 Numbers.calls
  have hlength : Numbers.written.length < 0x8000000000000000 := by
    rw [Numbers.length_written]
    decide
  exact ⟨p, hp, hwrites, hdecodes,
    @Reader.iterates_cut Numbers.schema Numbers.parse_source none p hp 4
      (Nat.le_refl 4) _ List.length_replicate 2 Numbers.calls _ hwrites hlength
      (by decide) _ hdecodes⟩

/-! ## A marker inside a record

The items of an array of eight are read by the method of another record, each
as bytes behind their number. Eight zeros are then eight items and one more is
the end of the array, and what follows them in the record is the marker. The
rest of the record reads as a block without records. -/

namespace Arrows

/-- The bytes of the eight items: nine zeros, the marker, and what reads as a
count of zero and a size. -/
def hiddenItems : List (List UInt8) :=
  [[0, 0, 0, 0], [0, 0, 0, 0], [0, 7, 7, 7], [7, 7, 7, 7], [7, 7, 7, 7],
    [7, 7, 7, 7], [7, 0, 128, 128], [128, 128, 128, 128]]

/-- The record. -/
def hidden : Value :=
  .union 1 (.array (hiddenItems.map fun bytes =>
    .record [("x", .float (Binary32.ofBytes bytes))]))

/-- The block of the record. -/
def hiddenBlock : List UInt8 := writer.blockBytes marker [hidden]

/-- The block up to the marker inside the record. -/
def hiddenPart : List UInt8 := hiddenBlock.take 29

theorem encode_hidden : (writer.encode hidden).fault = none := by
  decide +kernel

theorem length_hiddenBlock : hiddenBlock.length = 53 := by decide +kernel

theorem blocksOf_hidden :
    writer.blocksOf 100 [.append hidden] = [[hidden]] := by
  simp [Schema.blocksOf, WriterCall.apply, Batches.add, Batches.close,
    Batches.none, encode_hidden]

/-- Whether an iteration gives an array of eight items, and then ends. -/
def givesHidden (answers : Option (List (Except ContainerError (Option Value)))) :
    Bool :=
  match answers with
  | some [.ok (some v), .ok none] => v.equals (received 8)
  | _ => false

theorem gives_both : (compile writer reader).toOption.any (fun p =>
    givesHidden (Reader.iterate 100 2
        (opened p (Input.ofBytes hiddenBlock) 0 0))
      && givesHidden (Reader.iterate 100 2
        (opened p (Input.ofBytes hiddenPart) 0 0))) = true := by
  decide +kernel

/-- What is found out by running. -/
theorem exists_of_givesHidden
    {answers : Option (List (Except ContainerError (Option Value)))}
    (h : givesHidden answers = true) :
    ∃ v, v.equals (received 8) = true
      ∧ answers = some [.ok (some v), .ok none] := by
  unfold givesHidden at h
  split at h
  · next v => exact ⟨v, h, rfl⟩
  · exact absurd h (by simp)

/-- A reader of the record and of what is behind it, from the header on. -/
theorem start_opened {p : Program} (hp : compile writer reader = .ok p)
    {rest : List UInt8}
    (h : givesHidden (Reader.iterate 100 2
      (opened p (Input.ofBytes rest) 0 0)) = true) :
    ∃ r v enough, v.equals (received 8) = true
      ∧ ∀ steps, enough ≤ steps →
        Reader.start (Input.ofBytes (writer.headerBytes marker ++ rest))
            (some reader) 1000 steps = some (.ok r)
          ∧ Reader.iterate steps 2 r = some [.ok (some v), .ok none] := by
  obtain ⟨v, hv, hanswers⟩ := exists_of_givesHidden h
  obtain ⟨enough, hstart⟩ := @Reader.start_header _ _ _
    (Header.written_headerBytes length_source List.length_replicate) _ _ p
    (some reader) file_cut.codec file_cut.schema parse_written hp 1000
    (by decide) (Input.ofBytes rest)
  exact ⟨opened p (Input.ofBytes rest) 0 0, v, max enough 100, hv,
    fun steps hsteps => ⟨hstart steps (by omega),
      Reader.iterate_mono (by omega) hanswers⟩⟩

/-- The part is not the end of a block. -/
theorem not_endsBlock_hiddenPart (m : Nat) :
    hiddenPart ≠ (([[hidden]] : List (List Value)).take m).flatMap
      (writer.blockBytes marker) := by
  have hpart : hiddenPart.length = 29 := by
    rw [hiddenPart, List.length_take, length_hiddenBlock]
    decide
  intro heq
  cases m with
  | zero =>
    rw [heq] at hpart
    exact absurd hpart (by simp)
  | succ m =>
    have hall : (([[hidden]] : List (List Value)).take (m + 1)).flatMap
        (writer.blockBytes marker) = hiddenBlock := by
      simp [hiddenBlock]
    rw [heq, hall, length_hiddenBlock] at hpart
    exact absurd hpart (by decide)

end Arrows

/-- **An end that is lost**: a file of one record and a part of it that ends
inside the record give the same value, and then nothing. -/
theorem Arrows.lost_end :
    (∃ source, Schema.parse source = .ok Arrows.reader)
    ∧ Schema.parse Arrows.writer.source = .ok Arrows.writer
    ∧ ∃ p file part, compile Arrows.writer Arrows.reader = .ok p
      ∧ Writer.Writes Arrows.writer Arrows.marker 100 [.append Arrows.hidden]
        file
      ∧ file = Arrows.writer.headerBytes Arrows.marker
        ++ [[Arrows.hidden]].flatMap (Arrows.writer.blockBytes Arrows.marker)
      ∧ part <+: file
      ∧ (∀ m, part ≠ Arrows.writer.headerBytes Arrows.marker
        ++ ([[Arrows.hidden]].take m).flatMap
          (Arrows.writer.blockBytes Arrows.marker))
      ∧ ∀ bytes ∈ [file, part], ∃ r v enough,
        v.equals (Arrows.received 8) = true
        ∧ ∀ steps, enough ≤ steps →
          Reader.start (Input.ofBytes bytes) (some Arrows.reader) 1000 steps
            = some (.ok r)
          ∧ Reader.iterate steps 2 r = some [.ok (some v), .ok none] := by
  refine ⟨⟨_, Arrows.parse_read⟩, Arrows.parse_written, ?_⟩
  obtain ⟨p, hp, hgives⟩ := (Option.any_eq_true _ _).mp Arrows.gives_both
  obtain ⟨hwhole, hpart⟩ := Bool.and_eq_true_iff.mp hgives
  have hp := toOption_eq_some hp
  have hblock : [[Arrows.hidden]].flatMap
      (Arrows.writer.blockBytes Arrows.marker) = Arrows.hiddenBlock := by
    simp [Arrows.hiddenBlock]
  have hmarker : Arrows.marker.length = 16 := List.length_replicate
  have hwrites := Writer.writes_blocksOf Arrows.writer hmarker 100
    [.append Arrows.hidden]
  rw [Arrows.blocksOf_hidden, hblock] at hwrites
  refine ⟨p, _, Arrows.writer.headerBytes Arrows.marker ++ Arrows.hiddenPart,
    hp, hwrites, by rw [hblock], ?_, fun m heq => ?_, ?_⟩
  · exact (List.prefix_append_right_inj _).mpr (List.take_prefix _ _)
  · exact Arrows.not_endsBlock_hiddenPart m (List.append_cancel_left heq)
  · simp only [List.forall_mem_cons]
    exact ⟨Arrows.start_opened hp hwhole, Arrows.start_opened hp hpart,
      fun _ h => absurd h List.not_mem_nil⟩

end Avro
