import Avro.Proofs.Container.Reading
import Avro.Proofs.Machine.Truncation

/-!
# Reading a part of what was written

A reader stands in front of the values that are left of a block and of the
blocks behind it, of which only the first bytes are there (`Reader.Cut`). What
it does is looked at in three steps: looking for a record (`Cut.seekRecord`),
reading one (`Cut.readInto`), and the answer that is made of both (`Cut.next`).
The iteration is an induction on the values (`Cut.iterate`).

Records mark their own ends. A record that is decoded from all of its bytes
fails over a part of them, so the only bytes after which nothing is missed are
those in front of a block (`Schema.EndsBlock`), where the reader asks whether
there is anything left. That every record takes all of its bytes is asked for
(`Program.Decodes`): a record that leaves some hands them to whatever is read
next.
-/

namespace Avro

/-! ## Records that take all of their bytes -/

/-- **A record decodes to a value**: a run over its bytes takes all of them,
and gives the value. -/
def Program.Decodes (p : Program) (reader : Schema) (maxDepth : Nat)
    (bytes : List UInt8) (v : Value) : Prop :=
  ∃ built, p.Yields (Builder.sink reader) maxDepth (Input.ofBytes bytes)
      (Builder.fresh reader reader.root) ⟨.ok (), Input.ofBytes [], built⟩
    ∧ built.value? reader = .ok v

namespace Program.Decodes

variable {p : Program} {reader : Schema} {maxDepth : Nat}
  {bytes cut : List UInt8} {v : Value}

/-- A record is decoded in front of anything. -/
theorem whole (h : p.Decodes reader maxDepth bytes v) (rest : Input) :
    ∃ enough built, (∀ steps, enough ≤ steps →
        p.run (Builder.sink reader) maxDepth steps (rest.prepend bytes)
          (Builder.fresh reader reader.root) = some ⟨.ok (), rest, built⟩)
      ∧ built.value? reader = .ok v := by
  obtain ⟨built, ⟨enough, hrun⟩, hv⟩ := h
  refine ⟨enough, built, fun steps hsteps => ?_, hv⟩
  have hrun := hrun steps hsteps
  rw [← Input.prepend_ofBytes_nil] at hrun
  exact run_local hrun rest

/-- **A record that is cut off fails.** -/
theorem part (h : p.Decodes reader maxDepth bytes v) (hcut : cut <+: bytes)
    (hproper : cut ≠ bytes) (ending : Ending) :
    ∃ enough e left, ∀ steps, enough ≤ steps →
      p.run (Builder.sink reader) maxDepth steps ⟨cut, ending⟩
          (Builder.fresh reader reader.root)
        = some ⟨.error e, Input.ended ending, left⟩ := by
  obtain ⟨built, ⟨enough, hrun⟩, -⟩ := h
  have hrun := hrun enough (Nat.le_refl _)
  rw [← Input.prepend_ofBytes_nil] at hrun
  obtain ⟨e, left, _, _, hfails, -⟩ := run_cut hrun hcut hproper ending
  exact ⟨enough, e, left, fun steps hsteps => run_mono hsteps hfails⟩

end Program.Decodes

/-! ## Places in a file -/

namespace Schema

variable (s : Schema) (sync : List UInt8)

/-- The count and the size in front of a block. -/
def frameBytes (values : List Value) : List UInt8 :=
  Wire.integer values.length ++ Wire.integer (s.records values).length

/-- **The bytes from a place on**: the values left of a block, with the marker
behind them, and blocks. -/
def ahead (current : List Value) (later : List (List Value)) : List UInt8 :=
  (match current with
    | [] => []
    | v :: values => s.records (v :: values) ++ sync)
    ++ later.flatMap (s.blockBytes sync)

variable {s sync} {current : List Value} {later : List (List Value)}

theorem ahead_nil : s.ahead sync [] later = later.flatMap (s.blockBytes sync) :=
  rfl

/-- A block is its frame in front of its values. -/
theorem ahead_block {block : List Value} (hblock : block ≠ []) :
    s.ahead sync [] (block :: later)
      = s.frameBytes block ++ s.ahead sync block later := by
  obtain ⟨v, values, rfl⟩ := List.exists_cons_of_ne_nil hblock
  simp only [ahead, blockBytes, frameBytes, List.flatMap_cons,
    List.nil_append, List.append_assoc]

/-- A value that is followed by others of its block. -/
theorem ahead_cons {v w : Value} {values : List Value} :
    s.ahead sync (v :: w :: values) later
      = (s.encode v).bytes ++ s.ahead sync (w :: values) later := by
  simp only [ahead, records, List.flatMap_cons, List.append_assoc]

/-- The last value of a block is followed by the marker. -/
theorem ahead_last {v : Value} :
    s.ahead sync [v] later
      = (s.encode v).bytes ++ (sync ++ s.ahead sync [] later) := by
  simp only [ahead, records, List.flatMap_cons, List.flatMap_nil,
    List.append_nil, List.append_assoc, List.nil_append]

variable (s sync) in
/-- **The end of a block**: a place where the values at hand are passed and so
are some of the blocks behind them. -/
def EndsBlock (current : List Value) (later : List (List Value))
    (cut : List UInt8) : Prop :=
  ∃ m, cut = s.ahead sync current (later.take m)

/-- Bytes that stand in front of what is ahead, whatever comes later, are
passed before the end of a block. -/
theorem endsBlock_append {current' : List Value} {used cut : List UInt8}
    (hused : ∀ later, s.ahead sync current later
      = used ++ s.ahead sync current' later) :
    s.EndsBlock sync current later (used ++ cut)
      ↔ s.EndsBlock sync current' later cut := by
  unfold EndsBlock
  simp only [hused, List.append_cancel_left_eq]

/-- No block ends before these bytes are passed. -/
theorem EndsBlock.length_le {used : List UInt8} {rest : List (List Value) →
    List UInt8} (hused : ∀ later, s.ahead sync current later
      = used ++ rest later) {cut : List UInt8}
    (h : s.EndsBlock sync current later cut) : used.length ≤ cut.length := by
  obtain ⟨m, rfl⟩ := h
  rw [hused, List.length_append]
  exact Nat.le_add_right _ _

theorem length_frameBytes_pos (values : List Value) :
    0 < (s.frameBytes values).length := by
  rw [frameBytes, List.length_append]
  have := Wire.length_integer_pos (values.length : Int)
  omega

/-- A block that is begun ends where its values and its marker end. -/
theorem endsBlock_block {block : List Value} (hblock : block ≠ [])
    {cut : List UInt8} :
    s.EndsBlock sync [] (block :: later) (s.frameBytes block ++ cut)
      ↔ s.EndsBlock sync block later cut := by
  constructor
  · rintro ⟨m, hm⟩
    cases m with
    | zero =>
      have hempty : s.frameBytes block ++ cut = [] := hm
      have hpos := s.length_frameBytes_pos block
      rw [(List.append_eq_nil_iff.mp hempty).1] at hpos
      exact absurd hpos (Nat.lt_irrefl 0)
    | succ m =>
      rw [List.take_succ_cons, ahead_block hblock] at hm
      exact ⟨m, List.append_cancel_left hm⟩
  · rintro ⟨m, rfl⟩
    exact ⟨m + 1, by rw [List.take_succ_cons, ahead_block hblock]⟩

variable (s sync) in
/-- **A way onward**, from a place and the bytes that are there to a place
behind it and the bytes that are left: these are a part of what is ahead, all of
it, or go to the end of a block, where the bytes at the first place do. -/
structure Onward (current : List Value) (later : List (List Value))
    (cut : List UInt8) (current' : List Value) (later' : List (List Value))
    (cut' : List UInt8) : Prop where
  /-- A part is left of a part. -/
  part : cut <+: s.ahead sync current later
    → cut' <+: s.ahead sync current' later'
  /-- All is left of all. -/
  whole : cut = s.ahead sync current later → cut' = s.ahead sync current' later'
  /-- The ends of blocks are the same. -/
  ends : s.EndsBlock sync current later cut
    ↔ s.EndsBlock sync current' later' cut'

namespace Onward

variable {current' current'' : List Value} {later' later'' : List (List Value)}
  {cut cut' cut'' : List UInt8}

theorem refl : s.Onward sync current later cut current later cut :=
  ⟨id, id, Iff.rfl⟩

theorem trans (h : s.Onward sync current later cut current' later' cut')
    (h' : s.Onward sync current' later' cut' current'' later'' cut'') :
    s.Onward sync current later cut current'' later'' cut'' :=
  ⟨h'.part ∘ h.part, h'.whole ∘ h.whole, h.ends.trans h'.ends⟩

/-- Over bytes that stand in front of what is ahead. -/
theorem append {used : List UInt8}
    (hused : ∀ later, s.ahead sync current later
      = used ++ s.ahead sync current' later) :
    s.Onward sync current later (used ++ cut) current' later cut where
  part h := (List.prefix_append_right_inj _).mp (hused later ▸ h)
  whole h := List.append_cancel_left (h.trans (hused later))
  ends := endsBlock_append hused

/-- Over the frame of a block. -/
theorem frame {block : List Value} (hblock : block ≠ []) :
    s.Onward sync [] (block :: later) (s.frameBytes block ++ cut)
      block later cut where
  part h := (List.prefix_append_right_inj _).mp (ahead_block hblock ▸ h)
  whole h := List.append_cancel_left (h.trans (ahead_block hblock))
  ends := endsBlock_block hblock

end Onward

/-- No block ends inside a frame. -/
theorem not_endsBlock_frame {block : List Value} (hblock : block ≠ [])
    {cut : List UInt8} (hpos : cut ≠ [])
    (hlt : cut.length < (s.frameBytes block).length) :
    ¬ s.EndsBlock sync [] (block :: later) cut := by
  rintro ⟨m, rfl⟩
  cases m with
  | zero => exact hpos rfl
  | succ m =>
    rw [List.take_succ_cons, ahead_block hblock, List.length_append] at hlt
    omega

end Schema

/-! ## Readers -/

/-- **What an iteration answers** that gives values, and then a fault if there
is one. -/
def answered (got : List Value) (fault : Option ContainerError) :
    List (Except ContainerError (Option Value)) :=
  got.map (fun v => .ok (some v)) ++ (fault.map Except.error).toList

/-- A count that is written is read back. -/
def Schema.Countable (s : Schema) (block : List Value) : Prop :=
  block.length < 0x8000000000000000
    ∧ (s.records block).length < 0x8000000000000000

/-- The frame of a block is read. -/
theorem Schema.Countable.reads {s : Schema} {block : List Value}
    (h : s.Countable block) :
    Reads Reader.blockFrame (s.frameBytes block) (Int64.ofNat block.length) :=
  fun input => Reader.blockFrame_ok (Wire.readLong_natCast h.1)
    (Wire.readLong_natCast h.2) input

/-- A frame that is cut off is not read. -/
theorem Read.Starves.blockFrame : Read.Starves Reader.blockFrame :=
  bind readLong .readLong fun _ => bind readLong .readLong fun _ => pure _

namespace Reader

/-- **A reader stands in a file that is cut off**, in front of values of a block
and of blocks, of which only these bytes are there. -/
structure Cut (s reader : Schema) (p : Program) (maxDepth : Nat)
    (sync : List UInt8) (ending : Ending) (current : List Value)
    (later : List (List Value)) (cut : List UInt8) (r : Reader) : Prop where
  /-- The program is the one that reads records. -/
  runs : r.program = p
  /-- The reader's schema. -/
  reads : r.readerSchema = reader
  /-- The limit on levels. -/
  limited : r.maxDepth = maxDepth
  /-- The marker. -/
  marked : r.sync = sync
  /-- No error was met. -/
  sound : r.failed = false
  /-- The number of values left is known. -/
  counted : r.remaining = current.length
  /-- Every block has values, and no more than can be counted. -/
  blocks : ∀ block ∈ later, block ≠ [] ∧ s.Countable block
  /-- These bytes are there. -/
  comes : r.input = ⟨cut, ending⟩
  /-- They are the first ones of what was written. -/
  part : cut <+: s.ahead sync current later

variable {s reader : Schema} {p : Program} {maxDepth : Nat}
  {sync : List UInt8} {ending : Ending} {current : List Value}
  {later : List (List Value)} {cut : List UInt8} {r : Reader}

/-- The marker is found, or it is cut off. -/
theorem checkSync_part (hlength : r.sync.length = 16) {rest : List UInt8}
    (hinput : r.input = ⟨cut, ending⟩) (hpart : cut <+: r.sync ++ rest) :
    (cut.length < r.sync.length
      ∧ ∃ r', r.checkSync = (.error (.decode ending.error), r'))
    ∨ ∃ more, cut = r.sync ++ more ∧ more <+: rest
      ∧ r.checkSync = (.ok (), { r with input := ⟨more, ending⟩ }) := by
  rcases proper_or_append hpart with ⟨hcut, hproper⟩ | ⟨more, rfl, hmore⟩
  · have hlt := length_lt_of_proper hcut hproper
    refine .inl ⟨hlt, { r with input := ⟨[], ending⟩ }, ?_⟩
    have htake : Wire.take 16 (Input.mk cut ending)
        = .error ending.error ⟨[], ending⟩ :=
      Wire.take_of_lt (hlength ▸ hlt)
    simp only [checkSync, hinput, htake]
  · exact .inr ⟨more, rfl, hmore, checkSync_ok hlength hinput⟩

/-- **Looking for a record in a file that is cut off**: nothing is there, or a
frame is cut off, or there is a record. -/
theorem Cut.seekRecord
    (h : r.Cut s reader p maxDepth sync ending current later cut)
    (fuel : Nat) :
    (current = [] ∧ cut = [] ∧ r.seekRecord (fuel + 1) = match ending with
      | .endOfInput => (.ok false, r)
      | .failure reason => (.error (.device reason), r))
    ∨ (¬ s.EndsBlock sync current later cut
      ∧ ∃ e r', r.seekRecord (fuel + 1) = (.error e, r'))
    ∨ ∃ v values later' cut' r', r.seekRecord (fuel + 1) = (.ok true, r')
      ∧ r'.Cut s reader p maxDepth sync ending (v :: values) later' cut'
      ∧ v :: values ++ later'.flatten = current ++ later.flatten
      ∧ s.Onward sync current later cut (v :: values) later' cut' := by
  cases current with
  | cons v values =>
    have hremaining : r.remaining ≠ 0 := by
      rw [h.counted]
      exact Nat.succ_ne_zero _
    refine .inr (.inr ⟨v, values, later, cut, r, ?_, h, rfl, .refl⟩)
    rw [Reader.seekRecord, if_pos hremaining]
  | nil =>
    have hremaining : ¬ r.remaining ≠ 0 := fun hne => hne h.counted
    cases cut with
    | nil =>
      refine .inl ⟨rfl, rfl, ?_⟩
      rw [Reader.seekRecord, if_neg hremaining, h.comes]
      cases ending <;> rfl
    | cons b bytes =>
    -- There are bytes, so they are the beginning of a block.
    cases later with
    | nil => exact absurd h.part.length_le (by simp [Schema.ahead])
    | cons block later =>
      obtain ⟨hblock, hcountable⟩ := h.blocks block List.mem_cons_self
      have hpart := h.part
      rw [Schema.ahead_block hblock] at hpart
      rcases proper_or_append hpart with ⟨hcut, hproper⟩ | ⟨more, hcut, -⟩
      · refine .inr (.inl ⟨Schema.not_endsBlock_frame hblock
          (List.cons_ne_nil _ _) (length_lt_of_proper hcut hproper),
          .decode ending.error, { r with input := Input.ended ending }, ?_⟩)
        rw [Reader.seekRecord, if_neg hremaining]
        simp only [h.comes, Read.Starves.blockFrame.of_reads
          hcountable.reads hcut hproper ending]
      · obtain ⟨v, values, rfl⟩ := List.exists_cons_of_ne_nil hblock
        have hinput : r.input = (Input.mk more ending).prepend
            (s.frameBytes (v :: values)) := by
          rw [h.comes, hcut]
          rfl
        have honward : s.Onward sync [] ((v :: values) :: later) (b :: bytes)
            (v :: values) later more := hcut ▸ .frame hblock
        exact .inr (.inr ⟨v, values, later, more, _,
          (seekRecord_frame h.counted hinput
            (Wire.readLong_natCast hcountable.1)
            (Wire.readLong_natCast hcountable.2)
            (Int64.toInt_ofNat_of_lt hcountable.1) fuel).1
            (Nat.succ_ne_zero _),
          { h with
            counted := rfl
            blocks := fun other hother =>
              h.blocks other (List.mem_cons_of_mem _ hother)
            comes := rfl
            part := honward.part h.part }, rfl, honward⟩)

/-- **What reading a record comes to**, where its bytes and the marker behind
the last one of a block may be cut off: an error, if no block ends there, or the
reader stands behind the record. -/
def Cut.ReadsOn (s reader : Schema) (p : Program) (maxDepth : Nat)
    (sync : List UInt8) (ending : Ending) (v : Value) (values : List Value)
    (later : List (List Value)) (cut : List UInt8) (v' : Value)
    (read : Nat → Option (Except ContainerError Bool × Reader × Builder)) :
    Prop :=
  ∃ enough,
    (¬ s.EndsBlock sync (v :: values) later cut
      ∧ ∃ e r' built, ∀ steps, enough ≤ steps →
        read steps = some (.error e, r', built))
    ∨ ∃ cut' r' built, (∀ steps, enough ≤ steps →
        read steps = some (.ok true, r', built))
      ∧ built.value? reader = .ok v'
      ∧ r'.Cut s reader p maxDepth sync ending values later cut'
      ∧ s.Onward sync (v :: values) later cut values later cut'

section

variable {r₁ : Reader} {v v' : Value} {values : List Value} {enough : Nat}
  {built : Builder}
  (hseek : r.seekRecord (r.input.rest.length + 1) = (.ok true, r₁))

include hseek

/-- Behind a record that is not the last one of its block comes another. -/
theorem Cut.readsOn_inside {w : Value}
    (h : r₁.Cut s reader p maxDepth sync ending (v :: w :: values) later
      ((s.encode v).bytes ++ cut))
    (hrun : ∀ steps, enough ≤ steps →
      r₁.program.run (Builder.sink reader) r₁.maxDepth steps r₁.input
        (Builder.fresh reader reader.root)
        = some ⟨.ok (), ⟨cut, ending⟩, built⟩)
    (hvalue : built.value? reader = .ok v') :
    Cut.ReadsOn s reader p maxDepth sync ending v (w :: values) later
      ((s.encode v).bytes ++ cut) v' fun steps =>
        r.readInto (Builder.sink reader) steps
          (Builder.fresh reader reader.root) := by
  have honward : s.Onward sync (v :: w :: values) later
      ((s.encode v).bytes ++ cut) (w :: values) later cut :=
    .append fun _ => Schema.ahead_cons
  exact ⟨enough, .inr ⟨cut, { r₁ with
      input := ⟨cut, ending⟩
      remaining := (w :: values).length }, built,
    fun steps hsteps => readInto_inside hseek (hrun steps hsteps) h.counted,
    hvalue, { h with
      counted := rfl
      comes := rfl
      part := honward.part h.part }, honward⟩⟩

/-- Behind the last record of a block comes the marker, or a part of it. -/
theorem Cut.readsOn_last (hlength : sync.length = 16)
    (h : r₁.Cut s reader p maxDepth sync ending [v] later
      ((s.encode v).bytes ++ cut))
    (hrun : ∀ steps, enough ≤ steps →
      r₁.program.run (Builder.sink reader) r₁.maxDepth steps r₁.input
        (Builder.fresh reader reader.root)
        = some ⟨.ok (), ⟨cut, ending⟩, built⟩)
    (hvalue : built.value? reader = .ok v') :
    Cut.ReadsOn s reader p maxDepth sync ending v [] later
      ((s.encode v).bytes ++ cut) v' fun steps =>
        r.readInto (Builder.sink reader) steps
          (Builder.fresh reader reader.root) := by
  have hlast : ∀ later, s.ahead sync [v] later
      = ((s.encode v).bytes ++ sync) ++ s.ahead sync [] later :=
    fun later => by rw [Schema.ahead_last, List.append_assoc]
  have hpart : cut <+: sync ++ s.ahead sync [] later := by
    rw [← List.prefix_append_right_inj (s.encode v).bytes, ← Schema.ahead_last]
    exact h.part
  rcases checkSync_part (r := { r₁ with
      input := ⟨cut, ending⟩
      remaining := 0 }) (h.marked ▸ hlength) rfl (h.marked ▸ hpart) with
    ⟨hlt, r', hfails⟩ | ⟨more, hmarker, -, hfound⟩
  · refine ⟨enough, .inl ⟨fun hends => ?_, .decode ending.error, r', built,
      fun steps hsteps =>
        readInto_last hseek (hrun steps hsteps) h.counted hfails⟩⟩
    have := hends.length_le hlast
    simp only [h.marked, List.length_append] at hlt this
    omega
  · obtain rfl : cut = sync ++ more := h.marked ▸ hmarker
    have honward : s.Onward sync [v] later
        ((s.encode v).bytes ++ (sync ++ more)) [] later more :=
      List.append_assoc _ sync more ▸ .append hlast
    exact ⟨enough, .inr ⟨more, { r₁ with
        input := ⟨more, ending⟩
        remaining := 0 }, built,
      fun steps hsteps =>
        readInto_last hseek (hrun steps hsteps) h.counted hfound, hvalue,
      { h with
        counted := rfl
        comes := rfl
        part := honward.part h.part }, honward⟩⟩

/-- **A record is read**, and the reader stands behind it; or it is cut off, or
the marker behind it is. -/
theorem Cut.readInto (hlength : sync.length = 16)
    (h : r₁.Cut s reader p maxDepth sync ending (v :: values) later cut)
    (hv : p.Decodes reader maxDepth (s.encode v).bytes v') :
    Cut.ReadsOn s reader p maxDepth sync ending v values later cut v'
      fun steps => r.readInto (Builder.sink reader) steps
        (Builder.fresh reader reader.root) := by
  -- What comes behind the record is the same whatever comes later.
  obtain ⟨rest, hrest⟩ : ∃ rest : List (List Value) → List UInt8, ∀ later,
      s.ahead sync (v :: values) later = (s.encode v).bytes ++ rest later := by
    cases values with
    | nil => exact ⟨_, fun later => Schema.ahead_last⟩
    | cons w values => exact ⟨_, fun later => Schema.ahead_cons⟩
  have hpart := h.part
  rw [hrest] at hpart
  rcases proper_or_append hpart with ⟨hcut, hproper⟩ | ⟨more, rfl, -⟩
  · obtain ⟨enough, e, left, hfails⟩ := hv.part hcut hproper ending
    refine ⟨enough, .inl ⟨fun hends => ?_, .execution e,
      { r₁ with input := Input.ended ending }, left, fun steps hsteps =>
        readInto_failed hseek ?_⟩⟩
    · have := hends.length_le hrest
      have := length_lt_of_proper hcut hproper
      omega
    · rw [h.runs, h.limited, h.comes]
      exact hfails steps hsteps
  · obtain ⟨enough, built, hruns, hvalue⟩ := hv.whole (Input.mk more ending)
    have hrun : ∀ steps, enough ≤ steps →
        r₁.program.run (Builder.sink reader) r₁.maxDepth steps r₁.input
          (Builder.fresh reader reader.root)
          = some ⟨.ok (), ⟨more, ending⟩, built⟩ := by
      intro steps hsteps
      rw [h.runs, h.limited, h.comes]
      exact hruns steps hsteps
    cases values with
    | cons w values => exact Cut.readsOn_inside hseek h hrun hvalue
    | nil => exact Cut.readsOn_last hseek hlength h hrun hvalue

end

/-! ## Iterations -/

/-- **The next answer over a file that is cut off**: nothing, just if the
stream ends at the end of a block; or an error, just if it does not; or the
value of the next record. -/
theorem Cut.next (hlength : sync.length = 16)
    (h : r.Cut s reader p maxDepth sync ending current later cut)
    {received : List Value}
    (hdecodes : List.Forall₂
      (fun v v' => p.Decodes reader maxDepth (s.encode v).bytes v')
      (current ++ later.flatten) received) :
    (ending = .endOfInput ∧ s.EndsBlock sync current later cut
      ∧ (cut = s.ahead sync current later → received = [])
      ∧ ∀ steps, r.next steps = some (.ok none, r))
    ∨ (¬ (ending = .endOfInput ∧ s.EndsBlock sync current later cut)
      ∧ ∃ enough e r', r'.failed = true
        ∧ ∀ steps, enough ≤ steps → r.next steps = some (.error e, r'))
    ∨ ∃ v' received' current' later' cut' enough r', received = v' :: received'
      ∧ List.Forall₂
        (fun v v' => p.Decodes reader maxDepth (s.encode v).bytes v')
        (current' ++ later'.flatten) received'
      ∧ r'.Cut s reader p maxDepth sync ending current' later' cut'
      ∧ s.Onward sync current later cut current' later' cut'
      ∧ ∀ steps, enough ≤ steps → r.next steps = some (.ok (some v'), r') := by
  rcases h.seekRecord r.input.rest.length with ⟨rfl, rfl, hseek⟩ |
    ⟨hends, e, r', hseek⟩ |
    ⟨v, values, later', cut', r₁, hseek, hcut, hvalues, honward⟩
  · cases ending with
    | endOfInput =>
      refine .inl ⟨rfl, ⟨0, rfl⟩, fun hall => ?_, fun steps => ?_⟩
      · -- Blocks that have no bytes are no blocks.
        cases later with
        | nil => exact List.forall₂_nil_left_iff.mp hdecodes
        | cons block later =>
          rw [Schema.ahead_block (h.blocks block List.mem_cons_self).1] at hall
          have hpos := s.length_frameBytes_pos block
          rw [(List.append_eq_nil_iff.mp hall.symm).1] at hpos
          exact absurd hpos (Nat.lt_irrefl 0)
      · exact Reader.next_of_readInto_none h.sound (Reader.readInto_none hseek)
    | failure reason =>
      refine .inr (.inl ⟨fun hend => absurd hend.1 (by simp), 0,
        .device reason, { r with failed := true }, rfl, fun _ _ =>
          Reader.next_of_readInto_error h.sound (Reader.readInto_error hseek)⟩)
  · refine .inr (.inl ⟨fun hend => hends hend.2, 0, e,
      { r' with failed := true }, rfl, fun _ _ =>
        Reader.next_of_readInto_error h.sound (Reader.readInto_error hseek)⟩)
  · rw [← hvalues, List.cons_append] at hdecodes
    obtain ⟨v', received', hv, hrest, rfl⟩ :=
      List.forall₂_cons_left_iff.mp hdecodes
    obtain ⟨enough, ⟨hnot, e, r', built, hreads⟩ |
      ⟨cut'', r', built, hreads, hvalue, hcut', honward'⟩⟩ :=
      Cut.readInto hseek hlength hcut hv
    all_goals rw [← h.reads] at hreads
    · refine .inr (.inl ⟨fun hend => hnot (honward.ends.mp hend.2), enough, e,
        { r' with failed := true }, rfl, fun steps hsteps =>
          Reader.next_of_readInto_error h.sound (hreads steps hsteps)⟩)
    · refine .inr (.inr ⟨v', received', values, later', cut'', enough, r', rfl,
        hrest, hcut', honward.trans honward',
        fun steps hsteps =>
          Reader.next_of_readInto_value h.sound (hreads steps hsteps)
            (hcut'.reads ▸ hvalue)⟩)

/-- A value is followed by other answers. -/
theorem take_answered_cons {v : Value} {got : List Value}
    {fault : Option ContainerError} (count : Nat) :
    (answered (v :: got) fault
        ++ List.replicate (count + 1) (Except.ok none)).take (count + 1)
      = .ok (some v)
        :: (answered got fault
          ++ List.replicate count (Except.ok none)).take count := by
  have hcons : answered (v :: got) fault
      = .ok (some v) :: answered got fault := rfl
  rw [hcons, List.cons_append, List.take_succ_cons,
    take_append_replicate_succ]

/-- An error is followed by nothing. -/
theorem iterate_error {steps : Nat} {e : ContainerError} {r' : Reader}
    (hnext : r.next steps = some (.error e, r')) (hfailed : r'.failed = true)
    (count : Nat) :
    Reader.iterate steps count r = some ((answered [] (some e)
      ++ List.replicate count (Except.ok none)).take count) := by
  cases count with
  | zero => rfl
  | succ count =>
    rw [iterate_next hnext, iterate_none (fun r => r.failed = true)
      (fun r hr => ⟨r, next_of_failed hr steps, hr⟩) count r' hfailed]
    show some (_ :: _) = some ((_ :: _).take (count + 1))
    rw [List.take_succ_cons]
    simp

/-- **An iteration over a file that is cut off** gives the values of the first
records, and a fault unless the stream ends at the end of a block. -/
theorem Cut.iterate (hlength : sync.length = 16) {received : List Value}
    {r : Reader} {current : List Value} {later : List (List Value)}
    {cut : List UInt8}
    (h : r.Cut s reader p maxDepth sync ending current later cut)
    (hdecodes : List.Forall₂
      (fun v v' => p.Decodes reader maxDepth (s.encode v).bytes v')
      (current ++ later.flatten) received) :
    ∃ got fault enough, got <+: received
      ∧ (fault = none
        ↔ ending = .endOfInput ∧ s.EndsBlock sync current later cut)
      ∧ (ending = .endOfInput → cut = s.ahead sync current later →
        got = received)
      ∧ ∀ steps, enough ≤ steps → ∀ count, Reader.iterate steps count r
        = some ((answered got fault
          ++ List.replicate count (Except.ok none)).take count) := by
  rcases h.next hlength hdecodes with ⟨hending, hends, hall, hnext⟩ |
    ⟨hnot, enough, e, r', hfailed, hnext⟩ |
    ⟨v', received', current', later', cut', enough, r', rfl, hrest, hcut,
      honward, hnext⟩
  · refine ⟨[], none, 0, List.nil_prefix, by simp [hending, hends],
      fun _ hwhole => (hall hwhole).symm, fun steps _ count => ?_⟩
    rw [iterate_none (· = r) (fun _ hr => ⟨r, hr ▸ hnext steps, rfl⟩) count r
      rfl]
    simp [answered]
  · refine ⟨[], some e, enough, List.nil_prefix, by simp [hnot],
      fun hending hwhole => absurd ⟨hending, later.length, ?_⟩ hnot,
      fun steps hsteps => iterate_error (hnext steps hsteps) hfailed⟩
    rw [List.take_length]
    exact hwhole
  · obtain ⟨got, fault, enough', hgot, hfault, hwhole, hanswers⟩ :=
      Cut.iterate hlength hcut hrest
    refine ⟨v' :: got, fault, max enough enough',
      (List.prefix_cons_inj v').mpr hgot,
      hfault.trans (by rw [honward.ends]),
      fun hending hcut => by rw [hwhole hending (honward.whole hcut)],
      fun steps hsteps count => ?_⟩
    cases count with
    | zero => rfl
    | succ count =>
      rw [iterate_next (hnext steps (by omega)),
        hanswers steps (by omega) count, take_answered_cons, Option.map_some]
termination_by received.length

/-! ## More steps -/

/-- More steps change no record that is read. -/
theorem readInto_mono {n m : Nat} (hnm : n ≤ m) {σ : Type} {k : Sink σ}
    {state : σ} {answer : Except ContainerError Bool × Reader × σ}
    (h : r.readInto k n state = some answer) :
    r.readInto k m state = some answer := by
  unfold readInto at h ⊢
  cases hseek : r.seekRecord (r.input.rest.length + 1) with
  | mk found r₁ =>
    rw [hseek] at h
    cases found with
    | error e => exact h
    | ok found =>
      cases found with
      | false => exact h
      | true =>
        obtain ⟨o, hrun, rfl⟩ := Option.map_eq_some_iff.mp h
        exact Option.map_eq_some_iff.mpr ⟨o, Program.run_mono hnm hrun, rfl⟩

/-- More steps change no value that is read. -/
theorem readValue_mono {n m : Nat} (hnm : n ≤ m)
    {answer : Except ContainerError (Option Value) × Reader}
    (h : r.readValue n = some answer) : r.readValue m = some answer := by
  unfold readValue at h ⊢
  obtain ⟨x, hx, rfl⟩ := Option.map_eq_some_iff.mp h
  exact Option.map_eq_some_iff.mpr ⟨x, readInto_mono hnm hx, rfl⟩

/-- More steps change no answer. -/
theorem next_mono {n m : Nat} (hnm : n ≤ m)
    {answer : Except ContainerError (Option Value) × Reader}
    (h : r.next n = some answer) : r.next m = some answer := by
  unfold Reader.next at h ⊢
  by_cases hfailed : r.failed = true
  · rwa [if_pos hfailed] at h ⊢
  · rw [if_neg hfailed] at h ⊢
    obtain ⟨x, hx, rfl⟩ := Option.map_eq_some_iff.mp h
    exact Option.map_eq_some_iff.mpr ⟨x, readValue_mono hnm hx, rfl⟩

/-- **More steps change no answers.** -/
theorem iterate_mono {n m : Nat} (hnm : n ≤ m) :
    ∀ {count : Nat} {r : Reader}
      {all : List (Except ContainerError (Option Value))},
      Reader.iterate n count r = some all → Reader.iterate m count r = some all
  | 0, _, _, h => h
  | count + 1, r, all, h => by
    obtain ⟨⟨answer, r'⟩, hnext, hrest⟩ := Option.bind_eq_some_iff.mp h
    obtain ⟨others, hothers, hall⟩ := Option.bind_eq_some_iff.mp hrest
    rw [iterate_next (next_mono hnm hnext), iterate_mono hnm hothers]
    exact hall

end Reader

end Avro
