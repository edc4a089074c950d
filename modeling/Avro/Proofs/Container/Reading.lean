import Avro.Proofs.Container.Opening
import Avro.Proofs.Container.Writing
import Avro.Proofs.Program.Records

/-!
# Reading a container file record by record

What the iteration over a file gives is what the records give, each decoded on
its own (`Reader.iterates`): the values up to the first record that fails, then
its error, then nothing; and if no record fails, the values of all of them, and
then nothing.

A file is a header and any number of blocks (`Schema.Blocks`). A block has a
count, some number where the size is expected, so many records, and the marker;
it may be without records, and records may be without bytes. While a file is
read, a reader stands in front of the records that are left of a block, and of
the blocks after it (`Reader.Ahead`). Looking for a record passes over blocks
without records and begins the next one that has some; reading a record that is
the last of its block goes past the marker. Each step is looked at once, and
the iteration is an induction on the records.

Records are told apart by what decoding takes, so the theorem needs what
`compile_local` needs: that methods of one name read the same record. Without
it a record on its own may give a value, with bytes left over, and a file of it
an error (`Arrows.lost_record`).
-/

namespace Avro

/-! ## Records on their own -/

/-- **What an outcome delivers**: the value that was built, or why there is
none. -/
def Outcome.delivered (reader : Schema) (o : Outcome Builder Unit) :
    Except ContainerError Value :=
  match o.result with
  | .error e => .error (.execution e)
  | .ok () => (o.state.value? reader).mapError .sink

/-- **A record on its own gives a value or an error.** -/
def Program.Gives (p : Program) (reader : Schema) (maxDepth : Nat)
    (bytes : List UInt8) (result : Except ContainerError Value) : Prop :=
  ∃ o, p.Yields (Builder.sink reader) maxDepth (Input.ofBytes bytes)
      (Builder.fresh reader reader.root) o
    ∧ o.delivered reader = result

/-- **What an iteration answers** if its records give these results: values up
to the first error, and that error. -/
def answers : List (Except ContainerError Value) →
    List (Except ContainerError (Option Value))
  | [] => []
  | .ok v :: rest => .ok (some v) :: answers rest
  | .error e :: _ => [.error e]

/-- **The first answers of an iteration**; `none` when the steps of a run are
used up. -/
def Reader.iterate (steps : Nat) : (count : Nat) → Reader →
    Option (List (Except ContainerError (Option Value)))
  | 0, _ => some []
  | count + 1, r => do
    let (answer, r) ← r.next steps
    return answer :: (← iterate steps count r)

/-! ## Files -/

/-- **The bytes of a block** with records: their number, any number, the
records, and the marker. -/
inductive Schema.Block (s : Schema) (sync : List UInt8) :
    List (List UInt8) → List UInt8 → Prop
  /-- A block. -/
  | block {records : List (List UInt8)} {count size : List UInt8}
    {n m : Int64} :
    Reads Wire.readLong count n → n.toInt = records.length →
    Reads Wire.readLong size m → (∀ bytes ∈ records, s.Data s.root bytes) →
    Block s sync records (count ++ size ++ records.flatten ++ sync)

/-- **The bytes of blocks** with records. -/
inductive Schema.Blocks (s : Schema) (sync : List UInt8) :
    List (List UInt8) → List UInt8 → Prop
  /-- There are no more blocks. -/
  | none : Blocks s sync [] []
  /-- A block in front of others. -/
  | block {records others : List (List UInt8)} {bytes rest : List UInt8} :
    s.Block sync records bytes → Blocks s sync others rest →
    Blocks s sync (records ++ others) (bytes ++ rest)

/-- What is left of a block: its records and its marker, if it has records. -/
def pending (sync : List UInt8) : List (List UInt8) → List UInt8
  | [] => []
  | record :: records => (record :: records).flatten ++ sync

/-! ## Readers -/

namespace Reader

/-- **A reader stands in front of records**: those left in a block, and those
of the blocks after it. -/
structure Ahead (writer reader : Schema) (p : Program) (maxDepth : Nat)
    (sync : List UInt8) (current later : List (List UInt8)) (r : Reader) :
    Prop where
  /-- The program is the one that reads records. -/
  runs : r.program = p
  /-- The reader's schema. -/
  reads : r.readerSchema = reader
  /-- The limit on levels. -/
  limited : r.maxDepth = maxDepth
  /-- The marker. -/
  marked : r.sync = sync
  /-- No error was met. -/
  sound : r.failed = false
  /-- The number of records left is known. -/
  counted : r.remaining = current.length
  /-- The records left are data. -/
  data : ∀ bytes ∈ current, writer.Data writer.root bytes
  /-- Their bytes come next, and then the blocks. -/
  comes : ∃ rest, writer.Blocks sync later rest
    ∧ r.input = Input.ofBytes (pending sync current ++ rest)

variable {writer reader : Schema} {p : Program} {maxDepth : Nat}
  {sync : List UInt8} {current later : List (List UInt8)} {r : Reader}

/-- The marker is found where it is expected. -/
theorem checkSync_ok (hlength : r.sync.length = 16) {rest : Input}
    (hinput : r.input = rest.prepend r.sync) :
    r.checkSync = (.ok (), { r with input := rest }) := by
  have htake : Wire.take 16 (rest.prepend r.sync) = .ok r.sync rest := by
    rw [← hlength]
    exact Wire.take_prepend r.sync rest
  simp only [checkSync, hinput, htake, if_true]

/-- The count and the size of a block are read. -/
theorem blockFrame_ok {count size : List UInt8} {n m : Int64}
    (hcount : Reads Wire.readLong count n) (hsize : Reads Wire.readLong size m)
    (rest : Input) :
    blockFrame (rest.prepend (count ++ size)) = .ok n rest := by
  rw [Input.prepend_append]
  simp only [blockFrame, bind, EStateM.bind, hcount _, hsize rest]
  rfl

section

variable {count size : List UInt8} {n m : Int64} {rest : Input}

/-- A reader that has no records left in a block looks at the next block. -/
theorem seekRecord_frame (hremaining : r.remaining = 0)
    (hinput : r.input = rest.prepend (count ++ size))
    (hcount : Reads Wire.readLong count n)
    (hsize : Reads Wire.readLong size m) {number : Nat} (hn : n.toInt = number)
    (fuel : Nat) :
    (number ≠ 0 → seekRecord (fuel + 1) r
      = (.ok true, { r with input := rest, blocks := r.blocks + 1,
                            remaining := number }))
    ∧ ∀ r', number = 0 →
      checkSync { r with input := rest, blocks := r.blocks + 1,
                         remaining := number } = (.ok (), r') →
      seekRecord (fuel + 1) r = seekRecord fuel r' := by
  obtain ⟨b, bytes, hbytes⟩ : ∃ b bytes, r.input.rest = b :: bytes := by
    obtain ⟨b, bytes, rfl⟩ := List.exists_cons_of_length_pos
      (Wire.length_pos_of_reads hcount)
    exact ⟨b, _, by rw [hinput]; rfl⟩
  have hframe : blockFrame r.input = .ok n rest := by
    rw [hinput]
    exact blockFrame_ok hcount hsize rest
  have hnat : n.toInt.toNat = number := by omega
  have hneg : ¬ n.toInt < 0 := by omega
  have hnot : ¬ r.remaining ≠ 0 := fun h => h hremaining
  refine ⟨fun hnumber => ?_, fun r' hnumber hsync => ?_⟩
  · rw [seekRecord, if_neg hnot]
    simp only [hbytes, hframe, hneg, if_false, hnat]
    rw [if_pos hnumber]
  · rw [seekRecord, if_neg hnot]
    simp only [hbytes, hframe, hneg, if_false, hnat]
    rw [if_neg (fun h => h hnumber), hsync]

end

/-- **Looking for a record finds the next one**: blocks without records are
passed over. -/
theorem seekRecord_blocks (hlength : sync.length = 16) {bytes : List UInt8}
    (h : writer.Blocks sync later bytes) : ∀ {fuel : Nat} {r : Reader},
    bytes.length < fuel →
    r.Ahead writer reader p maxDepth sync [] later →
    r.input = Input.ofBytes bytes →
    ∃ current later' r', current ++ later' = later
      ∧ (current = [] → later' = [])
      ∧ seekRecord fuel r = (.ok (decide (current ≠ [])), r')
      ∧ r'.Ahead writer reader p maxDepth sync current later' := by
  induction h with
  | none =>
    intro fuel r hfuel hr hinput
    obtain ⟨fuel, rfl⟩ : ∃ m, fuel = m + 1 := ⟨fuel - 1, by omega⟩
    refine ⟨[], [], r, rfl, fun _ => rfl, ?_, hr⟩
    rw [seekRecord, if_neg (fun h => h hr.counted)]
    simp only [hinput, Input.ofBytes, ne_eq, not_true_eq_false, decide_false]
  | @block records others bytes rest hblock hothers ih =>
    intro fuel r hfuel hr hinput
    obtain ⟨fuel, rfl⟩ : ∃ m, fuel = m + 1 := ⟨fuel - 1, by omega⟩
    cases hblock with
    | @block count size n m hcount hn hsize hdata =>
    have hinput' : r.input = (Input.ofBytes
        (records.flatten ++ sync ++ rest)).prepend (count ++ size) := by
      rw [hinput]
      simp only [Input.prepend, Input.ofBytes, List.append_assoc]
    obtain ⟨hfound, hempty⟩ :=
      seekRecord_frame hr.counted hinput' hcount hsize hn fuel
    cases records with
    | cons record records =>
      refine ⟨record :: records, others, _, rfl,
        fun hnone => absurd hnone (List.cons_ne_nil _ _),
        hfound (Nat.succ_ne_zero _), ?_⟩
      exact { hr with
        counted := rfl
        data := hdata
        comes := ⟨rest, hothers, rfl⟩ }
    | nil =>
      have hbegun : { r with
          input := Input.ofBytes (([] : List (List UInt8)).flatten ++ sync
            ++ rest)
          blocks := r.blocks + 1
          remaining := 0 }.checkSync
        = (.ok (), { r with
          input := Input.ofBytes rest
          blocks := r.blocks + 1
          remaining := 0 }) :=
        checkSync_ok (hr.marked ▸ hlength) (by rw [hr.marked]; rfl)
      rw [hempty _ rfl hbegun]
      have hpos := Wire.length_pos_of_reads hcount
      simp only [List.length_append] at hfuel
      exact ih (by omega) { hr with
        counted := rfl
        comes := ⟨rest, hothers, rfl⟩ } rfl

/-- **A reader that stands in front of records finds the next one.** -/
theorem Ahead.seekRecord (hlength : sync.length = 16)
    (h : r.Ahead writer reader p maxDepth sync current later) :
    ∃ current' later' r', current' ++ later' = current ++ later
      ∧ (current' = [] → later' = [])
      ∧ r.seekRecord (r.input.rest.length + 1)
        = (.ok (decide (current' ≠ [])), r')
      ∧ r'.Ahead writer reader p maxDepth sync current' later' := by
  cases current with
  | nil =>
    obtain ⟨rest, hrest, hinput⟩ := h.comes
    refine seekRecord_blocks hlength hrest ?_ h hinput
    rw [hinput]
    exact Nat.lt_succ_self _
  | cons record records =>
    refine ⟨record :: records, later, r, rfl,
      fun hnone => absurd hnone (List.cons_ne_nil _ _), ?_, h⟩
    have hremaining : r.remaining ≠ 0 := by
      rw [h.counted]
      exact Nat.succ_ne_zero _
    rw [Reader.seekRecord, if_pos hremaining]
    rfl

/-! ## Steps of an iteration -/

section

variable {r₁ : Reader} {σ : Type} {k : Sink σ} {steps : Nat} {s state : σ}
  {left : Input}

/-- A record that fails is the answer, and the reader stands where it
failed. -/
theorem readInto_failed
    (hseek : r.seekRecord (r.input.rest.length + 1) = (.ok true, r₁))
    {e : ExecutionError} (hrun : r₁.program.run k r₁.maxDepth steps r₁.input s
      = some ⟨.error e, left, state⟩) :
    r.readInto k steps s
      = some (.error (.execution e), { r₁ with input := left }, state) := by
  simp only [Reader.readInto, hseek, hrun, Option.map_some]

/-- Behind a record that is not the last one of its block comes another. -/
theorem readInto_inside
    (hseek : r.seekRecord (r.input.rest.length + 1) = (.ok true, r₁))
    (hrun : r₁.program.run k r₁.maxDepth steps r₁.input s
      = some ⟨.ok (), left, state⟩) {others : Nat}
    (hremaining : r₁.remaining = others + 1 + 1) :
    r.readInto k steps s = some (.ok true,
      { r₁ with input := left, remaining := others + 1 }, state) := by
  simp only [Reader.readInto, hseek, hrun, Option.map_some, hremaining,
    Nat.add_sub_cancel]
  exact congrArg some (if_pos (Nat.succ_ne_zero others))

/-- Behind the last record of a block comes the marker. -/
theorem readInto_last
    (hseek : r.seekRecord (r.input.rest.length + 1) = (.ok true, r₁))
    (hrun : r₁.program.run k r₁.maxDepth steps r₁.input s
      = some ⟨.ok (), left, state⟩) (hremaining : r₁.remaining = 1)
    {found : Except ContainerError Unit} {r' : Reader}
    (hcheck : { r₁ with input := left, remaining := 0 }.checkSync
      = (found, r')) :
    r.readInto k steps s = some (found.map fun _ => true, r', state) := by
  simp only [Reader.readInto, hseek, hrun, Option.map_some, hremaining,
    Nat.sub_self, hcheck]
  cases found <;> rfl

/-- At the end of the file nothing is read. -/
theorem readInto_none
    (hseek : r.seekRecord (r.input.rest.length + 1) = (.ok false, r₁)) :
    r.readInto k steps s = some (.ok false, r₁, s) := by
  simp only [Reader.readInto, hseek]

/-- Where no record is found for an error, nothing is read. -/
theorem readInto_error {e : ContainerError}
    (hseek : r.seekRecord (r.input.rest.length + 1) = (.error e, r₁)) :
    r.readInto k steps s = some (.error e, r₁, s) := by
  simp only [Reader.readInto, hseek]

end

section

variable {r' : Reader} {steps : Nat} {built : Builder} {v : Value}
  {e : ContainerError}

/-- An error of reading is answered, and is the last answer. -/
theorem next_of_readInto_error (hsound : r.failed = false)
    (hread : r.readInto (Builder.sink r.readerSchema) steps
        (Builder.fresh r.readerSchema r.readerSchema.root)
      = some (.error e, r', built)) :
    r.next steps = some (.error e, { r' with failed := true }) := by
  rw [next, if_neg (by simp [hsound]), readValue, hread]
  rfl

/-- Where there is no record, there is no value. -/
theorem next_of_readInto_none (hsound : r.failed = false)
    (hread : r.readInto (Builder.sink r.readerSchema) steps
        (Builder.fresh r.readerSchema r.readerSchema.root)
      = some (.ok false, r', built)) :
    r.next steps = some (.ok none, r') := by
  rw [next, if_neg (by simp [hsound]), readValue, hread]
  rfl

/-- The value that a record has built is answered. -/
theorem next_of_readInto_value (hsound : r.failed = false)
    (hread : r.readInto (Builder.sink r.readerSchema) steps
        (Builder.fresh r.readerSchema r.readerSchema.root)
      = some (.ok true, r', built))
    (hvalue : built.value? r'.readerSchema = .ok v) :
    r.next steps = some (.ok (some v), r') := by
  rw [next, if_neg (by simp [hsound]), readValue, hread]
  simp only [Option.map_some, hvalue]

/-- A record that is read and builds no value is an error. -/
theorem next_of_readInto_unbuilt (hsound : r.failed = false)
    (hread : r.readInto (Builder.sink r.readerSchema) steps
        (Builder.fresh r.readerSchema r.readerSchema.root)
      = some (.ok true, r', built)) {refusal : SinkError}
    (hvalue : built.value? r'.readerSchema = .error refusal) :
    r.next steps = some (.error (.sink refusal), { r' with failed := true }) := by
  rw [next, if_neg (by simp [hsound]), readValue, hread]
  simp only [Option.map_some, hvalue]

end

/-- **A record is read**, as on its own, and if that succeeds the reader stands
in front of the next one. -/
theorem Ahead.readInto (hlength : sync.length = 16) {r₁ : Reader}
    (hseek : r.seekRecord (r.input.rest.length + 1) = (.ok true, r₁))
    {record : List UInt8} {records : List (List UInt8)}
    (hr : r₁.Ahead writer reader p maxDepth sync (record :: records) later)
    {σ : Type} {k : Sink σ} {s : σ} {o : Outcome σ Unit}
    (hlocal : ∀ rest : Input, ∃ left,
      p.Yields k maxDepth (rest.prepend record) s (o.withInput left)
      ∧ (o.result = .ok () → left = rest)) :
    ∃ enough r', (∀ steps, enough ≤ steps → r.readInto k steps s
        = some ((o.result.map fun _ => true).mapError .execution, r', o.state))
      ∧ (o.result = .ok () →
        r'.Ahead writer reader p maxDepth sync records later) := by
  obtain ⟨rest, hrest, hinput⟩ := hr.comes
  have hinput : r₁.input
      = (Input.ofBytes (records.flatten ++ sync ++ rest)).prepend record := by
    rw [hinput]
    simp only [pending, List.flatten_cons, Input.prepend, Input.ofBytes,
      List.append_assoc]
  obtain ⟨left, ⟨enough, hrun⟩, hleft⟩ :=
    hlocal (Input.ofBytes (records.flatten ++ sync ++ rest))
  have hread : ∀ steps, enough ≤ steps →
      r₁.program.run k r₁.maxDepth steps r₁.input s
        = some (o.withInput left) := by
    intro steps hsteps
    rw [hr.runs, hr.limited, hinput]
    exact hrun steps hsteps
  obtain ⟨result, input, state⟩ := o
  cases result with
  | error e =>
    exact ⟨enough, { r₁ with input := left },
      fun steps hsteps => readInto_failed hseek (hread steps hsteps),
      fun hok => absurd hok (by simp)⟩
  | ok u =>
    obtain rfl := hleft rfl
    cases records with
    | cons next records =>
      refine ⟨enough, { r₁ with
          input := Input.ofBytes ((next :: records).flatten ++ sync ++ rest)
          remaining := (next :: records).length },
        fun steps hsteps =>
          readInto_inside hseek (hread steps hsteps) hr.counted, fun _ => ?_⟩
      exact { hr with
        counted := rfl
        data := fun bytes h => hr.data bytes (List.mem_cons_of_mem _ h)
        comes := ⟨rest, hrest, rfl⟩ }
    | nil =>
      have hend : { r₁ with
          input := Input.ofBytes (([] : List (List UInt8)).flatten ++ sync
            ++ rest)
          remaining := 0 }.checkSync
        = (.ok (), { r₁ with
          input := Input.ofBytes rest
          remaining := 0 }) :=
        checkSync_ok (hr.marked ▸ hlength) (by rw [hr.marked]; rfl)
      refine ⟨enough, { r₁ with
          input := Input.ofBytes rest
          remaining := 0 },
        fun steps hsteps =>
          readInto_last hseek (hread steps hsteps) hr.counted hend, fun _ => ?_⟩
      exact { hr with
        counted := rfl
        data := fun bytes h => absurd h List.not_mem_nil
        comes := ⟨rest, hrest, rfl⟩ }

/-- **At the end of a file there is no record**, and the reader stays there. -/
theorem Ahead.next_none (hlength : sync.length = 16)
    (h : r.Ahead writer reader p maxDepth sync current later)
    (hnone : current ++ later = []) :
    ∃ r', (∀ steps, r.next steps = some (.ok none, r'))
      ∧ r'.Ahead writer reader p maxDepth sync [] [] := by
  obtain ⟨current', later', r', happend, -, hseek, hr⟩ := h.seekRecord hlength
  obtain ⟨rfl, rfl⟩ := List.append_eq_nil_iff.mp (happend.trans hnone)
  exact ⟨r', fun _ => next_of_readInto_none h.sound (readInto_none hseek), hr⟩

/-- A reader that has met an error answers nothing more. -/
theorem next_of_failed (h : r.failed = true) (steps : Nat) :
    r.next steps = some (.ok none, r) := by
  rw [next, if_pos h]

/-- **The next record is answered as on its own.** If it gives a value, the
reader stands in front of the other records, and if not, it is done. -/
theorem Ahead.next_record (hlength : sync.length = 16)
    (h : r.Ahead writer reader p maxDepth sync current later)
    {record : List UInt8} {records : List (List UInt8)}
    (hrecords : current ++ later = record :: records)
    {o : Outcome Builder Unit}
    (hlocal : ∀ rest : Input, ∃ left,
      p.Yields (Builder.sink reader) maxDepth (rest.prepend record)
        (Builder.fresh reader reader.root) (o.withInput left)
      ∧ (o.result = .ok () → left = rest)) :
    ∃ enough r', (∀ steps, enough ≤ steps →
        r.next steps = some ((o.delivered reader).map some, r'))
      ∧ (∀ v, o.delivered reader = .ok v →
        ∃ current' later', current' ++ later' = records
          ∧ r'.Ahead writer reader p maxDepth sync current' later')
      ∧ ∀ e, o.delivered reader = .error e → r'.failed = true := by
  obtain ⟨current', later', r₁, happend, hlater, hseek, hr⟩ :=
    h.seekRecord hlength
  rw [hrecords] at happend
  cases current' with
  | nil => rw [hlater rfl] at happend; exact absurd happend (by simp)
  | cons first current' =>
  obtain ⟨rfl, hrest⟩ := List.cons.inj happend
  obtain ⟨enough, r', hread, hahead⟩ := Ahead.readInto hlength hseek hr hlocal
  rw [← h.reads] at hread
  obtain ⟨result, input, state⟩ := o
  cases result with
  | error e =>
    exact ⟨enough, { r' with failed := true },
      fun steps hsteps => next_of_readInto_error h.sound (hread steps hsteps),
      fun v hv => absurd hv (by simp [Outcome.delivered]), fun _ _ => rfl⟩
  | ok u =>
    have hr' := hahead rfl
    cases hv : state.value? reader with
    | error e =>
      refine ⟨enough, { r' with failed := true }, fun steps hsteps => ?_,
        fun v hv' => absurd hv' (by simp [Outcome.delivered, hv, Except.mapError]),
        fun _ _ => rfl⟩
      rw [next_of_readInto_unbuilt h.sound (hread steps hsteps)
        (hr'.reads ▸ hv)]
      simp only [Outcome.delivered, hv, Except.map, Except.mapError]
    | ok v =>
      refine ⟨enough, r', fun steps hsteps => ?_,
        fun _ _ => ⟨current', later', hrest, hr'⟩,
        fun e he => absurd he (by simp [Outcome.delivered, hv, Except.mapError])⟩
      rw [next_of_readInto_value h.sound (hread steps hsteps)
        (hr'.reads ▸ hv)]
      simp only [Outcome.delivered, hv, Except.map, Except.mapError]

/-! ## Iterations -/

/-- An answer is followed by the other answers. -/
theorem iterate_next {steps : Nat} {answer : Except ContainerError (Option Value)}
    {r' : Reader} (h : r.next steps = some (answer, r')) (count : Nat) :
    iterate steps (count + 1) r
      = (iterate steps count r').map (answer :: ·) := by
  rw [iterate, h]
  simp only [bind, Option.bind, pure]
  cases iterate steps count r' <;> rfl

/-- Where nothing comes any more, nothing is answered again and again. -/
theorem iterate_none {steps : Nat} (P : Reader → Prop)
    (hstep : ∀ r, P r → ∃ r', r.next steps = some (.ok none, r') ∧ P r') :
    ∀ (count : Nat) (r : Reader), P r →
      iterate steps count r = some (List.replicate count (.ok none))
  | 0, _, _ => rfl
  | count + 1, r, hr => by
    obtain ⟨r', hnext, hr'⟩ := hstep r hr
    rw [iterate_next hnext, iterate_none P hstep count r' hr']
    rfl

/-- The first elements of a padded list do not depend on the padding. -/
theorem take_append_replicate_succ {α : Type} (l : List α) (a : α)
    (count : Nat) : (l ++ List.replicate (count + 1) a).take count
      = (l ++ List.replicate count a).take count := by
  rw [List.replicate_succ', ← List.append_assoc,
    List.take_append_of_le_length]
  rw [List.length_append, List.length_replicate]
  exact Nat.le_add_left _ _

/-- **An iteration answers what the records give**, and then nothing. -/
theorem Ahead.iterate (hlength : sync.length = 16)
    {records : List (List UInt8)} {outcomes : List (Outcome Builder Unit)}
    (hlocal : List.Forall₂ (fun record o => ∀ rest : Input, ∃ left,
      p.Yields (Builder.sink reader) maxDepth (rest.prepend record)
        (Builder.fresh reader reader.root) (o.withInput left)
      ∧ (o.result = .ok () → left = rest)) records outcomes) :
    ∀ {r : Reader} {current later : List (List UInt8)},
      r.Ahead writer reader p maxDepth sync current later →
      current ++ later = records →
      ∃ enough, ∀ steps, enough ≤ steps → ∀ count,
        Reader.iterate steps count r
          = some ((answers (outcomes.map (Outcome.delivered reader))
            ++ List.replicate count (Except.ok none)).take count) := by
  induction hlocal with
  | nil =>
    intro r current later hr hrecords
    refine ⟨0, fun steps _ count => ?_⟩
    rw [iterate_none (fun r => ∃ current later, current ++ later = []
        ∧ r.Ahead writer reader p maxDepth sync current later)
      (fun r hr => ?_) count r ⟨current, later, hrecords, hr⟩]
    · rw [List.map_nil, answers, List.nil_append, List.take_replicate,
        Nat.min_self]
    · obtain ⟨current, later, hrecords, hr⟩ := hr
      obtain ⟨r', hnext, hr'⟩ := hr.next_none hlength hrecords
      exact ⟨r', hnext steps, [], [], rfl, hr'⟩
  | @cons record o records outcomes hrecord _ ih =>
    intro r current later hr hrecords
    obtain ⟨enough, r', hnext, hvalue, herror⟩ :=
      hr.next_record hlength hrecords hrecord
    cases hresult : o.delivered reader with
    | error e =>
      refine ⟨enough, fun steps hsteps count => ?_⟩
      have hnext := hnext steps hsteps
      rw [List.map_cons, hresult, answers]
      cases count with
      | zero => rfl
      | succ count =>
        rw [iterate_next hnext, hresult,
          iterate_none (fun r => r.failed = true)
            (fun r hr => ⟨r, next_of_failed hr steps, hr⟩) count r'
            (herror e hresult), List.singleton_append, List.take_succ_cons,
          List.take_replicate, Nat.min_eq_left (Nat.le_succ count)]
        rfl
    | ok v =>
      obtain ⟨current', later', hrest, hr'⟩ := hvalue v hresult
      obtain ⟨enough', hrest⟩ := ih hr' hrest
      refine ⟨max enough enough', fun steps hsteps count => ?_⟩
      have hnext := hnext steps (by omega)
      rw [List.map_cons, hresult, answers]
      cases count with
      | zero => rfl
      | succ count =>
        rw [iterate_next hnext, hresult, hrest steps (by omega) count,
          List.cons_append, List.take_succ_cons, take_append_replicate_succ]
        rfl

end Reader

/-! ## Files of records -/

/-- **The bytes of a file** of records of a schema: a header with the schema's
text and no codec but `null`, and blocks. -/
structure Schema.File (s : Schema) (records : List (List UInt8))
    (entries : List (String × List UInt8)) (sync bytes : List UInt8) :
    Prop where
  /-- The metadata has the schema's text. -/
  schema : Entries.find? Header.schemaKey (Entries.ofList entries)
    = some (utf8 s.source)
  /-- The metadata has no codec, or `null`. -/
  codec : Entries.find? Header.codecKey (Entries.ofList entries) = none
    ∨ Entries.find? Header.codecKey (Entries.ofList entries)
      = some (utf8 "null")
  /-- The bytes are those of a header and of blocks. -/
  exists_blocks : ∃ header blocks, bytes = header ++ blocks
    ∧ Header.Written entries sync header ∧ s.Blocks sync records blocks

/-- The records of blocks are data. -/
theorem Schema.Blocks.data {s : Schema} {sync : List UInt8}
    {records : List (List UInt8)} {bytes : List UInt8}
    (h : s.Blocks sync records bytes) :
    ∀ record ∈ records, s.Data s.root record := by
  induction h with
  | none => exact fun record h => absurd h List.not_mem_nil
  | @block records others bytes rest hblock _ ih =>
    intro record hrecord
    cases hblock with
    | block _ _ _ hdata =>
      exact (List.mem_append.mp hrecord).elim (hdata record) (ih record)

/-- Elements that are related to something are related to a list. -/
theorem exists_forall₂ {α β : Type} {R : α → β → Prop} :
    ∀ {l : List α}, (∀ a ∈ l, ∃ b, R a b) → ∃ l', List.Forall₂ R l l'
  | [], _ => ⟨[], .nil⟩
  | a :: l, h => by
    obtain ⟨b, hb⟩ := h a List.mem_cons_self
    obtain ⟨l', hl'⟩ := exists_forall₂ (l := l) fun a' ha' =>
      h a' (List.mem_cons_of_mem _ ha')
    exact ⟨b :: l', .cons hb hl'⟩

/-- **Reading a file is decoding its records one by one.** The file of a schema
is opened, and what the iteration over it answers is what its records give,
each decoded on its own: their values in their order up to the first record
that has none, the error of that record, and then nothing. -/
theorem Reader.iterates {writer : Schema} {reader : Option Schema}
    {p : Program} (hwriter : Schema.parse writer.source = .ok writer)
    (hp : compile writer (reader.getD writer) = .ok p) (hfits : p.Fits)
    (hwriterFits : writer.Fits)
    (hnames : NamesTellRecords
      (Demand.Requested writer (reader.getD writer)))
    {maxDepth : Nat} (hdepth : 4 ≤ maxDepth)
    {records : List (List UInt8)} {entries : List (String × List UInt8)}
    {sync bytes : List UInt8}
    (hfile : writer.File records entries sync bytes) :
    ∃ results, List.Forall₂ (p.Gives (reader.getD writer) maxDepth) records
        results
      ∧ ∃ r enough, ∀ steps, enough ≤ steps →
        start (Input.ofBytes bytes) reader maxDepth steps = some (.ok r)
        ∧ ∀ count, iterate steps count r
          = some ((answers results
            ++ List.replicate count (Except.ok none)).take count) := by
  obtain ⟨header, blocks, rfl, hheader, hblocks⟩ := hfile.exists_blocks
  have hlocal : ∀ record ∈ records, ∃ o : Outcome Builder Unit,
      p.Yields (Builder.sink (reader.getD writer)) maxDepth
        (Input.ofBytes record)
        (Builder.fresh (reader.getD writer) (reader.getD writer).root) o
      ∧ ∀ rest : Input, ∃ left,
        p.Yields (Builder.sink (reader.getD writer)) maxDepth
          (rest.prepend record)
          (Builder.fresh (reader.getD writer) (reader.getD writer).root)
          (o.withInput left)
        ∧ (o.result = .ok () → left = rest) := fun record hrecord =>
    compile_local hp hfits hwriterFits hnames (hblocks.data record hrecord) _
      _ _
  obtain ⟨outcomes, houtcomes⟩ := exists_forall₂ hlocal
  refine ⟨outcomes.map (Outcome.delivered (reader.getD writer)),
    List.forall₂_map_right_iff.mpr (houtcomes.imp fun record o h =>
      ⟨o, h.1, rfl⟩), ?_⟩
  obtain ⟨enough, hstart⟩ := start_header hheader hfile.codec hfile.schema
    hwriter hp hdepth (Input.ofBytes blocks)
  have hahead : Ahead writer (reader.getD writer) p maxDepth sync [] records
      ⟨Input.ofBytes blocks, writer, reader.getD writer,
        Entries.ofList entries, p, maxDepth, sync, 0, 0, false⟩ :=
    ⟨rfl, rfl, rfl, rfl, rfl, rfl, fun _ h => absurd h List.not_mem_nil,
      blocks, hblocks, rfl⟩
  obtain ⟨enough', hiterate⟩ := hahead.iterate hheader.length_sync
    (houtcomes.imp fun record o h => h.2) rfl
  exact ⟨_, max enough enough', fun steps hsteps =>
    ⟨hstart steps (by omega), hiterate steps (by omega)⟩⟩

/-! ## A file of numbers -/

namespace Numbers

theorem parse_source : Schema.parse schema.source = .ok schema := by cbv

theorem size_compile : (compile schema schema).map (fun p =>
    (p.instructions.size, p.errors.length)) = .ok (3, 0) := by cbv

/-- A block without records and one with two, behind a header. The sizes are
not those of the blocks. -/
def file (sync : List UInt8) : List UInt8 :=
  schema.headerBytes sync
    ++ (([0] ++ [1] ++ [] ++ sync) ++ (([4] ++ [8] ++ [2, 4] ++ sync) ++ []))

/-- The bytes are those of a file of two records. -/
theorem file_file {sync : List UInt8} (hsync : sync.length = 16) :
    schema.File [[2], [4]] (Header.writtenBytes schema.source) sync
      (file sync) := by
  have hrecord : ∀ bytes ∈ [[2], [4]], schema.Data schema.root bytes := by
    simp only [List.forall_mem_cons]
    exact ⟨.primitive (v := .int 1) fun _ => rfl,
      .primitive (v := .int 2) fun _ => rfl, fun _ h =>
        absurd h List.not_mem_nil⟩
  have hempty : schema.Block sync [] ([0] ++ [1] ++ [] ++ sync) :=
    .block (n := 0) (m := -1) (fun _ => rfl) rfl (fun _ => rfl)
      fun _ h => absurd h List.not_mem_nil
  have hnumbers : schema.Block sync [[2], [4]] ([4] ++ [8] ++ [2, 4] ++ sync) :=
    .block (n := 2) (m := 4) (fun _ => rfl) rfl (fun _ => rfl) hrecord
  have hblocks : schema.Blocks sync [[2], [4]] (([0] ++ [1] ++ [] ++ sync)
      ++ (([4] ++ [8] ++ [2, 4] ++ sync) ++ [])) :=
    .block hempty (.block hnumbers .none)
  exact {
    schema := (Header.find?_writtenBytes _).1
    codec := .inr (Header.find?_writtenBytes _).2
    exists_blocks := ⟨_, _, rfl,
      Header.written_headerBytes (by cbv) hsync, hblocks⟩ }

end Numbers

/-- The file of two numbers is read as what the numbers give. -/
theorem Reader.iterates_numbers : ∃ p results r enough,
    compile Numbers.schema Numbers.schema = .ok p
    ∧ List.Forall₂ (p.Gives Numbers.schema 4) [[2], [4]] results
    ∧ ∀ steps, enough ≤ steps →
      Reader.start (Input.ofBytes (Numbers.file (List.replicate 16 7))) none 4
        steps = some (.ok r)
      ∧ ∀ count, Reader.iterate steps count r
        = some ((answers results
          ++ List.replicate count (Except.ok none)).take count) := by
  obtain ⟨p, hp, hsize⟩ := exists_of_map_ok Numbers.size_compile
  obtain ⟨hsize, hmessages⟩ := Prod.mk.inj hsize
  have hnames : NamesTellRecords
      (Demand.OfRecords Numbers.schema Numbers.schema) :=
    namesTellRecords_of_not_hasArrow
      (Schema.parse_wellFormed Numbers.parse_source)
      fun name ⟨r, hr⟩ => absurd hr (by simp [Numbers.schema, Schema.definition?])
  obtain ⟨results, hresults, r, enough, hreads⟩ :=
    @Reader.iterates Numbers.schema none p Numbers.parse_source hp
      ⟨by omega, by omega⟩ ⟨trivial, by simp [Numbers.schema]⟩
      (fun d d' hd hd' => hnames d d' hd.ofRecords hd'.ofRecords) 4
      (Nat.le_refl 4) _ _ _ _ (Numbers.file_file List.length_replicate)
  exact ⟨p, results, r, enough, hp, hresults, hreads⟩

/-! ## A file of one record with arrows

The array in a chunk for each of its items (`Arrows.cut`) is decoded on its own
as an array of one item, and three of its bytes are left. In a file they are
taken for the beginning of the marker. -/

namespace Arrows

/-- The marker. -/
def marker : List UInt8 := List.replicate 16 7

/-- A block of one record. -/
def blockBytes : List UInt8 := [2] ++ [20] ++ [[2] ++ cut].flatten ++ marker

/-- The record is data. -/
theorem data_cut : writer.Data writer.root ([2] ++ cut) := by
  have hone : (1 : Int64).toInt = (1 : Nat) := rfl
  exact .union (fun _ => rfl) hone rfl (.array chunked_cut item_of_mem)

theorem length_source :
    (utf8 writer.source).length < 0x8000000000000000 := by
  decide +kernel

/-- The file of the record. -/
theorem file_cut : writer.File [[2] ++ cut]
    (Header.writtenBytes writer.source) marker
    (writer.headerBytes marker ++ (blockBytes ++ [])) where
  schema := (Header.find?_writtenBytes _).1
  codec := .inr (Header.find?_writtenBytes _).2
  exists_blocks := ⟨_, _, rfl,
    Header.written_headerBytes length_source List.length_replicate,
    .block (.block (n := 1) (m := 10) (fun _ => rfl) rfl (fun _ => rfl)
      fun bytes h => by
        rw [List.mem_singleton.mp h]
        exact data_cut) .none⟩

/-- What comes behind the record. -/
def behind : Input := Input.ofBytes marker

/-- The reader of the file. -/
def opened (p : Program) (input : Input) (remaining blocks : Nat) : Reader :=
  ⟨input, writer, reader, Entries.ofList (Header.writtenBytes writer.source),
    p, 1000, marker, remaining, blocks, false⟩

/-- A run that leaves three bytes leads to an error. -/
theorem iterate_opened {p : Program} {o : Outcome Builder Unit} {steps : Nat}
    (hrun : p.run (Builder.sink reader) 1000 steps
        (behind.prepend ([2] ++ cut)) (Builder.fresh reader reader.root)
      = some (o.withInput (behind.prepend [2, 0, 0])))
    (hok : o.result = .ok ()) :
    Reader.iterate steps 1 (opened p (Input.ofBytes (blockBytes ++ [])) 0 0)
      = some [.error (.syncMismatch 1)] := by
  have hcount : Reads Wire.readLong [2] 1 := fun _ => rfl
  have hsize : Reads Wire.readLong [20] 10 := fun _ => rfl
  have hinput : (opened p (Input.ofBytes (blockBytes ++ [])) 0 0).input
      = (behind.prepend ([2] ++ cut)).prepend ([2] ++ [20]) := rfl
  have hone : (1 : Int64).toInt = (1 : Nat) := rfl
  have hseek : (opened p (Input.ofBytes (blockBytes ++ [])) 0 0).seekRecord
      ((opened p (Input.ofBytes (blockBytes ++ [])) 0 0).input.rest.length + 1)
      = (.ok true, opened p (behind.prepend ([2] ++ cut)) 1 1) :=
    (Reader.seekRecord_frame rfl hinput hcount hsize hone _).1 Nat.one_ne_zero
  have hsync : (opened p (behind.prepend [2, 0, 0]) 0 1).checkSync
      = (.error (.syncMismatch 1),
        opened p (Input.ofBytes (List.replicate 3 7)) 0 1) := rfl
  have hread : (opened p (Input.ofBytes (blockBytes ++ [])) 0 0).readInto
      (Builder.sink reader) steps (Builder.fresh reader reader.root)
      = some (.error (.syncMismatch 1),
        opened p (Input.ofBytes (List.replicate 3 7)) 0 1, o.state) := by
    have hrun' : (opened p (behind.prepend ([2] ++ cut)) 1 1).program.run
        (Builder.sink reader) (opened p (behind.prepend ([2] ++ cut)) 1
          1).maxDepth steps (opened p (behind.prepend ([2] ++ cut)) 1 1).input
        (Builder.fresh reader reader.root)
        = some ⟨.ok (), behind.prepend [2, 0, 0], o.state⟩ := by
      rw [← hok]
      exact hrun
    exact Reader.readInto_last hseek hrun' rfl hsync
  have hnext : (opened p (Input.ofBytes (blockBytes ++ [])) 0 0).next steps
      = some (.error (.syncMismatch 1),
        { opened p (Input.ofBytes (List.replicate 3 7)) 0 1 with
          failed := true }) := by
    exact Reader.next_of_readInto_error rfl hread
  rw [Reader.iterate_next hnext]
  rfl

end Arrows

/-- **A record that is lost**: on its own it gives a value, and a file of it an
error. -/
theorem Arrows.lost_record :
    (∃ source, Schema.parse source = .ok Arrows.reader)
    ∧ Schema.parse Arrows.writer.source = .ok Arrows.writer
    ∧ ∃ p v bytes, compile Arrows.writer Arrows.reader = .ok p
      ∧ Arrows.writer.File [[2] ++ Arrows.cut]
        (Header.writtenBytes Arrows.writer.source) Arrows.marker bytes
      ∧ p.Gives Arrows.reader 1000 ([2] ++ Arrows.cut) (.ok v)
      ∧ ∃ r enough, ∀ steps, enough ≤ steps →
        Reader.start (Input.ofBytes bytes) (some Arrows.reader) 1000 steps
          = some (.ok r)
        ∧ Reader.iterate steps 1 r = some [.error (.syncMismatch 1)] := by
  refine ⟨⟨_, Arrows.parse_read⟩, Arrows.parse_written, ?_⟩
  obtain ⟨p, o, v, hp, hrun, hok, hleft, hv, -⟩ := Arrows.gives_cut
  have hyields : p.Yields (Builder.sink Arrows.reader) 1000
      (Input.ofBytes ([2] ++ Arrows.cut))
      (Builder.fresh Arrows.reader Arrows.reader.root) o := .of_run hrun
  have hgives : p.Gives Arrows.reader 1000 ([2] ++ Arrows.cut) (.ok v) :=
    ⟨o, hyields, by simp only [Outcome.delivered, hok, hv, Except.mapError]⟩
  refine ⟨p, v, _, hp, Arrows.file_cut, hgives, ?_⟩
  -- In the file, the run does the same and leaves the same three bytes.
  have hnot : ¬ o.AtEnd (Input.ofBytes []) := by
    rintro ⟨e, he, -⟩
    rw [hok] at he
    exact absurd he (by simp)
  have hkept : o.input = (Input.ofBytes []).prepend [2, 0, 0] := hleft
  rw [← Input.prepend_ofBytes_nil] at hyields
  obtain ⟨enough, hrun⟩ := hyields.local hkept hnot Arrows.behind
  have hheader : Header.Written (Header.writtenBytes Arrows.writer.source)
      Arrows.marker (Arrows.writer.headerBytes Arrows.marker) :=
    Header.written_headerBytes Arrows.length_source List.length_replicate
  obtain ⟨enough', hstart⟩ : ∃ enough, ∀ steps, enough ≤ steps →
      Reader.start ((Input.ofBytes (Arrows.blockBytes ++ [])).prepend
        (Arrows.writer.headerBytes Arrows.marker)) (some Arrows.reader) 1000
        steps
      = some (.ok (Arrows.opened p (Input.ofBytes (Arrows.blockBytes ++ []))
        0 0)) :=
    @Reader.start_header _ _ _ hheader _ _ p (some Arrows.reader)
      Arrows.file_cut.codec Arrows.file_cut.schema Arrows.parse_written hp 1000
      (by decide) _
  exact ⟨_, max enough enough', fun steps hsteps =>
    ⟨hstart steps (by omega), Arrows.iterate_opened (hrun steps (by omega))
      hok⟩⟩

end Avro
