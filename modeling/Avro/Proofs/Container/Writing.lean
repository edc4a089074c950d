import Avro.Proofs.Container.Batches
import Avro.Proofs.Container.Header

/-!
# What a writer writes

On an output that takes everything, a writer's state says no more than which
batches it has closed and which values are pending (`Writer.Carries`): the
output holds the header and the blocks of the closed batches, and the buffer
the records of the pending values. A call does to the state what it does to the
batches (`Writer.Carries.perform`), and so a file that is closed is its header
and the blocks of its calls (`Writer.close_blocks`).

The declared length of a block is that of its data because the buffer is
exactly the records that are counted. A value that fails to be encoded keeps
that true: the bytes in front of its fault are never in the buffer.
-/

namespace Avro

/-! ## The bytes of a file -/

/-- The records of values, one after the other. -/
def Schema.records (s : Schema) (values : List Value) : List UInt8 :=
  values.flatMap fun v => (s.encode v).bytes

/-- **The bytes of a block**: the number of its records, the number of their
bytes, the records and the marker. -/
def Schema.blockBytes (s : Schema) (sync : List UInt8)
    (values : List Value) : List UInt8 :=
  Wire.integer values.length ++ Wire.integer (s.records values).length
    ++ s.records values ++ sync

/-! ## Calls -/

/-- What a call returns on an output that takes everything. -/
def WriterCall.answer (s : Schema) : WriterCall → Except ContainerError Unit
  | .append v =>
    match (s.encode v).fault with
    | some e => .error (.encode e)
    | none => .ok ()
  | .flush => .ok ()

namespace Writer

/-- Performs a call. -/
def perform (w : Writer) : WriterCall → Except ContainerError Unit × Writer
  | .append v => w.append v
  | .flush => w.flush

/-- **Performs calls**: what each of them returns, and the writer after
them. -/
def performAll (w : Writer) :
    List WriterCall → List (Except ContainerError Unit) × Writer
  | [] => ([], w)
  | call :: rest =>
    let (answer, w) := w.perform call
    let (answers, w) := w.performAll rest
    (answer :: answers, w)

/-- **A writer carries batches**: the blocks of the closed ones are written
behind `front`, and the records of the pending values are buffered. -/
structure Carries (s : Schema) (sync : List UInt8) (recordsPerBlock : Nat)
    (front : List UInt8) (b : Batches) (w : Writer) : Prop where
  /-- What is written. -/
  output : w.output = ⟨front ++ b.closed.flatMap (s.blockBytes sync), none⟩
  schema : w.schema = s
  sync : w.sync = sync
  recordsPerBlock : w.recordsPerBlock = recordsPerBlock
  /-- What is buffered. -/
  block : w.block = s.records b.pending
  pending : w.pending = b.pending.length

variable {s : Schema} {sync : List UInt8} {recordsPerBlock : Nat}
  {front : List UInt8} {b : Batches} {w : Writer}

/-- **Writing the block at hand closes the batch.** -/
theorem Carries.writeBlock (h : w.Carries s sync recordsPerBlock front b) :
    ∃ w', w.writeBlock = (.ok (), w')
      ∧ w'.Carries s sync recordsPerBlock front b.close := by
  unfold Writer.writeBlock Batches.close
  by_cases hnil : b.pending = []
  · rw [if_pos hnil, if_pos (by rw [h.pending, hnil]; rfl)]
    exact ⟨w, rfl, h⟩
  · rw [if_neg hnil, if_neg (by
      rw [h.pending]
      exact fun hzero => hnil (List.length_eq_zero_iff.mp hzero))]
    have hbytes : w.blockBytes = s.blockBytes sync b.pending := by
      unfold blockBytes Schema.blockBytes
      rw [h.pending, h.block, h.sync]
    have hwrite : w.output.write w.blockBytes
        = (true, ⟨front ++ (b.closed ++ [b.pending]).flatMap
          (s.blockBytes sync), none⟩) := by
      rw [h.output, hbytes]
      simp [Output.write, Output.taken]
    rw [hwrite]
    exact ⟨_, rfl, ⟨rfl, h.schema, h.sync, h.recordsPerBlock, rfl, rfl⟩⟩

/-- **A call does to a writer what it does to the batches it carries.** -/
theorem Carries.perform (h : w.Carries s sync recordsPerBlock front b)
    (call : WriterCall) :
    ∃ w', w.perform call = (call.answer s, w')
      ∧ w'.Carries s sync recordsPerBlock front
        (call.apply s (max 1 recordsPerBlock) b) := by
  cases call with
  | flush => exact h.writeBlock
  | append v =>
    obtain rfl : w.schema = s := h.schema
    obtain rfl : w.recordsPerBlock = recordsPerBlock := h.recordsPerBlock
    show ∃ w', w.append v = _ ∧ _
    unfold Writer.append WriterCall.answer WriterCall.apply
    cases hfault : (w.schema.encode v).fault with
    | some e =>
      simp only [hfault]
      exact ⟨w, rfl, h⟩
    | none =>
      -- The writer with the record in its buffer, before it is looked at.
      have hadded : ({ w with
            block := w.block ++ (w.schema.encode v).bytes
            pending := w.pending + 1 } : Writer).Carries w.schema sync
          w.recordsPerBlock front ⟨b.closed, b.pending ++ [v]⟩ :=
        { output := h.output
          schema := rfl
          sync := h.sync
          recordsPerBlock := rfl
          block := by
            unfold Schema.records
            rw [List.flatMap_append, h.block]
            simp [Schema.records]
          pending := by
            show w.pending + 1 = _
            rw [h.pending, List.length_append]
            rfl }
      have hlength : w.pending + 1 = (b.pending ++ [v]).length := hadded.pending
      simp only [hfault, if_true]
      unfold Batches.add
      dsimp only
      by_cases hfull : max 1 w.recordsPerBlock ≤ w.pending + 1
      · rw [if_pos hfull, if_pos (hlength ▸ hfull)]
        exact hadded.writeBlock
      · rw [if_neg hfull, if_neg (hlength ▸ hfull)]
        exact ⟨_, rfl, hadded⟩

/-- **Calls do to a writer what they do to the batches it carries.** -/
theorem Carries.performAll (h : w.Carries s sync recordsPerBlock front b) :
    ∀ calls : List WriterCall, ∃ w',
      w.performAll calls = (calls.map (WriterCall.answer s), w')
      ∧ w'.Carries s sync recordsPerBlock front
        (calls.foldl (WriterCall.apply s (max 1 recordsPerBlock)) b) := by
  intro calls
  induction calls generalizing w b with
  | nil => exact ⟨w, rfl, h⟩
  | cons call rest ih =>
    obtain ⟨w₁, hcall, h₁⟩ := h.perform call
    obtain ⟨w₂, hrest, h₂⟩ := ih h₁
    refine ⟨w₂, ?_, h₂⟩
    unfold Writer.performAll
    rw [hcall]
    dsimp only
    rw [hrest]
    rfl

/-- **Opening a file writes the header.** -/
theorem start_carries (s : Schema) {sync : List UInt8}
    (hsync : sync.length = 16) (recordsPerBlock : Nat) {output : Output}
    (houtput : output.capacity = none) :
    ∃ w, Writer.start output s sync recordsPerBlock = (.ok w, w.output)
      ∧ w.Carries s sync recordsPerBlock
        (output.written ++ s.headerBytes sync) .none := by
  have hwrite : output.write (s.headerBytes sync)
      = (true, ⟨output.written ++ s.headerBytes sync, none⟩) := by
    unfold Output.write Output.taken
    rw [houtput]
    simp
  unfold Writer.start Draft.writeTo
  rw [Header.encode_value s hsync]
  unfold Draft.ok
  dsimp only
  rw [hwrite]
  refine ⟨⟨⟨output.written ++ s.headerBytes sync, none⟩, s, sync,
    recordsPerBlock, [], 0⟩, rfl, ⟨?_, rfl, rfl, rfl, rfl, rfl⟩⟩
  show _ = Output.mk (_ ++ []) none
  rw [List.append_nil]

/-- **A container file is its header and well-formed blocks.** Whatever values
are appended and whenever the writer is flushed, a call fails just for a value
that cannot be encoded, and the file that is closed holds, behind its header,
the blocks of the calls (`Schema.Blocked`). -/
theorem close_blocks (s : Schema) {sync : List UInt8}
    (hsync : sync.length = 16) (recordsPerBlock : Nat) {output : Output}
    (houtput : output.capacity = none) (calls : List WriterCall) :
    ∃ w w' file blocks,
      Writer.start output s sync recordsPerBlock = (.ok w, w.output)
      ∧ w.performAll calls = (calls.map (WriterCall.answer s), w')
      ∧ w'.close = .ok file
      ∧ s.Blocked (max 1 recordsPerBlock) calls blocks
      ∧ file.written = output.written ++ s.headerBytes sync
        ++ blocks.flatMap (s.blockBytes sync) := by
  obtain ⟨w, hstart, hw⟩ := start_carries s hsync recordsPerBlock houtput
  obtain ⟨w', hcalls, hw'⟩ := hw.performAll calls
  obtain ⟨w'', hclose, hw''⟩ := hw'.writeBlock
  have hsize : 0 < max 1 recordsPerBlock := by omega
  have hblocks := ((Batches.of_none (s := s) hsize).foldl hsize calls).blocked hsize
  refine ⟨w, w', w''.output, _, hstart, hcalls, ?_, hblocks, ?_⟩
  · unfold close flush
    rw [hclose]
  · rw [hw''.output]

end Writer

/-! ### A file of numbers -/

namespace Numbers

/-- A schema of integers. -/
def schema : Schema where
  root := .primitive .int
  definitions := []
  source := "\"int\""

/-- Calls that fill a block, append what is no integer, and flush a block that
is not full. -/
def calls : List WriterCall :=
  [.append (.int 1), .append (.int 2), .append .null, .append (.int 3), .flush,
    .append (.int 4)]

end Numbers

/-- A file of numbers, two in a block. -/
theorem Writer.close_blocks_numbers :
    ∃ w w' file blocks,
      Writer.start (Output.empty none) Numbers.schema (List.replicate 16 7) 2
        = (.ok w, w.output)
      ∧ w.performAll Numbers.calls
        = (Numbers.calls.map (WriterCall.answer Numbers.schema), w')
      ∧ w'.close = .ok file
      ∧ Numbers.schema.Blocked 2 Numbers.calls blocks
      ∧ file.written = Numbers.schema.headerBytes (List.replicate 16 7)
        ++ blocks.flatMap
          (Numbers.schema.blockBytes (List.replicate 16 7)) := by
  have hsync : (List.replicate 16 (7 : UInt8)).length = 16 :=
    List.length_replicate
  exact Writer.close_blocks Numbers.schema hsync 2 rfl Numbers.calls

/-- The second block is not full, for a flush closed it; the value that is no
integer is in none. -/
example : (Numbers.calls.foldl (WriterCall.apply Numbers.schema 2)
    .none).close.closed.map (·.map Value.kind)
      = [["int", "int"], ["int"], ["int"]] := by decide

end Avro
