import Avro.Proofs.Container.Writing

/-!
# Writing to an output that becomes full

An output with a capacity takes a part of the write that does not fit and then
nothing more. The file that it holds is cut off there, and nothing else is
wrong with it: it holds the first bytes of the file that an output without a
limit holds after the same calls (`Writer.leftBehind_capacity`).

This is not because the two writers do the same. A block that is not taken
completely stays in the buffer, so from then on the limited writer retries one
block that grows, while the other one goes on to further blocks. What the two
have in common is a statement about their outputs alone, and about their
buffers only as long as everything was taken (`Writer.Mirrors`).

A header and a block are written piece by piece, and the output may become
full in any of the pieces. That is the same as one write of all the bytes
(`Output.writeAll_eq_write`).
-/

namespace Avro

/-! ## Outputs -/

namespace Output

/-- An output without a limit takes everything. -/
theorem write_unlimited (written bytes : List UInt8) :
    (Output.mk written none).write bytes
      = (true, ⟨written ++ bytes, none⟩) := by
  simp [write, taken]

/-- An output with a capacity takes what fits. -/
theorem write_limited (written bytes : List UInt8) (capacity : Nat) :
    (Output.mk written (some capacity)).write bytes
      = (decide (bytes.length ≤ capacity - written.length),
        ⟨written ++ bytes.take (capacity - written.length), some capacity⟩) := by
  simp [write, taken]

/-- **Writing bytes and then others** is writing both at once. -/
theorem write_append (o : Output) (bytes more : List UInt8) :
    o.write (bytes ++ more) = match o.write bytes with
      | (true, o) => o.write more
      | (false, o) => (false, o) := by
  obtain ⟨written, capacity⟩ := o
  cases capacity with
  | none => simp only [write_unlimited, List.append_assoc]
  | some capacity =>
    rw [write_limited, write_limited, List.length_append]
    by_cases hfits : bytes.length ≤ capacity - written.length
    · simp only [hfits, decide_true, write_limited,
        List.take_of_length_le hfits, List.length_append, List.take_append,
        List.append_assoc, Nat.sub_add_eq]
      congr 1
      exact decide_eq_decide.mpr (by omega)
    · have hnot : ¬ bytes.length + more.length ≤ capacity - written.length := by
        omega
      simp only [hfits, hnot, decide_false]
      rw [List.take_append_of_le_length (by omega)]

/-- **Writes pieces** one after another, up to the first one that is not taken
completely. -/
def writeAll (o : Output) : List (List UInt8) → Bool × Output
  | [] => (true, o)
  | piece :: rest =>
    match o.write piece with
    | (true, o) => o.writeAll rest
    | (false, o) => (false, o)

/-- **Writing pieces is writing them at once**, wherever the output becomes
full. -/
theorem writeAll_eq_write (o : Output) (pieces : List (List UInt8)) :
    o.writeAll pieces = o.write pieces.flatten := by
  induction pieces generalizing o with
  | nil =>
    obtain ⟨written, capacity⟩ := o
    cases capacity with
    | none => simp [writeAll, write_unlimited]
    | some capacity => simp [writeAll, write_limited]
  | cons piece rest ih =>
    rw [writeAll, List.flatten_cons, write_append]
    cases o.write piece with
    | mk complete o =>
      cases complete with
      | true => exact ih o
      | false => rfl

/-- **An output holds the first bytes** of what an unlimited one holds. -/
structure Mirrors (capacity : Nat) (o u : Output) : Prop where
  /-- The first output has the capacity. -/
  limited : o.capacity = some capacity
  /-- The second one has none. -/
  unlimited : u.capacity = none
  /-- The bytes are the first ones. -/
  written : o.written = u.written.take capacity

variable {capacity : Nat} {o u : Output}

/-- **Writing the same keeps the first bytes**, and fails for what does not
fit. -/
theorem Mirrors.write (h : o.Mirrors capacity u) (bytes : List UInt8) :
    (o.write bytes).2.Mirrors capacity (u.write bytes).2
      ∧ (u.write bytes).1 = true
      ∧ ((u.write bytes).2.written.length ≤ capacity →
        (o.write bytes).1 = true) := by
  obtain ⟨written, _⟩ := o
  obtain ⟨all, _⟩ := u
  obtain ⟨rfl, rfl, rfl⟩ := h
  rw [write_unlimited, write_limited, List.length_take]
  have hroom : capacity - min capacity all.length = capacity - all.length := by
    omega
  rw [hroom]
  refine ⟨⟨rfl, rfl, List.take_append.symm⟩, rfl, fun hle => ?_⟩
  rw [List.length_append] at hle
  exact decide_eq_true (by omega)

end Output

namespace Writer

/-! ## One writer -/

/-- The pieces in which a block is written. -/
def blockPieces (w : Writer) : List (List UInt8) :=
  [Wire.integer w.pending, Wire.integer w.block.length, w.block, w.sync]

/-- **A block is written in four pieces**, and the first one that is not taken
completely is the last. -/
theorem writeBlock_eq_writeAll (w : Writer) (hpending : w.pending ≠ 0) :
    w.writeBlock = match w.output.writeAll w.blockPieces with
      | (true, output) => (.ok (), { w with output, block := [], pending := 0 })
      | (false, output) => (.error (.device Output.full), { w with output }) := by
  have hpieces : w.blockPieces.flatten = w.blockBytes := by
    simp [blockPieces, blockBytes]
  rw [Output.writeAll_eq_write, hpieces]
  exact if_neg hpending

/-- **What a call leaves alone**: the settings of a writer, and what its output
holds already. -/
structure Extends (w' w : Writer) : Prop where
  schema : w'.schema = w.schema
  sync : w'.sync = w.sync
  recordsPerBlock : w'.recordsPerBlock = w.recordsPerBlock
  capacity : w'.output.capacity = w.output.capacity
  /-- The output holds what it held, and what fits of more. -/
  written : ∃ more, w'.output.written
    = w.output.written ++ w.output.taken more

theorem Extends.refl (w : Writer) : w.Extends w := by
  refine ⟨rfl, rfl, rfl, rfl, [], ?_⟩
  unfold Output.taken
  cases w.output.capacity <;> simp

theorem writeBlock_extends (w : Writer) : w.writeBlock.2.Extends w := by
  unfold writeBlock
  split
  · exact .refl w
  · split <;>
    · rename_i output hwrite
      obtain rfl : (w.output.write w.blockBytes).2 = output :=
        congrArg Prod.snd hwrite
      exact ⟨rfl, rfl, rfl, rfl, _, rfl⟩

/-- **A call leaves alone what the output holds already.** -/
theorem perform_extends (w : Writer) (call : WriterCall) :
    (w.perform call).2.Extends w := by
  cases call with
  | flush => exact w.writeBlock_extends
  | append v =>
    show (w.append v).2.Extends w
    unfold append
    dsimp only
    split
    · exact .refl w
    · have hkept : ({ w with
          block := w.block ++ (w.schema.encode v).bytes
          pending := w.pending + 1 } : Writer).Extends w :=
        ⟨rfl, rfl, rfl, rfl, (Extends.refl w).written⟩
      split
      · obtain ⟨hschema, hsync, hrecords, hcapacity, hwritten⟩ :=
          writeBlock_extends { w with
            block := w.block ++ (w.schema.encode v).bytes
            pending := w.pending + 1 }
        exact ⟨hschema, hsync, hrecords, hcapacity, hwritten⟩
      · exact hkept

/-! ## Two writers -/

/-- **A writer mirrors an unlimited one**: its output holds the first bytes,
and as long as these are all, the two buffers are the same. -/
structure Mirrors (capacity : Nat) (w u : Writer) : Prop where
  /-- The outputs. -/
  output : w.output.Mirrors capacity u.output
  schema : w.schema = u.schema
  sync : w.sync = u.sync
  recordsPerBlock : w.recordsPerBlock = u.recordsPerBlock
  /-- The buffers are the same while everything is taken. -/
  buffer : u.output.written.length ≤ capacity →
    w.block = u.block ∧ w.pending = u.pending

variable {capacity : Nat} {w u : Writer}

/-- **A full output stays as it is**, whatever the writers do. -/
theorem Mirrors.of_full (h : w.Mirrors capacity u)
    (hfull : capacity < u.output.written.length) {w' u' : Writer}
    (hw : w'.Extends w) (hu : u'.Extends u) : w'.Mirrors capacity u' := by
  obtain ⟨more, hw'⟩ := hw.written
  obtain ⟨others, hu'⟩ := hu.written
  have hlength : w.output.written.length = capacity := by
    rw [h.output.written, List.length_take]
    omega
  have hnone : w.output.taken more = [] := by
    simp only [Output.taken, h.output.limited, hlength, Nat.sub_self,
      List.take_zero]
  refine ⟨⟨hw.capacity.trans h.output.limited,
    hu.capacity.trans h.output.unlimited, ?_⟩, ?_, ?_, ?_, fun hle => ?_⟩
  · rw [hw', hu', hnone, List.append_nil, h.output.written,
      List.take_append_of_le_length (Nat.le_of_lt hfull)]
  · rw [hw.schema, hu.schema, h.schema]
  · rw [hw.sync, hu.sync, h.sync]
  · rw [hw.recordsPerBlock, hu.recordsPerBlock, h.recordsPerBlock]
  · rw [hu', List.length_append] at hle
    omega

/-- Two writers of the same buffer write the same block, each as far as its
output takes it. -/
theorem Mirrors.writeBlock (h : w.Mirrors capacity u)
    (hroom : u.output.written.length ≤ capacity) :
    w.writeBlock.2.Mirrors capacity u.writeBlock.2 := by
  obtain ⟨hblock, hpending⟩ := h.buffer hroom
  have hbytes : w.blockBytes = u.blockBytes := by
    unfold blockBytes
    rw [hblock, hpending, h.sync]
  obtain ⟨houtput, hall, hfits⟩ := h.output.write u.blockBytes
  unfold Writer.writeBlock
  rw [hpending, hbytes]
  split
  · exact h
  · cases hw : w.output.write u.blockBytes with
    | mk complete output =>
    cases hu : u.output.write u.blockBytes with
    | mk complete' output' =>
    rw [hw, hu] at houtput hfits
    rw [hu] at hall
    obtain rfl : complete' = true := hall
    cases complete with
    | true =>
      exact ⟨houtput, h.schema, h.sync, h.recordsPerBlock, fun _ => ⟨rfl, rfl⟩⟩
    | false =>
      -- the block did not fit, so the output is full
      exact ⟨houtput, h.schema, h.sync, h.recordsPerBlock,
        fun hle => absurd (hfits hle) (by simp)⟩

/-- **A call keeps a writer mirroring.** -/
theorem Mirrors.perform (h : w.Mirrors capacity u) (call : WriterCall) :
    (w.perform call).2.Mirrors capacity (u.perform call).2 := by
  by_cases hroom : u.output.written.length ≤ capacity
  · cases call with
    | flush => exact h.writeBlock hroom
    | append v =>
      obtain ⟨hblock, hpending⟩ := h.buffer hroom
      show (w.append v).2.Mirrors capacity (u.append v).2
      unfold append
      rw [h.schema, h.recordsPerBlock, hblock, hpending]
      dsimp only
      split
      · exact h
      · have hadded : ({ w with
              schema := u.schema
              recordsPerBlock := u.recordsPerBlock
              block := u.block ++ (u.schema.encode v).bytes
              pending := u.pending + 1 } : Writer).Mirrors capacity { u with
              block := u.block ++ (u.schema.encode v).bytes
              pending := u.pending + 1 } :=
          ⟨h.output, rfl, h.sync, rfl, fun _ => ⟨rfl, rfl⟩⟩
        split
        · exact hadded.writeBlock hroom
        · exact hadded
  · exact h.of_full (Nat.lt_of_not_le hroom) (w.perform_extends call)
      (u.perform_extends call)

/-- **Calls keep a writer mirroring.** -/
theorem Mirrors.performAll (h : w.Mirrors capacity u) :
    ∀ calls : List WriterCall,
      (w.performAll calls).2.Mirrors capacity (u.performAll calls).2 := by
  intro calls
  induction calls generalizing w u with
  | nil => exact h
  | cons call rest ih => exact ih (h.perform call)

/-! ## Files -/

/-- **What is left behind on an output** with or without a capacity, after a
file was opened on it and calls were made, whatever failed. -/
def leftBehind (capacity : Option Nat) (s : Schema) (sync : List UInt8)
    (recordsPerBlock : Nat) (calls : List WriterCall) : List UInt8 :=
  match start (Output.empty capacity) s sync recordsPerBlock with
  | (.error _, output) => output.written
  | (.ok w, _) => (w.performAll calls).2.output.written

/-- **Opening a file writes as much of the header as fits**, and fails if that
is not all of it. -/
theorem start_limited (s : Schema) {sync : List UInt8}
    (hsync : sync.length = 16) (recordsPerBlock capacity : Nat) :
    start (Output.empty (some capacity)) s sync recordsPerBlock
      = if (s.headerBytes sync).length ≤ capacity then
          (.ok ⟨⟨s.headerBytes sync, some capacity⟩, s, sync, recordsPerBlock,
            [], 0⟩, ⟨s.headerBytes sync, some capacity⟩)
        else (.error (.encode (.device Output.full)),
          ⟨(s.headerBytes sync).take capacity, some capacity⟩) := by
  unfold start Draft.writeTo
  rw [Header.encode_value s hsync]
  simp only [Draft.ok, Output.empty, Output.write_limited, List.length_nil,
    Nat.sub_zero, List.nil_append]
  by_cases hfits : (s.headerBytes sync).length ≤ capacity
  · simp [hfits, List.take_of_length_le hfits]
  · simp [hfits]

/-- **An output that becomes full holds the first bytes of the file**: of what
an output without a limit holds after the same calls, whatever errors they
return. If not even the header fits, the file is not opened, and the output
holds the first bytes of the header. -/
theorem leftBehind_capacity (s : Schema) {sync : List UInt8}
    (hsync : sync.length = 16) (recordsPerBlock capacity : Nat)
    (calls : List WriterCall) :
    leftBehind (some capacity) s sync recordsPerBlock calls
        = (leftBehind none s sync recordsPerBlock calls).take capacity
      ∧ (capacity < (s.headerBytes sync).length →
        start (Output.empty (some capacity)) s sync recordsPerBlock
          = (.error (.encode (.device Output.full)),
            ⟨(s.headerBytes sync).take capacity, some capacity⟩))
      ∧ ((s.headerBytes sync).length ≤ capacity →
        ∃ w, start (Output.empty (some capacity)) s sync recordsPerBlock
          = (.ok w, w.output)) := by
  have hunlimited : (Output.empty none).capacity = none := rfl
  obtain ⟨u, hstart, hu⟩ := start_carries s hsync recordsPerBlock hunlimited
  have hlimited := start_limited s hsync recordsPerBlock capacity
  by_cases hfits : (s.headerBytes sync).length ≤ capacity
  · rw [if_pos hfits] at hlimited
    refine ⟨?_, fun hlt => absurd hlt (Nat.not_lt.mpr hfits),
      fun _ => ⟨_, hlimited⟩⟩
    have hmirrors : Mirrors capacity ⟨⟨s.headerBytes sync, some capacity⟩, s,
        sync, recordsPerBlock, [], 0⟩ u := by
      refine ⟨⟨rfl, by rw [hu.output], ?_⟩, hu.schema.symm, hu.sync.symm,
        hu.recordsPerBlock.symm, fun _ => ⟨hu.block.symm, hu.pending.symm⟩⟩
      simp [hu.output, Output.empty, Batches.none,
        List.take_of_length_le hfits]
    unfold leftBehind
    rw [hlimited, hstart]
    exact (hmirrors.performAll calls).output.written
  · rw [if_neg hfits] at hlimited
    refine ⟨?_, fun _ => hlimited, fun hle => absurd hle hfits⟩
    obtain ⟨w', hcalls, hw'⟩ := hu.performAll calls
    unfold leftBehind
    rw [hlimited, hstart]
    simp only [hcalls, hw'.output, Output.empty, List.nil_append]
    rw [List.take_append_of_le_length (by omega)]

end Writer

/-! ### A file of numbers that is cut off -/

theorem Numbers.length_headerBytes :
    (schema.headerBytes (List.replicate 16 7)).length = 56 := by decide +kernel

/-- An output of 70 bytes takes the header of a file of numbers and a part of
its first block; one of 3 bytes does not even take the header. -/
theorem Writer.leftBehind_numbers :
    Writer.leftBehind (some 70) Numbers.schema (List.replicate 16 7) 2
        Numbers.calls
      = (Writer.leftBehind none Numbers.schema (List.replicate 16 7) 2
        Numbers.calls).take 70
    ∧ (∃ w, Writer.start (Output.empty (some 70)) Numbers.schema
        (List.replicate 16 7) 2 = (.ok w, w.output))
    ∧ Writer.start (Output.empty (some 3)) Numbers.schema
        (List.replicate 16 7) 2
      = (.error (.encode (.device Output.full)),
        ⟨(Numbers.schema.headerBytes (List.replicate 16 7)).take 3,
          some 3⟩) := by
  have hsync : (List.replicate 16 (7 : UInt8)).length = 16 :=
    List.length_replicate
  have hlength := Numbers.length_headerBytes
  obtain ⟨hfirst, -, hopened⟩ := Writer.leftBehind_capacity Numbers.schema
    hsync 2 70 Numbers.calls
  obtain ⟨-, hrefused, -⟩ := Writer.leftBehind_capacity Numbers.schema
    hsync 2 3 Numbers.calls
  exact ⟨hfirst, hopened (by omega), hrefused (by omega)⟩

end Avro
