import Avro.Proofs.Container.Capacity
import Mathlib.Algebra.GroupWithZero.Nat

/-!
# Appending again

An append fails for one of two reasons. A value that cannot be encoded is
refused, and the writer is as it was. A value that can be encoded is put into
the buffer first; if it fills the block and the output does not take the block,
the append fails *after* the value has been counted, and the value stays where
it is. Whoever reads the error as "not appended" and appends the value again
has it twice in the file (`Writer.retried`).

An output may fail at any write and take the next one. A call writes at most
one block, so it ends with the first write that fails, and of a failure no more
can be seen than how many bytes of the block were taken. Any number is possible
(`Output.exists_taken`), so it is enough to let a writer find its output in any
state at every call: a `WriterTurn` is a call together with the output that it
meets.

What holds over any turns is a balance (`Writer.turnAll_balance`): the records
in the blocks that were written completely, and those in the buffer at the end,
are what the buffer held before and then, each once and in order, the records
of the values that can be encoded. It does not speak of what the calls returned,
and that is the point: a value is written later or not for what it is, and not
for whether its append failed.
-/

namespace Avro

/-- **An output may take any part of what is written to it** and fail. -/
theorem Output.exists_taken (written bytes : List UInt8) {n : Nat}
    (hn : n < bytes.length) : ∃ o : Output, o.written = written
      ∧ (o.write bytes).1 = false
      ∧ (o.write bytes).2.written = written ++ bytes.take n := by
  refine ⟨⟨written, some (written.length + n)⟩, rfl, ?_⟩
  rw [write_limited, Nat.add_sub_cancel_left]
  exact ⟨decide_eq_false (Nat.not_le_of_lt hn), rfl⟩

/-- **A write that fails** leaves a part of the bytes on the output. -/
theorem Output.written_of_not_complete {o o' : Output} {bytes : List UInt8}
    (h : o.write bytes = (false, o')) :
    ∃ n, n < bytes.length ∧ o'.written = o.written ++ bytes.take n := by
  obtain ⟨written, capacity⟩ := o
  cases capacity with
  | none =>
    rw [write_unlimited] at h
    cases h
  | some capacity =>
    rw [write_limited] at h
    obtain ⟨hfits, rfl⟩ := Prod.mk.inj h
    exact ⟨_, Nat.lt_of_not_le (of_decide_eq_false hfits), rfl⟩

/-- **A write that is taken completely** leaves all of the bytes. -/
theorem Output.written_of_complete {o o' : Output} {bytes : List UInt8}
    (h : o.write bytes = (true, o')) : o'.written = o.written ++ bytes := by
  obtain ⟨written, capacity⟩ := o
  cases capacity with
  | none =>
    rw [write_unlimited] at h
    rw [← (Prod.mk.inj h).2]
  | some capacity =>
    rw [write_limited] at h
    obtain ⟨hfits, rfl⟩ := Prod.mk.inj h
    rw [List.take_of_length_le (of_decide_eq_true hfits)]

@[simp] theorem Schema.records_append (s : Schema) (values more : List Value) :
    s.records (values ++ more) = s.records values ++ s.records more :=
  List.flatMap_append

/-- **A block that was written**: how many records it announces, and their
bytes. -/
structure SentBlock where
  /-- The number of records. -/
  count : Nat
  /-- The records. -/
  data : List UInt8

/-- **A turn of a writer**: a call, and the output that it meets. -/
structure WriterTurn where
  /-- The output, in any state. -/
  output : Output
  /-- The call. -/
  call : WriterCall

namespace Writer

/-! ## One call -/

/-- **A writer with the value of a call in its buffer**, if there is one and it
can be encoded. -/
def holding (w : Writer) : WriterCall → Writer
  | .append v =>
    match (w.schema.encode v).fault with
    | some _ => w
    | none => { w with
        block := w.block ++ (w.schema.encode v).bytes
        pending := w.pending + 1 }
  | .flush => w

section Holding

variable (w : Writer) {v : Value}

/-- A value that cannot be encoded is not held. -/
theorem holding_refused {e : EncodeError}
    (h : (w.schema.encode v).fault = some e) : w.holding (.append v) = w := by
  simp only [holding, h]

/-- A value that can be encoded is held behind the others. -/
theorem holding_accepted (h : (w.schema.encode v).fault = none) :
    w.holding (.append v) = { w with
      block := w.block ++ (w.schema.encode v).bytes
      pending := w.pending + 1 } := by
  simp only [holding, h]

/-- What a writer holds is what its buffer held, and the value of the call. -/
theorem holding_buffer (call : WriterCall) :
    (w.holding call).block
        = w.block ++ w.schema.records (w.schema.accepted [call])
      ∧ (w.holding call).pending
        = w.pending + (w.schema.accepted [call]).length := by
  cases call with
  | flush => simp [holding, Schema.records]
  | append v =>
    cases hfault : (w.schema.encode v).fault with
    | none =>
      rw [w.holding_accepted hfault, w.schema.accepted_value hfault]
      simp [Schema.records]
    | some e =>
      rw [w.holding_refused hfault, w.schema.accepted_fault hfault]
      simp [Schema.records]

/-- Holding a value does not look at the output, nor change the schema. -/
theorem holding_frame (call : WriterCall) :
    (w.holding call).output = w.output
      ∧ (w.holding call).schema = w.schema := by
  cases call with
  | flush => exact ⟨rfl, rfl⟩
  | append v =>
    cases hfault : (w.schema.encode v).fault with
    | none => rw [w.holding_accepted hfault]; exact ⟨rfl, rfl⟩
    | some e => rw [w.holding_refused hfault]; exact ⟨rfl, rfl⟩

end Holding

/-- **The block that a call has written**, if it has written one completely. -/
def sent (w : Writer) (call : WriterCall) : List SentBlock :=
  if (w.perform call).2.pending = 0 ∧ (w.holding call).pending ≠ 0 then
    [⟨(w.holding call).pending, (w.holding call).block⟩]
  else []

/-- **A call keeps what the writer holds**: it is all in the buffer. The output
may have taken a part of the block, but not all of it. -/
structure Keeps (w : Writer) (call : WriterCall) (w' : Writer) : Prop where
  schema : w'.schema = w.schema
  block : w'.block = (w.holding call).block
  pending : w'.pending = (w.holding call).pending
  written : ∃ n, n < (w.holding call).blockBytes.length
    ∧ w'.output.written
      = w.output.written ++ (w.holding call).blockBytes.take n

/-- **A call sends what the writer holds**: it is all on the output. -/
structure Sends (w : Writer) (call : WriterCall) (w' : Writer) : Prop where
  nonempty : (w.holding call).pending ≠ 0
  block : w'.block = []
  pending : w'.pending = 0
  written : w'.output.written = w.output.written ++ (w.holding call).blockBytes

/-- A block has bytes, if only its two numbers. -/
theorem length_blockBytes_pos (w : Writer) : 0 < w.blockBytes.length := by
  unfold blockBytes
  have h := Wire.length_integer_pos w.pending
  simp only [List.length_append]
  omega

/-- What a writer holds without writing is kept. -/
theorem keeps_holding (w : Writer) (call : WriterCall) :
    w.Keeps call (w.holding call) := by
  obtain ⟨houtput, hschema⟩ := w.holding_frame call
  exact ⟨hschema, rfl, rfl, 0, length_blockBytes_pos _, by simp [houtput]⟩

/-- **Writing the block sends what the writer holds, or keeps it** and
fails. -/
theorem writeBlock_cases (w : Writer) (call : WriterCall) :
    ((w.holding call).writeBlock.1 = .ok ()
        ∧ (w.Sends call (w.holding call).writeBlock.2
          ∨ w.Keeps call (w.holding call).writeBlock.2))
      ∨ (w.holding call).writeBlock.1 = .error (.device Output.full)
        ∧ w.Keeps call (w.holding call).writeBlock.2 := by
  obtain ⟨houtput, hschema⟩ := w.holding_frame call
  unfold writeBlock
  by_cases hzero : (w.holding call).pending = 0
  · rw [if_pos hzero]
    exact .inl ⟨rfl, .inr (w.keeps_holding call)⟩
  · rw [if_neg hzero]
    cases hw : (w.holding call).output.write (w.holding call).blockBytes with
    | mk complete output =>
      cases complete with
      | true =>
        have hall := Output.written_of_complete hw
        rw [houtput] at hall
        exact .inl ⟨rfl, .inl ⟨hzero, rfl, rfl, hall⟩⟩
      | false =>
        obtain ⟨n, hn, hpart⟩ := Output.written_of_not_complete hw
        rw [houtput] at hpart
        exact .inr ⟨rfl, hschema, rfl, rfl, n, hn, hpart⟩

/-- **What an append does**: it refuses a value that cannot be encoded, keeps
one that does not fill the block, and otherwise writes the block. -/
theorem append_eq (w : Writer) (v : Value) :
    w.append v = match (w.schema.encode v).fault with
      | some e => (.error (.encode e), w)
      | none =>
        if max 1 w.recordsPerBlock ≤ w.pending + 1 then
          (w.holding (.append v)).writeBlock
        else (.ok (), w.holding (.append v)) := by
  unfold append
  cases hfault : (w.schema.encode v).fault with
  | some e => simp only [hfault]
  | none => simp only [hfault, w.holding_accepted hfault]

/-- **A call sends what the writer holds, or keeps it.** -/
theorem perform_cases (w : Writer) (call : WriterCall) :
    w.Sends call (w.perform call).2 ∨ w.Keeps call (w.perform call).2 := by
  have hblock : w.Sends call (w.holding call).writeBlock.2
      ∨ w.Keeps call (w.holding call).writeBlock.2 :=
    (w.writeBlock_cases call).elim (·.2) (.inr ·.2)
  have hkeeps := w.keeps_holding call
  cases call with
  | flush => exact hblock
  | append v =>
    show w.Sends _ (w.append v).2 ∨ w.Keeps _ (w.append v).2
    rw [append_eq]
    cases hfault : (w.schema.encode v).fault with
    | some e =>
      rw [w.holding_refused hfault] at hkeeps
      exact .inr hkeeps
    | none =>
      dsimp only
      split
      · exact hblock
      · exact .inr hkeeps

/-- **How an append fails**: the value is refused, or it has filled the block
and the block is kept. -/
theorem append_error_cases {w w' : Writer} {v : Value} {e : ContainerError}
    (h : w.append v = (.error e, w')) :
    (∃ fault, (w.schema.encode v).fault = some fault ∧ e = .encode fault
        ∧ w' = w)
      ∨ (w.schema.encode v).fault = none ∧ e = .device Output.full
        ∧ max 1 w.recordsPerBlock ≤ w.pending + 1 ∧ w.Keeps (.append v) w' := by
  rw [append_eq] at h
  cases hfault : (w.schema.encode v).fault with
  | some fault =>
    rw [hfault] at h
    obtain ⟨he, rfl⟩ := Prod.mk.inj h
    exact .inl ⟨fault, rfl, (Except.error.inj he).symm, rfl⟩
  | none =>
    rw [hfault] at h
    dsimp only at h
    by_cases hfull : max 1 w.recordsPerBlock ≤ w.pending + 1
    · rw [if_pos hfull] at h
      rcases w.writeBlock_cases (.append v) with ⟨hok, -⟩ | ⟨hfail, hkeeps⟩
      · rw [h] at hok
        cases hok
      · rw [h] at hfail hkeeps
        exact .inr ⟨rfl, Except.error.inj hfail, hfull, hkeeps⟩
    · rw [if_neg hfull] at h
      cases h

/-- What a call sends is the block at hand; what it keeps, it does not send. -/
theorem sent_eq {w : Writer} {call : WriterCall} :
    (w.Sends call (w.perform call).2 →
        w.sent call = [⟨(w.holding call).pending, (w.holding call).block⟩])
      ∧ (w.Keeps call (w.perform call).2 → w.sent call = []) := by
  unfold sent
  refine ⟨fun h => if_pos ⟨h.pending, h.nonempty⟩, fun h => if_neg ?_⟩
  rintro ⟨hzero, hpending⟩
  exact hpending (h.pending.symm.trans hzero)

/-- **What a call sends and what it keeps** is what the writer held and the
value of the call. -/
theorem perform_balance (w : Writer) (call : WriterCall) :
    (w.sent call).flatMap (·.data) ++ (w.perform call).2.block
        = w.block ++ w.schema.records (w.schema.accepted [call])
      ∧ ((w.sent call).map (·.count)).sum + (w.perform call).2.pending
        = w.pending + (w.schema.accepted [call]).length := by
  obtain ⟨hblock, hpending⟩ := w.holding_buffer call
  rcases w.perform_cases call with h | h
  · rw [sent_eq.1 h, h.block, h.pending, ← hblock, ← hpending]
    simp
  · rw [sent_eq.2 h, h.block, h.pending, ← hblock, ← hpending]
    simp

/-! ## Any calls on any outputs -/

/-- A call on an output in any state. -/
def turn (w : Writer) (t : WriterTurn) : Writer :=
  (({ w with output := t.output } : Writer).perform t.call).2

/-- **Takes turns**: the blocks that are written completely, and the writer
afterwards. -/
def turnAll (w : Writer) : List WriterTurn → List SentBlock × Writer
  | [] => ([], w)
  | t :: rest =>
    let blocks := ({ w with output := t.output } : Writer).sent t.call
    let (others, last) := (w.turn t).turnAll rest
    (blocks ++ others, last)

/-- A turn leaves the schema of the records alone. -/
theorem schema_turn (w : Writer) (t : WriterTurn) :
    (w.turn t).schema = w.schema :=
  (perform_extends _ t.call).schema

/-- **The balance of any turns**: the records in the blocks that were written
and in the buffer at the end are those in the buffer before, and those of the
values that were appended and can be encoded, each once and in order. -/
theorem turnAll_balance (w : Writer) (turns : List WriterTurn) :
    (w.turnAll turns).1.flatMap (·.data) ++ (w.turnAll turns).2.block
        = w.block ++ w.schema.records
          (w.schema.accepted (turns.map (·.call)))
      ∧ ((w.turnAll turns).1.map (·.count)).sum + (w.turnAll turns).2.pending
        = w.pending + (w.schema.accepted (turns.map (·.call))).length := by
  induction turns generalizing w with
  | nil => simp [turnAll, Schema.records]
  | cons t rest ih =>
    obtain ⟨hdata, hcount⟩ :=
      perform_balance { w with output := t.output } t.call
    obtain ⟨hrest, hothers⟩ := ih (w.turn t)
    rw [schema_turn] at hrest hothers
    have hcalls : w.schema.accepted ((t :: rest).map (·.call))
        = w.schema.accepted [t.call]
          ++ w.schema.accepted (rest.map (·.call)) := by
      rw [← Schema.accepted_append]
      rfl
    rw [hcalls, Schema.records_append, List.length_append, turnAll]
    constructor
    · rw [List.flatMap_append, List.append_assoc, hrest, ← List.append_assoc,
        ← List.append_assoc]
      exact congrArg (· ++ _) hdata
    · rw [List.map_append, List.sum_append, Nat.add_assoc, hothers,
        ← Nat.add_assoc, ← Nat.add_assoc]
      exact congrArg (· + _) hcount

/-! ## An append that fails -/

/-- **An append that fails leaves the writer as it was exactly if the value
cannot be encoded.** Otherwise the block is full and the output did not take
it: the value is the last record in the buffer, and a part of the block is on
the output. In either case, what any later calls on any outputs send and keep
is what the buffer held before the append, then the value if it can be encoded,
and then the values of those calls: a value that was refused is never written,
one that was not is written once, and once more if it is appended again. -/
theorem append_failing (w : Writer) (v : Value) {e : ContainerError}
    {w' : Writer} (h : w.append v = (.error e, w')) :
    (w'.block = w.block ∧ w'.pending = w.pending
        ↔ (w.schema.encode v).fault ≠ none)
      ∧ (∀ fault, (w.schema.encode v).fault = some fault →
        e = .encode fault ∧ w' = w)
      ∧ ((w.schema.encode v).fault = none →
        e = .device Output.full
          ∧ max 1 w.recordsPerBlock ≤ w.pending + 1
          ∧ w'.block = w.block ++ (w.schema.encode v).bytes
          ∧ w'.pending = w.pending + 1
          ∧ ∃ n, n < (w.holding (.append v)).blockBytes.length
            ∧ w'.output.written = w.output.written
              ++ (w.holding (.append v)).blockBytes.take n)
      ∧ ∀ turns : List WriterTurn,
        let values := w.schema.accepted (.append v :: turns.map (·.call))
        (w'.turnAll turns).1.flatMap (·.data) ++ (w'.turnAll turns).2.block
            = w.block ++ w.schema.records values
          ∧ ((w'.turnAll turns).1.map (·.count)).sum
              + (w'.turnAll turns).2.pending
            = w.pending + values.length := by
  have hlater : ∀ turns : List WriterTurn,
      w.schema.accepted (.append v :: turns.map (·.call))
        = w.schema.accepted [.append v]
          ++ w.schema.accepted (turns.map (·.call)) := fun turns =>
    w.schema.accepted_append [.append v] _
  rcases append_error_cases h with
    ⟨fault, hfault, rfl, rfl⟩ | ⟨hfault, rfl, hfull, hkeeps⟩
  -- The value was refused.
  · refine ⟨by simp [hfault], fun other hother => ?_, by simp [hfault],
      fun turns => ?_⟩
    · obtain rfl := Option.some.inj (hfault.symm.trans hother)
      exact ⟨rfl, rfl⟩
    · dsimp only
      rw [hlater, Schema.accepted_fault _ hfault, List.nil_append]
      exact w'.turnAll_balance turns
  -- The value was put into the buffer, and the block was not taken.
  · obtain ⟨hblock, hpending⟩ := w.holding_buffer (.append v)
    have hrecord : w.schema.records [v] = (w.schema.encode v).bytes := by
      simp [Schema.records]
    rw [w.schema.accepted_value hfault, hrecord] at hblock
    rw [w.schema.accepted_value hfault] at hpending
    have hblock := hkeeps.block.trans hblock
    have hpending : w'.pending = w.pending + 1 := hkeeps.pending.trans hpending
    refine ⟨⟨fun hsame => ?_, fun hnot => absurd hfault hnot⟩,
      by simp [hfault],
      fun _ => ⟨rfl, hfull, hblock, hpending, hkeeps.written⟩, fun turns => ?_⟩
    · have := hsame.2
      omega
    · obtain ⟨hdata, hcount⟩ := w'.turnAll_balance turns
      dsimp only
      rw [hdata, hcount, hlater, w.schema.accepted_value hfault, hkeeps.schema,
        hblock, hpending, Schema.records_append, hrecord, List.length_append,
        List.append_assoc, Nat.add_assoc]
      exact ⟨rfl, rfl⟩

end Writer

/-! ### A number that is appended twice -/

namespace Numbers

/-- A writer of blocks of one number on an output that is full. -/
def blocked : Writer :=
  ⟨Output.empty (some 0), schema, List.replicate 16 7, 1, [], 0⟩

/-- The writer after an append that has failed. -/
def stuck : Writer := { blocked with block := [2], pending := 1 }

theorem append_blocked : blocked.append (.int 1)
    = (.error (.device Output.full), stuck) := rfl

end Numbers

/-- The append fails and the number stays in the buffer; appended again to an
output that takes everything, it is written twice. -/
theorem Writer.append_failing_numbers :
    Numbers.blocked.append (.int 1)
      = (.error (.device Output.full), Numbers.stuck)
    ∧ ¬ (Numbers.stuck.block = Numbers.blocked.block
      ∧ Numbers.stuck.pending = Numbers.blocked.pending)
    ∧ (Numbers.stuck.turnAll
        [⟨Output.empty none, .append (.int 1)⟩]).1.flatMap (·.data)
      ++ (Numbers.stuck.turnAll
        [⟨Output.empty none, .append (.int 1)⟩]).2.block = [2, 2] := by
  obtain ⟨hsame, -, -, hlater⟩ :=
    Writer.append_failing Numbers.blocked (.int 1) Numbers.append_blocked
  have hfault : (Numbers.blocked.schema.encode (.int 1)).fault = none := rfl
  exact ⟨Numbers.append_blocked, fun h => absurd hfault (hsame.mp h),
    (hlater _).1⟩

/-- **Appending again after a failure duplicates the value.** The append of a
number to a full output fails; the writer is not as it was; and when the output
takes bytes again and the append is repeated, the block has the number
twice. -/
theorem Writer.retried :
    (∃ e, (Numbers.blocked.append (.int 1)).1 = .error e)
    ∧ (Numbers.blocked.append (.int 1)).2.block ≠ Numbers.blocked.block
    ∧ (Numbers.blocked.append (.int 1)).2.pending ≠ Numbers.blocked.pending
    ∧ (({ (Numbers.blocked.append (.int 1)).2 with
        output := Output.empty none } : Writer).append
          (.int 1)).2.output.written
      = Wire.integer 2 ++ Wire.integer 2 ++ Wire.integer 1 ++ Wire.integer 1
        ++ List.replicate 16 7 := by
  rw [Numbers.append_blocked]
  exact ⟨⟨_, rfl⟩, by decide, by decide, by decide +kernel⟩

end Avro
