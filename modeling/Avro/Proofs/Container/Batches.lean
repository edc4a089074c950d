import Avro.Container.Writer

/-!
# Batches

A writer takes values in batches: a batch is closed when it is full or when the
writer is flushed, and each closed batch is a block of the file. Here the
batches are looked at without their bytes. `WriterCall.apply` says what a call
does to them, and `Batches.Of` what holds of them after any calls: in order,
they hold just the values that can be encoded; none is empty or too long; a
flush ends at the end of a batch; and a batch that is too short was closed by a
flush.

The last clause is the one that cannot be read off the batches themselves: that
a batch is short is allowed *because of* a call, so it speaks of the calls up to
the one that closed it.
-/

namespace Avro

/-- **A call of a writer.** -/
inductive WriterCall
  /-- Appends a value. -/
  | append (v : Value)
  /-- Writes what is buffered. -/
  | flush

/-- The values that calls append, less those that cannot be encoded. -/
def Schema.accepted (s : Schema) (calls : List WriterCall) : List Value :=
  calls.filterMap fun
    | .append v => if (s.encode v).fault = none then some v else none
    | .flush => none

section

variable (s : Schema)

@[simp] theorem Schema.accepted_nil : s.accepted [] = [] := rfl

@[simp] theorem Schema.accepted_append (calls more : List WriterCall) :
    s.accepted (calls ++ more) = s.accepted calls ++ s.accepted more := by
  unfold Schema.accepted
  rw [List.filterMap_append]

@[simp] theorem Schema.accepted_flush : s.accepted [.flush] = [] := rfl

theorem Schema.accepted_value {v : Value} (h : (s.encode v).fault = none) :
    s.accepted [.append v] = [v] := by
  unfold Schema.accepted
  simp [h]

theorem Schema.accepted_fault {v : Value} {e : EncodeError}
    (h : (s.encode v).fault = some e) : s.accepted [.append v] = [] := by
  unfold Schema.accepted
  simp [h]

end

/-- **Batches of values**, closed and open. -/
structure Batches where
  /-- The batches that are closed, in order. -/
  closed : List (List Value)
  /-- The values of the batch at hand. -/
  pending : List Value

namespace Batches

/-- Nothing appended. -/
def none : Batches := ⟨[], []⟩

/-- Closes the batch at hand, if it holds values. -/
def close (b : Batches) : Batches :=
  if b.pending = [] then b else ⟨b.closed ++ [b.pending], []⟩

/-- Appends a value, and closes the batch if it is full. -/
def add (size : Nat) (b : Batches) (v : Value) : Batches :=
  let b := { b with pending := b.pending ++ [v] }
  if size ≤ b.pending.length then b.close else b

end Batches

/-- **What a call does to batches.** -/
def WriterCall.apply (s : Schema) (size : Nat) (b : Batches) :
    WriterCall → Batches
  | .append v => if (s.encode v).fault = none then b.add size v else b
  | .flush => b.close

/-- **Blocks of values that calls lead to**, with at most `size` values each. -/
structure Schema.Blocked (s : Schema) (size : Nat) (calls : List WriterCall)
    (blocks : List (List Value)) : Prop where
  /-- The blocks hold, in order, the values that can be encoded. -/
  values : blocks.flatten = s.accepted calls
  /-- No block is empty. -/
  nonempty : ∀ block ∈ blocks, block ≠ []
  /-- No block is too long. -/
  atMost : ∀ block ∈ blocks, block.length ≤ size
  /-- A block that is too short ends where a flush follows, or at the end. -/
  early : ∀ before block after, blocks = before ++ block :: after →
    block.length < size → ∃ first rest, calls = first ++ rest
      ∧ s.accepted first = (before ++ [block]).flatten
      ∧ (rest = [] ∨ ∃ more, rest = .flush :: more)
  /-- A flush ends a block. -/
  flushed : ∀ first rest, calls = first ++ .flush :: rest →
    ∃ before after, blocks = before ++ after
      ∧ before.flatten = s.accepted first

/-! ## What holds of batches after calls -/

/-- A list that ends in an element is split in front of the element, or it is
split before. -/
theorem snoc_eq_split {α : Type} {xs before after : List α} {x y : α}
    (h : xs ++ [x] = before ++ y :: after) :
    (before = xs ∧ y = x ∧ after = [])
    ∨ ∃ after', xs = before ++ y :: after' := by
  rcases List.eq_nil_or_concat after with rfl | ⟨after', z, rfl⟩
  · obtain ⟨hxs, hx⟩ := List.append_inj' h rfl
    exact .inl ⟨hxs.symm, (List.singleton_inj.mp hx).symm, rfl⟩
  · rw [List.concat_eq_append, ← List.cons_append, ← List.append_assoc] at h
    exact .inr ⟨after', (List.append_inj' h rfl).1⟩

namespace Batches

/-- **What holds of batches after calls.** -/
structure Of (s : Schema) (size : Nat) (calls : List WriterCall)
    (b : Batches) : Prop where
  /-- The batches hold, in order, the values that can be encoded. -/
  values : b.closed.flatten ++ b.pending = s.accepted calls
  /-- No closed batch is empty. -/
  nonempty : ∀ block ∈ b.closed, block ≠ []
  /-- No closed batch is too long. -/
  atMost : ∀ block ∈ b.closed, block.length ≤ size
  /-- The batch at hand is not full. -/
  short : b.pending.length < size
  /-- A closed batch that is too short was closed by a flush. -/
  early : ∀ before block after, b.closed = before ++ block :: after →
    block.length < size → ∃ first rest, calls = first ++ .flush :: rest
      ∧ s.accepted first = (before ++ [block]).flatten
  /-- A flush ends a batch. -/
  flushed : ∀ first rest, calls = first ++ .flush :: rest →
    ∃ before after, b.closed = before ++ after
      ∧ before.flatten = s.accepted first

variable {s : Schema} {size : Nat} {calls : List WriterCall} {b : Batches}

/-- Before any call. -/
theorem of_none (hsize : 0 < size) : none.Of s size [] where
  values := rfl
  nonempty _ h := absurd h List.not_mem_nil
  atMost _ h := absurd h List.not_mem_nil
  short := hsize
  early before block after h := by
    exact absurd h (by simp [none])
  flushed first rest h := by
    exact absurd h (by simp)

/-- A call that closes no batch. -/
theorem Of.keep (h : b.Of s size calls) {call : WriterCall}
    {pending : List Value}
    (hvalues : b.pending ++ s.accepted [call] = pending)
    (hshort : pending.length < size)
    (hflush : call = .flush → b.pending = []) :
    (Batches.mk b.closed pending).Of s size (calls ++ [call]) where
  values := by
    rw [s.accepted_append, ← h.values, List.append_assoc, hvalues]
  nonempty := h.nonempty
  atMost := h.atMost
  short := hshort
  early before block after hclosed hlt := by
    obtain ⟨first, rest, rfl, hfirst⟩ := h.early before block after hclosed hlt
    exact ⟨first, rest ++ [call], by rw [List.append_assoc]; rfl, hfirst⟩
  flushed first rest hcalls := by
    rcases snoc_eq_split hcalls with ⟨rfl, hcall, _⟩ | ⟨rest', hbefore⟩
    · refine ⟨b.closed, [], (List.append_nil _).symm, ?_⟩
      rw [← h.values, hflush hcall.symm, List.append_nil]
    · exact h.flushed first rest' hbefore

/-- **A call that closes a batch**, which is full unless the call is a flush. -/
theorem Of.closing (h : b.Of s size calls) {call : WriterCall}
    {block : List Value} (hsize : 0 < size)
    (hvalues : b.pending ++ s.accepted [call] = block) (hblock : block ≠ [])
    (hfull : call = .flush ∨ block.length = size) :
    (Batches.mk (b.closed ++ [block]) []).Of s size (calls ++ [call]) := by
  have hall : (b.closed ++ [block]).flatten = s.accepted (calls ++ [call]) := by
    rw [s.accepted_append, ← h.values, List.append_assoc, hvalues]
    simp
  -- A flush appends nothing, so it closes what was accepted before it.
  have hflush : call = .flush →
      (b.closed ++ [block]).flatten = s.accepted calls := by
    rintro rfl
    rw [hall]
    simp
  refine ⟨by rw [List.append_nil]; exact hall, fun other hother => ?_,
    fun other hother => ?_, hsize, fun before other after hclosed hlt => ?_,
    fun first rest hcalls => ?_⟩
  · rcases List.mem_append.mp hother with hother | hother
    · exact h.nonempty other hother
    · rw [List.mem_singleton.mp hother]
      exact hblock
  · rcases List.mem_append.mp hother with hother | hother
    · exact h.atMost other hother
    · rw [List.mem_singleton.mp hother]
      rcases hfull with rfl | hfull
      · rw [← hvalues, s.accepted_flush, List.append_nil]
        exact Nat.le_of_lt h.short
      · exact Nat.le_of_eq hfull
  · rcases snoc_eq_split hclosed with ⟨rfl, rfl, _⟩ | ⟨after', hbefore⟩
    · rcases hfull with rfl | hfull
      · exact ⟨calls, [], rfl, (hflush rfl).symm⟩
      · exact absurd hfull (Nat.ne_of_lt hlt)
    · obtain ⟨first, rest, rfl, hfirst⟩ := h.early before other after' hbefore hlt
      exact ⟨first, rest ++ [call], by rw [List.append_assoc]; rfl, hfirst⟩
  · rcases snoc_eq_split hcalls with ⟨rfl, hcall, _⟩ | ⟨rest', hbefore⟩
    · exact ⟨b.closed ++ [block], [], (List.append_nil _).symm,
        hflush hcall.symm⟩
    · obtain ⟨before, after, hclosed, hflatten⟩ := h.flushed first rest' hbefore
      exact ⟨before, after ++ [block], by rw [hclosed, List.append_assoc],
        hflatten⟩

/-- **What holds of batches is kept by every call.** -/
theorem Of.apply (h : b.Of s size calls) (hsize : 0 < size)
    (call : WriterCall) :
    (call.apply s size b).Of s size (calls ++ [call]) := by
  cases call with
  | append v =>
    show (if (s.encode v).fault = .none then b.add size v else b).Of s size _
    cases hfault : (s.encode v).fault with
    | some e =>
      rw [if_neg (by simp)]
      exact h.keep (by rw [s.accepted_fault hfault, List.append_nil]) h.short
        (by simp)
    | none =>
      have hvalues : b.pending ++ s.accepted [.append v] = b.pending ++ [v] := by
        rw [s.accepted_value hfault]
      have hlength : (b.pending ++ [v]).length = b.pending.length + 1 :=
        List.length_append
      rw [if_pos rfl]
      unfold add close
      dsimp only
      by_cases hfull : size ≤ (b.pending ++ [v]).length
      · rw [if_pos hfull, if_neg (by simp)]
        exact h.closing hsize hvalues (by simp)
          (.inr (Nat.le_antisymm (by have := h.short; omega) hfull))
      · rw [if_neg hfull]
        exact h.keep hvalues (Nat.lt_of_not_le hfull) (by simp)
  | flush =>
    show b.close.Of s size _
    unfold close
    by_cases hpending : b.pending = []
    · rw [if_pos hpending]
      exact h.keep (by simp) h.short fun _ => hpending
    · rw [if_neg hpending]
      exact h.closing hsize (by simp) hpending (.inl rfl)

/-- **What holds of batches holds after all calls.** -/
theorem Of.foldl (h : b.Of s size calls) (hsize : 0 < size) :
    ∀ more : List WriterCall,
      (more.foldl (WriterCall.apply s size) b).Of s size (calls ++ more) := by
  intro more
  induction more generalizing b calls with
  | nil => rw [List.append_nil]; exact h
  | cons call rest ih =>
    have hrest := ih (h.apply hsize call)
    rw [List.append_assoc] at hrest
    exact hrest

/-- **Closed at the end, batches are the blocks of the calls.** -/
theorem Of.blocked (h : b.Of s size calls) (hsize : 0 < size) :
    s.Blocked size calls b.close.closed := by
  -- Closing is what one more flush does; that flush stands for the end.
  have hend := h.apply hsize .flush
  have hvalues := hend.values
  have hpending : b.close.pending = [] := by
    unfold close
    by_cases hnil : b.pending = []
    · rw [if_pos hnil]; exact hnil
    · rw [if_neg hnil]
  refine ⟨?_, hend.nonempty, hend.atMost, fun before block after hclosed hlt => ?_,
    fun first rest hcalls => ?_⟩
  · rw [s.accepted_append, s.accepted_flush, List.append_nil] at hvalues
    rw [← hvalues]
    show b.close.closed.flatten = b.close.closed.flatten ++ b.close.pending
    rw [hpending, List.append_nil]
  · obtain ⟨first, rest, hcalls, hfirst⟩ := hend.early before block after hclosed hlt
    rcases snoc_eq_split hcalls with ⟨rfl, _, _⟩ | ⟨rest', hbefore⟩
    · exact ⟨first, [], (List.append_nil _).symm, hfirst, .inl rfl⟩
    · exact ⟨first, .flush :: rest', hbefore, hfirst, .inr ⟨rest', rfl⟩⟩
  · exact hend.flushed first (rest ++ [.flush]) (by rw [hcalls]; simp)

end Batches

end Avro
