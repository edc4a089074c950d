import Avro.Proofs.Wire.Spelling

/-!
# What is written is shortest

A read takes more than one spelling of a value: a varint may be padded with
zero digits, and a length in front of bytes is a varint as well. What is
written is one of the spellings, and no other is shorter. So a value that was
read can be written again in no more bytes than were read for it, and the
read gives it back (`Read.Rewrites`).

For integers that is what is known of their spellings. How the length of an
integer grows with its natural is needed where numbers are put together: the
count of a block is at most as long as the counts of the blocks it was made
from (`Wire.length_block_append`).
-/

namespace Avro

namespace Wire

/-! ## How long integers are -/

/-- A natural takes at least a byte. -/
theorem length_digits_pos (most n : Nat) : 0 < (digits most n).length := by
  cases most with
  | zero => exact Nat.one_pos
  | succ most =>
    rw [digits]
    split
    · exact Nat.one_pos
    · exact Nat.succ_pos _

/-- A greater natural takes as many bytes or more. -/
theorem length_digits_mono : ∀ {most more a b : Nat}, most ≤ more → a ≤ b →
    (digits most a).length ≤ (digits more b).length
  | 0, more, _, b, _, _ => length_digits_pos more b
  | most + 1, 0, _, _, hle, _ => absurd hle (Nat.not_succ_le_zero most)
  | most + 1, more + 1, a, b, hle, hab => by
    by_cases hsmall : a < 128
    · rw [digits, if_pos hsmall]
      exact length_digits_pos (more + 1) b
    · rw [digits, if_neg hsmall, digits, if_neg (by omega)]
      exact Nat.succ_le_succ (length_digits_mono (Nat.le_of_succ_le_succ hle)
        (Nat.div_le_div_right hab))

/-- A sum is longer than its greater part by a byte at most. -/
theorem length_digits_add {a b : Nat} (h : a ≤ b) (most : Nat) :
    (digits most (a + b)).length ≤ (digits most b).length + 1 := by
  cases most with
  | zero => exact Nat.le_succ 1
  | succ most =>
    rw [digits]
    split
    · exact Nat.le_add_left 1 _
    · exact Nat.succ_le_succ
        (length_digits_mono (Nat.le_succ most) (by omega))

/-- The natural of an integer that is not negative. -/
theorem zigzag_of_nonneg {n : Int} (h : 0 ≤ n) :
    zigzag n = n.natAbs + n.natAbs := by
  rw [zigzag, if_pos h]
  omega

/-- The natural of a negative integer. -/
theorem zigzag_of_neg {n : Int} (h : n < 0) :
    1 + zigzag n = n.natAbs + n.natAbs := by
  rw [zigzag, if_neg (Int.not_le.mpr h)]
  omega

/-- The natural of a number. -/
theorem zigzag_natCast (n : Nat) : zigzag n = n + n :=
  zigzag_of_nonneg (Int.natCast_nonneg n)

/-- A greater number takes as many bytes or more. -/
theorem length_integer_mono {a b : Nat} (h : a ≤ b) :
    (integer a).length ≤ (integer b).length := by
  unfold integer varint
  rw [zigzag_natCast, zigzag_natCast]
  exact length_digits_mono (Nat.le_refl 9) (Nat.add_le_add h h)

/-- A sum is longer than the greater part by a byte at most. -/
theorem length_integer_add_of_le {a b : Nat} (h : a ≤ b) :
    (integer ((a + b : Nat) : Int)).length ≤ (integer b).length + 1 := by
  unfold integer varint
  rw [zigzag_natCast, zigzag_natCast,
    show a + b + (a + b) = (a + a) + (b + b) by omega]
  exact length_digits_add (Nat.add_le_add h h) 9

/-- **A sum is no longer than its parts.** -/
theorem length_integer_add (a b : Nat) :
    (integer ((a + b : Nat) : Int)).length
      ≤ (integer a).length + (integer b).length := by
  have ha := length_integer_pos a
  have hb := length_integer_pos b
  -- the byte that the sum may need is one of the smaller part
  rcases Nat.le_total a b with h | h
  · have := length_integer_add_of_le h
    omega
  · have := length_integer_add_of_le h
    rw [Nat.add_comm b a] at this
    omega

/-- The magnitude of a number that is not negative is as long as the
number. -/
theorem length_integer_natAbs_of_nonneg {n : Int} (h : 0 ≤ n) :
    (integer n.natAbs).length = (integer n).length := by
  unfold integer varint
  rw [zigzag_natCast, zigzag_of_nonneg h]

/-- The magnitude of a negative number is longer than the number by a byte at
most. -/
theorem length_integer_natAbs_of_neg {n : Int} (h : n < 0) :
    (integer n.natAbs).length ≤ (integer n).length + 1 := by
  have hzigzag := zigzag_of_neg h
  unfold integer varint
  rw [zigzag_natCast, ← hzigzag]
  exact length_digits_add (by omega) 9

/-- The length of items in one block. -/
theorem length_block {α : Type} (written : α → List UInt8) (items : List α) :
    (block items.length (items.flatMap written)).length
      = (if items = [] then 0
          else (integer items.length).length + (items.flatMap written).length)
        + 1 := by
  cases items with
  | nil => rfl
  | cons item items =>
    rw [block, if_neg (by simp), if_neg (by simp), List.length_append,
      List.length_append]
    rfl

/-- **Items in one block are no longer than in two.** -/
theorem length_block_append {α : Type} (written : α → List UInt8)
    {items : List α} (hitems : items ≠ []) (others : List α) :
    (block (items ++ others).length
        ((items ++ others).flatMap written)).length
      ≤ (integer items.length).length + (items.flatMap written).length
        + (block others.length (others.flatMap written)).length := by
  rw [length_block, length_block, if_neg (by simp [hitems]),
    List.flatMap_append, List.length_append, List.length_append]
  by_cases hothers : others = []
  · subst hothers
    rw [if_pos rfl]
    exact Nat.le_refl _
  · have hsum := length_integer_add items.length others.length
    rw [if_neg hothers]
    omega

/-! ## Bytes and texts -/

/-- How many bytes are taken, and how many are left. -/
theorem length_of_take {n : Nat} {input left : Input}
    {taken : List UInt8} (h : take n input = .ok taken left) :
    taken.length = n ∧ n + left.rest.length = input.rest.length := by
  obtain ⟨hle, rfl, rfl⟩ := take_eq_ok h
  rw [List.length_take, List.length_drop, Nat.min_eq_left hle]
  exact ⟨rfl, Nat.add_sub_cancel' hle⟩

/-- What is read as a byte string: its length, and as many bytes. -/
theorem readBytes_spells {input left : Input} {b : List UInt8}
    (h : readBytes input = .ok b left) :
    ∃ (n : Int64) (between : Input), readLong input = .ok n between
      ∧ n.toInt = b.length
      ∧ b.length + left.rest.length = between.rest.length := by
  obtain ⟨n, between, hn, h⟩ := bind_eq_ok h
  split at h
  · exact nomatch h
  · rename_i hnegative
    obtain ⟨htaken, hleft⟩ := length_of_take h
    exact ⟨n, between, hn, by omega, by omega⟩

/-- A byte string that was read can be numbered. -/
theorem length_lt_of_readBytes {input left : Input} {b : List UInt8}
    (h : readBytes input = .ok b left) :
    b.length < 0x8000000000000000 := by
  obtain ⟨n, -, -, hn, -⟩ := readBytes_spells h
  have := n.toInt_lt
  omega

/-- **The bytes of a text are those it was made from.** -/
theorem utf8_of_textOfBytes? {b : List UInt8} {s : String}
    (h : textOfBytes? b = some s) : utf8 s = b := by
  unfold textOfBytes? at h
  rw [String.fromUTF8?] at h
  split at h
  · have hbytes : s.toUTF8 = ⟨b.toArray⟩ := by
      rw [← Option.some.inj h]
      rfl
    rw [utf8, hbytes, ByteArray.toList, byteArray_loop]
    rfl
  · exact absurd h (by simp)

end Wire

/-! ## Reads whose values can be written again -/

/-- **What a read gives can be written again**: in no more bytes than were
taken, and the read gives it back. -/
def Read.Rewrites {α : Type} (m : Read α) (written : α → List UInt8) : Prop :=
  ∀ ⦃input left : Input⦄ ⦃a : α⦄, m input = .ok a left →
    (written a).length + left.rest.length ≤ input.rest.length
      ∧ Reads m (written a) a

namespace Read.Rewrites

open Wire

variable {α β : Type} {m : Read α} {written : α → List UInt8}

/-- What is made of the value is written like the value. -/
theorem map (hm : m.Rewrites written) {f : α → β} {written' : β → List UInt8}
    (hf : ∀ {input left : Input} {a : α}, m input = .ok a left →
      written' (f a) = written a) :
    Read.Rewrites (do return f (← m)) written' := by
  intro input left b h
  obtain ⟨a, hr, rfl⟩ := map_eq_ok h
  obtain ⟨hlength, hreads⟩ := hm hr
  rw [hf hr]
  exact ⟨hlength, hreads.map f⟩

/-- Bytes are written as they are. -/
theorem take (n : Nat) : Read.Rewrites (Wire.take n) id := by
  intro input left taken h
  obtain ⟨rfl, hleft⟩ := length_of_take h
  exact ⟨Nat.le_of_eq hleft, take_prepend taken⟩

/-- **A 32-bit integer is written in its shortest form.** -/
theorem readInt : Read.Rewrites Wire.readInt fun n => integer n.toInt :=
  fun _ _ n h =>
    ⟨readInt_takesSpellings.length_integer_le (by decide) h, readInt_integer n⟩

/-- **A 64-bit integer is written in its shortest form.** -/
theorem readLong : Read.Rewrites Wire.readLong fun n => integer n.toInt :=
  fun _ _ n h =>
    ⟨readLong_takesSpellings.length_integer_le (by decide) h, readLong_integer n⟩

theorem readBoolean : Read.Rewrites Wire.readBoolean boolean := by
  intro input left b h
  refine ⟨?_, readBoolean_boolean b⟩
  have hlt : left.rest.length < input.rest.length :=
    byte_bind_length_lt (fun _ => .ite (.pure _)
      (.ite (.pure _) (.throw _))) h
  rw [boolean, List.length_singleton, Nat.add_comm]
  exact hlt

theorem readFloat : Read.Rewrites Wire.readFloat Binary32.toBytes := by
  intro input left x h
  refine ⟨?_, readFloat_toBytes x⟩
  obtain ⟨taken, hr, rfl⟩ := map_eq_ok h
  exact Nat.le_of_eq (length_of_take hr).2

theorem readDouble : Read.Rewrites Wire.readDouble Binary64.toBytes := by
  intro input left x h
  refine ⟨?_, readDouble_toBytes x⟩
  obtain ⟨taken, hr, rfl⟩ := map_eq_ok h
  exact Nat.le_of_eq (length_of_take hr).2

/-- **A byte string is written with the shortest length in front.** -/
theorem readBytes : Read.Rewrites Wire.readBytes bytes := by
  intro input left b h
  refine ⟨?_, readBytes_bytes (length_lt_of_readBytes h)⟩
  obtain ⟨n, between, hr, hn, hbody⟩ := readBytes_spells h
  have hheader : (integer n.toInt).length + between.rest.length
      ≤ input.rest.length := (readLong hr).1
  rw [hn] at hheader
  rw [bytes, List.length_append]
  omega

/-- A text is written like its bytes. -/
theorem readString : Read.Rewrites Wire.readString string := by
  intro input left s h
  obtain ⟨b, between, hb, h⟩ := bind_eq_ok h
  cases htext : textOfBytes? b with
  | none => rw [htext] at h; exact nomatch h
  | some text =>
    rw [htext] at h
    obtain ⟨rfl, rfl⟩ := EStateM.Result.ok.inj h
    obtain rfl := utf8_of_textOfBytes? htext
    exact ⟨(readBytes hb).1, readString_string (length_lt_of_readBytes hb)⟩

end Read.Rewrites

end Avro
