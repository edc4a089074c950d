import Avro.Proofs.Wire.Consumption
import Avro.Proofs.Wire.RoundTrip

/-!
# Items in chunks

The items of an array or a map are written in blocks, and where one block ends
and the next one begins is up to who writes. A list of items is cut into chunks
of at least one item each, every chunk has a header with its number of items,
and an empty block comes last (`Chunked`).

A header is a number, and if the number is negative, any other number, which is
meant to be a count of bytes. It stands for as many items as the magnitude of
the number says. Numbers count as what they are read as, so a spelling with
more digits than are needed is allowed. The one block in which the encoder
writes all items is a case (`Wire.chunked_block`).
-/

namespace Avro

namespace Wire

/-- **The header of a block** with a number, which is not zero. -/
inductive BlockHeader (n : Int64) : List UInt8 → Prop
  /-- A positive number. -/
  | count {bytes : List UInt8} : 0 < n → Reads readLong bytes n →
    BlockHeader n bytes
  /-- A negative number, and some other number. -/
  | sized {bytes size : List UInt8} {m : Int64} : n < 0 →
    Reads readLong bytes n → Reads readLong size m →
    BlockHeader n (bytes ++ size)

/-- **The bytes of items in chunks.** -/
inductive Chunked : List (List UInt8) → List UInt8 → Prop
  /-- The empty block. -/
  | done {bytes : List UInt8} : Reads readLong bytes 0 → Chunked [] bytes
  /-- A chunk in front of others. -/
  | chunk {items others : List (List UInt8)} {n : Int64}
    {header bytes : List UInt8} : BlockHeader n header →
    n.toInt.natAbs = items.length → Chunked others bytes →
    Chunked (items ++ others) (header ++ items.flatten ++ bytes)

/-- A number takes at least a byte. -/
theorem length_pos_of_reads {bytes : List UInt8} {n : Int64}
    (h : Reads readLong bytes n) : 0 < bytes.length := by
  have hlt := readLong_length_lt (h (.ofBytes []))
  simp only [Input.prepend, Input.ofBytes, List.append_nil,
    List.length_nil] at hlt
  exact hlt

/-- A header takes at least a byte. -/
theorem BlockHeader.length_pos {n : Int64} {bytes : List UInt8}
    (h : BlockHeader n bytes) : 0 < bytes.length := by
  cases h with
  | count _ hn => exact length_pos_of_reads hn
  | sized _ hn _ =>
    rw [List.length_append]
    exact Nat.lt_add_right _ (length_pos_of_reads hn)

/-- A header stands for at least one item. -/
theorem BlockHeader.natAbs_pos {n : Int64} {bytes : List UInt8}
    (h : BlockHeader n bytes) : 0 < n.toInt.natAbs := by
  rw [Int.natAbs_pos]
  rintro hzero
  have hn : n = 0 := by
    rw [← Int64.toInt_inj, hzero]
    rfl
  subst hn
  cases h with
  | count hlt _ => exact absurd hlt (by decide)
  | sized hlt _ _ => exact absurd hlt (by decide)

/-- **One block is a way to cut items into chunks.** -/
theorem chunked_block {items : List (List UInt8)}
    (h : items.length < 0x8000000000000000) :
    Chunked items (block items.length items.flatten) := by
  have hdone : Chunked [] (integer (0 : Nat)) :=
    .done (readLong_natCast (by decide))
  cases items with
  | nil => exact hdone
  | cons first rest =>
    have hcount : (Int64.ofNat (first :: rest).length).toInt
        = (first :: rest).length := Int64.toInt_ofNat_of_lt h
    have hpos : 0 < Int64.ofNat (first :: rest).length := by
      rw [Int64.lt_iff_toInt_lt, hcount]
      exact Int.natCast_pos.mpr (Nat.succ_pos _)
    have hchunk := Chunked.chunk (.count hpos (readLong_natCast h))
      (congrArg Int.natAbs hcount) hdone
    rw [List.append_nil] at hchunk
    rw [block, if_neg (show (first :: rest).length ≠ 0 from nofun)]
    exact hchunk

/-- One block of what is made of the elements of a list. -/
theorem chunked_flatMap {α : Type} {l : List α}
    (h : l.length < 0x8000000000000000) (bytes : α → List UInt8) :
    Chunked (l.map bytes) (block l.length (l.flatMap bytes)) := by
  have hchunks := @chunked_block (l.map bytes)
    (by rw [List.length_map]; exact h)
  rwa [List.length_map, ← List.flatMap_def] at hchunks

end Wire

end Avro
