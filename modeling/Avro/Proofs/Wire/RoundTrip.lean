import Avro.Proofs.Wire.Consumption
import Avro.Wire.Read
import Avro.Wire.Write

/-!
# What is written is read back

For every primitive of the wire format, reading what was written gives what
was written and leaves what came after it, whatever that is (`Reads`).

The bounds are those of the format: a varint of a width is read back if the
natural is below two to the width, and a length is written as a 64-bit
integer.
-/

namespace Avro

/-- **An input with bytes in front.** -/
def Input.prepend (input : Input) (bytes : List UInt8) : Input :=
  { input with rest := bytes ++ input.rest }

@[simp] theorem Input.prepend_nil (input : Input) : input.prepend [] = input :=
  rfl

@[simp] theorem Input.prepend_append (input : Input) (a b : List UInt8) :
    input.prepend (a ++ b) = (input.prepend b).prepend a := by
  simp only [prepend, List.append_assoc]

/-- **A read reads bytes as a value**, and leaves what comes after them. -/
def Reads {α : Type} (read : Read α) (bytes : List UInt8) (a : α) : Prop :=
  ∀ input : Input, read (input.prepend bytes) = .ok a input

/-- What is made of the value that is read. -/
theorem Reads.map {α β : Type} {read : Read α} {bytes : List UInt8} {a : α}
    (h : Reads read bytes a) (f : α → β) :
    Reads (do return f (← read)) bytes (f a) := by
  intro input
  simp only [bind, EStateM.bind, h input]
  rfl

namespace Wire

/-! ## Bytes -/

/-- The byte in front is read. -/
theorem byte_prepend (b : UInt8) (bytes : List UInt8) (input : Input) :
    byte (input.prepend (b :: bytes)) = .ok b (input.prepend bytes) :=
  rfl

/-- The bytes in front are read. -/
theorem take_prepend (bytes : List UInt8) :
    Reads (take bytes.length) bytes bytes := by
  intro input
  have htake : (bytes ++ input.rest).take bytes.length = bytes := by
    rw [List.take_append_of_le_length (Nat.le_refl _), List.take_length]
  have hdrop : (bytes ++ input.rest).drop bytes.length = input.rest :=
    List.drop_left
  simp only [take, Input.prepend, htake, hdrop, if_true]

/-! ## Varints -/

/-- A digit in front is read. -/
theorem varintFrom_prepend {width more place value digit : Nat} (b : UInt8)
    (hdigit : b.toNat % 128 * Nat.pow 2 place = digit)
    (hlt : digit < 0x10000000000000000) (bytes : List UInt8) (input : Input) :
    varintFrom width (more + 1) place value (input.prepend (b :: bytes))
      = if 128 ≤ b.toNat then
          varintFrom width more (place + 7) (value + digit)
            (input.prepend bytes)
        else if Nat.pow 2 width ≤ value + digit then
          .error (.varintOverflow width) (input.prepend bytes)
        else .ok (value + digit) (input.prepend bytes) := by
  rw [varintFrom_succ]
  simp only [bind, EStateM.bind, byte_prepend, hdigit]
  rw [if_neg (Nat.not_le.mpr hlt)]
  by_cases hmore : 128 ≤ b.toNat
  · rw [if_pos hmore, if_pos hmore]
  · rw [if_neg hmore, if_neg hmore]
    by_cases hfits : Nat.pow 2 width ≤ value + digit
    · rw [if_pos hfits, if_pos hfits]
      rfl
    · rw [if_neg hfits, if_neg hfits]
      rfl

/-- A byte of a small natural. -/
theorem toNat_ofNat_of_lt {n : Nat} (h : n < 256) :
    (UInt8.ofNat n).toNat = n := by
  rw [UInt8.toNat_ofNat']
  exact Nat.mod_eq_of_lt h

/-- The first digit of a natural and the digits after it spell what all of them
spell. -/
theorem digit_add_digits (n place : Nat) :
    n % 128 * Nat.pow 2 place + n / 128 * Nat.pow 2 (place + 7)
      = n * Nat.pow 2 place := by
  have hseven : Nat.pow 2 (place + 7) = 128 * Nat.pow 2 place :=
    (Nat.pow_add 2 place 7).trans (Nat.mul_comm _ _)
  rw [hseven, ← Nat.mul_assoc, ← Nat.add_mul, Nat.mul_comm (n / 128),
    Nat.mod_add_div]

/-- **The digits of a natural are read back**, after digits that spell
`value`. -/
theorem varintFrom_digits {width : Nat} (hwidth : width ≤ 64)
    (input : Input) :
    ∀ (more most n place value : Nat), more ≤ most → n < Nat.pow 128 (more + 1) →
      value + n * Nat.pow 2 place < Nat.pow 2 width →
      varintFrom width (more + 1) place value (input.prepend (digits most n))
        = .ok (value + n * Nat.pow 2 place) input := by
  have hpow : Nat.pow 2 width ≤ 0x10000000000000000 :=
    Nat.pow_le_pow_right (by decide) hwidth
  have hlast : ∀ (more most n place value : Nat), n < 128 →
      value + n * Nat.pow 2 place < Nat.pow 2 width →
      varintFrom width (more + 1) place value (input.prepend (digits most n))
        = .ok (value + n * Nat.pow 2 place) input := by
    intro more most n place value hn hvalue
    have hdigits : digits most n = [UInt8.ofNat n] := by
      cases most with
      | zero => rfl
      | succ most => rw [digits, if_pos hn]
    have hbyte := toNat_ofNat_of_lt (Nat.lt_trans hn (by decide : 128 < 256))
    have hdigit : (UInt8.ofNat n).toNat % 128 * Nat.pow 2 place = n * Nat.pow 2 place := by
      rw [hbyte, Nat.mod_eq_of_lt hn]
    rw [hdigits, varintFrom_prepend _ hdigit (by omega), hbyte,
      if_neg (Nat.not_le.mpr hn), if_neg (Nat.not_le.mpr hvalue)]
    rfl
  intro more
  induction more with
  | zero =>
    intro most n place value _ hn hvalue
    exact hlast 0 most n place value (by simpa using hn) hvalue
  | succ more ih =>
    intro most n place value hmost hn hvalue
    by_cases hsmall : n < 128
    · exact hlast (more + 1) most n place value hsmall hvalue
    · obtain ⟨most, rfl⟩ : ∃ m, most = m + 1 := ⟨most - 1, by omega⟩
      have hbyte : (UInt8.ofNat (n % 128 + 128)).toNat = n % 128 + 128 :=
        toNat_ofNat_of_lt (by omega)
      have hdigit : (UInt8.ofNat (n % 128 + 128)).toNat % 128 * Nat.pow 2 place
          = n % 128 * Nat.pow 2 place := by
        rw [hbyte, Nat.add_mod_right, Nat.mod_mod]
      have hsplit := digit_add_digits n place
      have hrest : n / 128 < Nat.pow 128 (more + 1) := by
        rw [Nat.div_lt_iff_lt_mul (by decide)]
        exact hn
      rw [digits, if_neg hsmall, varintFrom_prepend _ hdigit (by omega), hbyte,
        if_pos (Nat.le_add_left 128 _), ih most (n / 128) (place + 7) _
          (by omega) hrest (by omega), Nat.add_assoc, hsplit]

/-- **A varint is read back.** -/
theorem varintFrom_varint {width more n : Nat} (hwidth : width ≤ 64)
    (hmore : more ≤ 9) (hn : n < Nat.pow 128 (more + 1)) (hn' : n < Nat.pow 2 width)
    (input : Input) :
    varintFrom width (more + 1) 0 0 (input.prepend (varint n))
      = .ok n input := by
  have h := varintFrom_digits hwidth input more 9 n 0 0 hmore hn (by simpa)
  rw [show Nat.pow 2 0 = 1 from rfl, Nat.mul_one, Nat.zero_add] at h
  exact h

/-- The natural of a 32-bit integer. -/
theorem zigzag_lt_of_int32 (n : Int32) : zigzag n.toInt < 0x100000000 := by
  have hlt := Int32.toInt_lt n
  have hge := Int32.le_toInt n
  unfold zigzag
  split <;> omega

/-- The natural of a 64-bit integer. -/
theorem zigzag_lt_of_int64 (n : Int64) : zigzag n.toInt < 0x10000000000000000 := by
  have hlt := Int64.toInt_lt n
  have hge := Int64.le_toInt n
  unfold zigzag
  split <;> omega

/-- **A 32-bit integer is read back.** -/
theorem readInt_integer (n : Int32) : Reads readInt (integer n.toInt) n := by
  intro input
  have hlt : zigzag n.toInt < Nat.pow 2 32 := zigzag_lt_of_int32 n
  have h : varintFrom 32 5 0 0 (input.prepend (varint (zigzag n.toInt)))
      = .ok (zigzag n.toInt) input :=
    varintFrom_varint (by decide) (by decide)
      (Nat.lt_trans hlt (by decide)) hlt input
  simp only [readInt, integer, bind, EStateM.bind, h, unzigzag_zigzag,
    Int32.ofInt_toInt]
  rfl

/-- **A 64-bit integer is read back.** -/
theorem readLong_integer (n : Int64) :
    Reads readLong (integer n.toInt) n := by
  intro input
  have hlt : zigzag n.toInt < Nat.pow 2 64 := zigzag_lt_of_int64 n
  have h : varintFrom 64 10 0 0 (input.prepend (varint (zigzag n.toInt)))
      = .ok (zigzag n.toInt) input :=
    varintFrom_varint (by decide) (by decide)
      (Nat.lt_trans hlt (by decide)) hlt input
  simp only [readLong, integer, bind, EStateM.bind, h, unzigzag_zigzag,
    Int64.ofInt_toInt]
  rfl

/-- **A number is read back as a long.** -/
theorem readLong_natCast {n : Nat} (h : n < 0x8000000000000000) :
    Reads readLong (integer n) (Int64.ofNat n) := by
  have hn : (Int64.ofNat n).toInt = n := Int64.toInt_ofNat_of_lt h
  rw [← hn]
  exact readLong_integer _

/-- **A number is read back as a 32-bit integer.** -/
theorem readInt_natCast {n : Nat} (h : n < 0x80000000) :
    Reads readInt (integer n) (Int32.ofNat n) := by
  have hn : (Int32.ofNat n).toInt = n := Int32.toInt_ofNat_of_lt h
  rw [← hn]
  exact readInt_integer _

/-! ## Other primitives -/

/-- **A truth value is read back.** -/
theorem readBoolean_boolean (b : Bool) :
    Reads readBoolean (boolean b) b := by
  intro input
  cases b <;> rfl

/-- The bytes of a pattern spell it. -/
theorem binary32_ofBytes_toBytes (x : Binary32) :
    Binary32.ofBytes x.toBytes = x := by
  obtain ⟨bits⟩ := x
  have hlt := bits.toNat_lt
  refine congrArg Binary32.mk (UInt32.toNat.inj ?_)
  simp [Binary32.toBytes, List.range, List.range.loop]
  omega

theorem binary64_ofBytes_toBytes (x : Binary64) :
    Binary64.ofBytes x.toBytes = x := by
  obtain ⟨bits⟩ := x
  have hlt := bits.toNat_lt
  refine congrArg Binary64.mk (UInt64.toNat.inj ?_)
  simp [Binary64.toBytes, List.range, List.range.loop]
  omega

/-- **A single precision number is read back.** -/
theorem readFloat_toBytes (x : Binary32) : Reads readFloat x.toBytes x := by
  intro input
  have htake : take 4 (input.prepend x.toBytes) = .ok x.toBytes input :=
    take_prepend x.toBytes input
  simp only [readFloat, bind, EStateM.bind, htake, binary32_ofBytes_toBytes]
  rfl

/-- **A double precision number is read back.** -/
theorem readDouble_toBytes (x : Binary64) : Reads readDouble x.toBytes x := by
  intro input
  have htake : take 8 (input.prepend x.toBytes) = .ok x.toBytes input :=
    take_prepend x.toBytes input
  simp only [readDouble, bind, EStateM.bind, htake, binary64_ofBytes_toBytes]
  rfl

/-- **A byte string is read back.** -/
theorem readBytes_bytes {b : List UInt8}
    (h : b.length < 0x8000000000000000) : Reads readBytes (bytes b) b := by
  intro input
  have hlength : (Int64.ofNat b.length).toInt = b.length :=
    Int64.toInt_ofNat_of_lt h
  simp only [readBytes, bytes, Input.prepend_append, bind, EStateM.bind,
    readLong_natCast h _, hlength, Int.toNat_natCast]
  rw [if_neg (by omega)]
  exact take_prepend b input

/-- A byte array is listed from a position on. -/
theorem byteArray_loop (b : ByteArray) (i : Nat) (acc : List UInt8) :
    ByteArray.toList.loop b i acc = acc.reverse ++ b.data.toList.drop i := by
  fun_induction ByteArray.toList.loop b i acc with
  | case1 i acc hlt ih =>
    have hi : i < b.data.toList.length := hlt
    have hget : b.get! i = b.data.toList[i] := by
      rw [ByteArray.get!, Array.getElem_toList]
      exact getElem!_pos b.data i hlt
    rw [ih, hget, List.reverse_cons, List.append_assoc,
      List.drop_eq_getElem_cons hi]
    rfl
  | case2 i acc hge =>
    have hlength : b.data.toList.length ≤ i := Nat.not_lt.mp hge
    rw [List.drop_of_length_le hlength, List.append_nil]

/-- The bytes of a text are its text. -/
theorem textOfBytes?_utf8 (s : String) : textOfBytes? (utf8 s) = some s := by
  have hbytes : (⟨(utf8 s).toArray⟩ : ByteArray) = s.toUTF8 := by
    rw [utf8, ByteArray.toList, byteArray_loop]
    rfl
  unfold textOfBytes?
  rw [hbytes, String.fromUTF8?]
  exact dif_pos s.isValidUTF8

/-- **A text is read back.** -/
theorem readString_string {s : String}
    (h : (utf8 s).length < 0x8000000000000000) :
    Reads readString (string s) s := by
  intro input
  simp only [readString, string, bind, EStateM.bind, readBytes_bytes h input,
    textOfBytes?_utf8]
  rfl

/-! ## Blocks -/

/-- The bytes of items in one block, and of the empty block that ends them. -/
def block (count : Nat) (items : List UInt8) : List UInt8 :=
  (if count = 0 then [] else integer count ++ items) ++ integer 0

/-- An integer takes at least a byte. -/
theorem length_integer_pos (n : Int) : 0 < (integer n).length := by
  unfold integer varint digits
  split <;> exact Nat.succ_pos _

end Wire

end Avro
