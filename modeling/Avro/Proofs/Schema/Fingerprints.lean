import Avro.Fingerprint
import Mathlib.Algebra.GroupWithZero.Nat
import Mathlib.Logic.Function.Iterate

/-!
# Fingerprints bit by bit

A fingerprint can be taken without a table, by a register of 64 bits. A byte is
added to the low bits of the register, and then eight bits are shifted out, each
1 among them adding the polynomial to what is left (`Fingerprint.register`).

The table has what eight shifts make of a low byte. That is enough, because a
shift is linear (`shiftBits_xor`): a register is the sum of its low byte and of
the other bytes, and eight shifts do nothing to the other bytes but move them
down (`shiftBits_high`). So the table gives what the register gives, one byte
after another (`step_eq`), and the fingerprint is linear itself, up to the state
that a register starts with.
-/

namespace Avro

namespace Fingerprint

/-! ## The register -/

/-- **One bit is shifted out** of the register; a 1 adds the polynomial. -/
def registerBit (register : UInt64) : UInt64 :=
  if register.toNat.testBit 0 then (register >>> 1) ^^^ 0xc15d213aa4d7a795
  else register >>> 1

/-- **One byte is taken in**: it is added to the low bits, and eight bits are
shifted out. -/
def registerByte (register : UInt64) (byte : UInt8) : UInt64 :=
  registerBit^[8] (register ^^^ byte.toUInt64)

/-- **What the register holds** after bytes, from its first state on. -/
def register (bytes : List UInt8) : UInt64 :=
  bytes.foldl registerByte 0xc15d213aa4d7a795

/-- Shifting a bit out is what the table was made with. -/
theorem shiftBit_eq (state : UInt64) : shiftBit state = registerBit state := by
  have hlow : state &&& 1 = 1 ↔ state.toNat.testBit 0 = true := by
    rw [← UInt64.toNat_inj, UInt64.toNat_and, Nat.testBit_zero,
      decide_eq_true_iff]
    exact Nat.and_one_is_mod _ ▸ Iff.rfl
  rw [shiftBit, registerBit]
  simp only [hlow]
  split
  · rfl
  · exact UInt64.xor_zero

theorem shiftBits_eq (n : Nat) (state : UInt64) :
    shiftBits n state = registerBit^[n] state := by
  induction n generalizing state with
  | zero => rfl
  | succ n ih =>
    rw [shiftBits, ih, shiftBit_eq, Function.iterate_succ_apply]

/-! ## Shifting is linear -/

/-- What is added twice is not added at all. -/
theorem xor_xor_cancel (a b c : UInt64) :
    (a ^^^ c) ^^^ (b ^^^ c) = a ^^^ b := by
  calc (a ^^^ c) ^^^ (b ^^^ c) = (a ^^^ b) ^^^ (c ^^^ c) := by ac_rfl
    _ = a ^^^ b := by rw [UInt64.xor_self, UInt64.xor_zero]

/-- **Shifting a bit out of a sum** shifts it out of the parts. -/
theorem shiftBit_xor (a b : UInt64) :
    shiftBit (a ^^^ b) = shiftBit a ^^^ shiftBit b := by
  have hbit : (a ^^^ b).toNat.testBit 0
      = (a.toNat.testBit 0 ^^ b.toNat.testBit 0) := by
    rw [UInt64.toNat_xor, Nat.testBit_xor]
  have hshift : (a ^^^ b) >>> 1 = a >>> 1 ^^^ b >>> 1 := UInt64.shiftRight_xor
  simp only [shiftBit_eq, registerBit, hbit, hshift]
  -- The polynomial is added once if one of the bits is 1, and twice, which is
  -- not at all, if both are.
  cases a.toNat.testBit 0 <;> cases b.toNat.testBit 0
  case false.false => rfl
  case false.true =>
    show a >>> 1 ^^^ b >>> 1 ^^^ _ = a >>> 1 ^^^ (b >>> 1 ^^^ _)
    ac_rfl
  case true.false =>
    show a >>> 1 ^^^ b >>> 1 ^^^ _ = (a >>> 1 ^^^ _) ^^^ b >>> 1
    ac_rfl
  case true.true => exact (xor_xor_cancel _ _ _).symm

theorem shiftBits_xor (n : Nat) (a b : UInt64) :
    shiftBits n (a ^^^ b) = shiftBits n a ^^^ shiftBits n b := by
  induction n generalizing a b with
  | zero => rfl
  | succ n ih => rw [shiftBits, shiftBit_xor, ih, shiftBits, shiftBits]

/-- **Bits that are 0 are shifted out** without a trace. -/
theorem toNat_shiftBits_of_dvd (n : Nat) {a : UInt64} (h : 2 ^ n ∣ a.toNat) :
    (shiftBits n a).toNat = a.toNat / 2 ^ n := by
  induction n generalizing a with
  | zero => exact (Nat.div_one _).symm
  | succ n ih =>
    obtain ⟨k, hk⟩ := h
    have hhalf : (shiftBit a).toNat = a.toNat / 2 := by
      have hbit : a.toNat.testBit 0 = false := by
        rw [Nat.testBit_zero, hk, Nat.pow_succ]
        simp [Nat.mul_comm _ 2, Nat.mul_assoc]
      rw [shiftBit_eq, registerBit, hbit]
      exact Nat.shiftRight_eq_div_pow _ _
    have hdvd : 2 ^ n ∣ (shiftBit a).toNat := by
      refine ⟨k, ?_⟩
      rw [hhalf, hk, Nat.pow_succ, Nat.mul_comm _ 2, Nat.mul_assoc,
        Nat.mul_div_cancel_left _ (by decide)]
    rw [shiftBits, ih hdvd, hhalf, Nat.div_div_eq_div_mul, Nat.pow_succ,
      Nat.mul_comm 2]

/-! ## The table -/

/-- The entry of the table for a byte. -/
theorem table_get (b : UInt8) :
    table.get ⟨b.toNat, UInt8.toNat_lt b⟩ = shiftBits 8 b.toUInt64 := by
  have hentry := Vector.getElem_ofFn
    (f := fun i : Fin 256 => shiftBits 8 i.val.toUInt64) (UInt8.toNat_lt b)
  exact hentry.trans (congrArg (shiftBits 8) (UInt64.ofNat_uInt8ToNat b))

/-- The bytes of a register but the low one. -/
theorem toNat_high (a : UInt64) :
    ((a >>> 8) <<< 8).toNat = 2 ^ 8 * (a.toNat / 2 ^ 8) := by
  have hlt : a.toNat < 2 ^ 64 := a.toNat_lt
  rw [UInt64.toNat_shiftLeft, UInt64.toNat_shiftRight]
  show a.toNat >>> 8 <<< 8 % 2 ^ 64 = _
  rw [Nat.shiftRight_eq_div_pow, Nat.shiftLeft_eq, Nat.mul_comm]
  exact Nat.mod_eq_of_lt (by omega)

/-- **A register is the sum** of its low byte and of the other bytes. -/
theorem high_xor_low (a : UInt64) :
    ((a >>> 8) <<< 8) ^^^ a.toUInt8.toUInt64 = a := by
  apply UInt64.toNat_inj.mp
  rw [UInt64.toNat_xor, toNat_high, UInt8.toNat_toUInt64, UInt64.toNat_toUInt8]
  refine Nat.eq_of_testBit_eq fun i => ?_
  rw [Nat.testBit_xor, Nat.testBit_two_pow_mul, Nat.testBit_div_two_pow,
    Nat.testBit_mod_two_pow]
  rcases Nat.lt_or_ge i 8 with h | h
  · rw [decide_eq_false (Nat.not_le_of_lt h), decide_eq_true h, Bool.false_and,
      Bool.false_xor, Bool.true_and]
  · rw [decide_eq_true h, decide_eq_false (Nat.not_lt_of_ge h), Bool.true_and,
      Bool.false_and, Bool.xor_false, Nat.sub_add_cancel h]

/-- **The other bytes are moved down** by eight shifts. -/
theorem shiftBits_high (a : UInt64) :
    shiftBits 8 ((a >>> 8) <<< 8) = a >>> 8 := by
  apply UInt64.toNat_inj.mp
  rw [toNat_shiftBits_of_dvd 8 ⟨_, toNat_high a⟩, toNat_high,
    Nat.mul_div_cancel_left _ (Nat.two_pow_pos 8)]
  exact (Nat.shiftRight_eq_div_pow _ _).symm

/-- A byte does not reach the other bytes. -/
theorem xor_byte_shiftRight (a : UInt64) (b : UInt8) :
    (a ^^^ b.toUInt64) >>> 8 = a >>> 8 := by
  have hzero : b.toUInt64 >>> 8 = 0 := by
    apply UInt64.toNat_inj.mp
    rw [UInt64.toNat_shiftRight, UInt8.toNat_toUInt64]
    exact Nat.shiftRight_eq_zero _ _ b.toNat_lt
  rw [UInt64.shiftRight_xor, hzero, UInt64.xor_zero]

/-- **The table takes a byte in as the register does.** -/
theorem step_eq (state : UInt64) (byte : UInt8) :
    step state byte = registerByte state byte := by
  have hindex := table_get (state ^^^ byte.toUInt64).toUInt8
  rw [registerByte, ← shiftBits_eq, ← high_xor_low (state ^^^ byte.toUInt64),
    shiftBits_xor, shiftBits_high, xor_byte_shiftRight, ← hindex]
  rfl

/-- **The table and the register give the same** for all bytes. -/
theorem ofBytes_eq (bytes : List UInt8) : ofBytes bytes = register bytes := by
  rw [ofBytes, funext₂ step_eq]
  rfl

/-- The fingerprint of the canonical form `"int"`. -/
example : ofBytes [0x22, 0x69, 0x6e, 0x74, 0x22] = 0x7275d51a3f395c8f := by
  rw [ofBytes_eq]
  decide +kernel

/-! ## Sums of byte strings -/

/-- The sum of two byte strings, byte by byte. -/
def sum (a b : List UInt8) : List UInt8 := List.zipWith (· ^^^ ·) a b

theorem step_xor (s t : UInt64) (x y : UInt8) :
    step (s ^^^ t) (x ^^^ y) = step s x ^^^ step t y := by
  have hsum : (s ^^^ t) ^^^ (x ^^^ y).toUInt64
      = (s ^^^ x.toUInt64) ^^^ (t ^^^ y.toUInt64) := by
    rw [UInt8.toUInt64_xor]
    ac_rfl
  simp only [step_eq, registerByte, ← shiftBits_eq]
  rw [hsum, shiftBits_xor]

/-- **Taking in a sum** leaves the sum of what the parts leave. -/
theorem foldl_step_xor : ∀ {a b : List UInt8} (s t : UInt64),
    a.length = b.length →
    (sum a b).foldl step (s ^^^ t) = a.foldl step s ^^^ b.foldl step t
  | [], [], _, _, _ => rfl
  | x :: a, y :: b, s, t, h => by
    show (sum a b).foldl step (step (s ^^^ t) (x ^^^ y)) = _
    rw [step_xor, foldl_step_xor _ _ (Nat.succ.inj h)]
    rfl

end Fingerprint

open Fingerprint in
/-- **The fingerprint is what the register holds**, for bytes as well as for
schemas, whose bytes are those of their canonical form. Hence the fingerprint
of a sum of three byte strings of one length is the sum of theirs. -/
theorem Fingerprint.ofBytes_register :
    (∀ bytes, ofBytes bytes = register bytes)
    ∧ (∀ s : Schema, s.fingerprint = register (utf8 s.canonicalForm))
    ∧ ∀ a b c : List UInt8, a.length = b.length → b.length = c.length →
      ofBytes (sum (sum a b) c) = ofBytes a ^^^ ofBytes b ^^^ ofBytes c := by
  refine ⟨ofBytes_eq, fun s => ofBytes_eq _, fun a b c hab hbc => ?_⟩
  have hsum : (sum a b).length = c.length := by
    rw [sum, List.length_zipWith, hab, Nat.min_self, hbc]
  -- The first state is its own sum with itself and itself.
  have hstart : polynomial ^^^ polynomial ^^^ polynomial = polynomial := by
    rw [UInt64.xor_self, UInt64.zero_xor]
  calc ofBytes (sum (sum a b) c)
      = (sum (sum a b) c).foldl step
          (polynomial ^^^ polynomial ^^^ polynomial) := by
        rw [hstart, ofBytes]
    _ = (sum a b).foldl step (polynomial ^^^ polynomial)
          ^^^ c.foldl step polynomial := foldl_step_xor _ _ hsum
    _ = ofBytes a ^^^ ofBytes b ^^^ ofBytes c := by
        rw [foldl_step_xor _ _ hab]
        rfl

open Fingerprint in
/-- The sum of three strings of two bytes, and its fingerprint. -/
theorem Fingerprint.ofBytes_register_bytes :
    [0xc3, 0x01].length = [0x22, 0xff].length
    ∧ [0x22, 0xff].length = [0x80, 0x7f].length
    ∧ sum (sum [0xc3, 0x01] [0x22, 0xff]) [0x80, 0x7f] = [0x61, 0x81]
    ∧ ofBytes [0x61, 0x81]
      = ofBytes [0xc3, 0x01] ^^^ ofBytes [0x22, 0xff] ^^^ ofBytes [0x80, 0x7f] :=
  ⟨rfl, rfl, rfl,
    ofBytes_register.2.2 [0xc3, 0x01] [0x22, 0xff] [0x80, 0x7f] rfl rfl⟩

end Avro
