import Avro.Proofs.Wire.Locality

/-!
# Spellings of integers

Bytes spell a natural in base 128, the least significant digit first. They say
themselves where they end: the last byte has its high bit clear, and all the
others have theirs set (`Wire.Ended`). Zero digits may be put behind the
others, so a natural has many spellings, one for each number of bytes from some
number on.

A read of an integer takes a spelling of so many bytes at most, if the natural
fits in its width, and the integer is the one that the natural stands for. It
takes nothing else (`Read.TakesSpellings`): bytes that are all there is and do
not end are too few, and of everything else it says that it overflows. What is
written is the shortest of the spellings that are read as the integer
(`Read.Shortest`).
-/

namespace Avro

/-! ## Computations that succeed -/

section

variable {ε σ α β : Type} {m : EStateM ε σ α} {s t : σ} {b : β}

/-- One computation after another that succeeds. -/
theorem bind_eq_ok {f : α → EStateM ε σ β} (h : (m >>= f) s = .ok b t) :
    ∃ a between, m s = .ok a between ∧ f a between = .ok b t := by
  simp only [bind, EStateM.bind] at h
  cases hr : m s with
  | error e between => rw [hr] at h; exact absurd h (by simp)
  | ok a between => rw [hr] at h; exact ⟨a, between, rfl, h⟩

/-- What is made of a value that is given. -/
theorem map_eq_ok {f : α → β}
    (h : (do return f (← m) : EStateM ε σ β) s = .ok b t) :
    ∃ a, m s = .ok a t ∧ f a = b := by
  obtain ⟨a, between, hm, h⟩ := bind_eq_ok h
  obtain ⟨rfl, rfl⟩ := EStateM.Result.ok.inj h
  exact ⟨a, hm, rfl⟩

end

namespace Wire

/-! ## Spellings -/

/-- None of these bytes is the last one of a spelling. -/
def GoesOn (bytes : List UInt8) : Prop := ∀ b ∈ bytes, 128 ≤ b.toNat

/-- **Bytes that say where they end**: the last one has its high bit clear, and
no other one has. -/
inductive Ended : List UInt8 → Prop
  /-- The last byte. -/
  | last {b : UInt8} (clear : b.toNat < 128) : Ended [b]
  /-- A byte before others. -/
  | more {b : UInt8} {rest : List UInt8} (set : 128 ≤ b.toNat)
    (ended : Ended rest) : Ended (b :: rest)

/-- The natural that bytes spell. -/
def spelled : List UInt8 → Nat
  | [] => 0
  | b :: rest => b.toNat % 128 + 128 * spelled rest

/-- **Bytes spell a natural** as an integer of so many bytes and bits. -/
structure Spells (most width : Nat) (bytes : List UInt8) (n : Nat) :
    Prop where
  /-- They say where they end. -/
  ended : Ended bytes
  /-- They are not too many. -/
  length_le : bytes.length ≤ most
  /-- The natural. -/
  spelled_eq : spelled bytes = n
  /-- The natural is not too great. -/
  lt : n < Nat.pow 2 width

/-- A spelling has a byte. -/
theorem Ended.length_pos {bytes : List UInt8} (h : Ended bytes) :
    0 < bytes.length := by
  cases h <;> exact Nat.succ_pos _

/-- The digits behind the first one count 128 times as much. -/
theorem spelled_cons_mul (b : UInt8) (rest : List UInt8) (place : Nat) :
    spelled (b :: rest) * Nat.pow 2 place
      = b.toNat % 128 * Nat.pow 2 place
        + spelled rest * Nat.pow 2 (place + 7) := by
  have hseven : Nat.pow 2 (place + 7) = 128 * Nat.pow 2 place :=
    (Nat.pow_add 2 place 7).trans (Nat.mul_comm _ _)
  rw [spelled, Nat.add_mul, hseven, ← Nat.mul_assoc, Nat.mul_comm (spelled rest)]

/-! ## Reading -/

/-- **A spelling is read**, after digits that spell `value`. -/
theorem varintFrom_of_ended {width : Nat} (hwidth : width ≤ 64)
    (input : Input) {bytes : List UInt8} (h : Ended bytes) :
    ∀ {more place value : Nat}, bytes.length ≤ more →
      value + spelled bytes * Nat.pow 2 place < Nat.pow 2 width →
      varintFrom width more place value (input.prepend bytes)
        = .ok (value + spelled bytes * Nat.pow 2 place) input := by
  have hpow : Nat.pow 2 width ≤ 0x10000000000000000 :=
    Nat.pow_le_pow_right (by decide) hwidth
  induction h with
  | @last b clear =>
    intro more place value hmore hfits
    obtain ⟨more, rfl⟩ : ∃ m, more = m + 1 := ⟨more - 1, by
      rw [List.length_singleton] at hmore
      omega⟩
    have hspelled : spelled [b] * Nat.pow 2 place
        = b.toNat % 128 * Nat.pow 2 place := rfl
    rw [hspelled] at hfits ⊢
    rw [varintFrom_prepend b rfl (by omega), if_neg (Nat.not_le.mpr clear),
      if_neg (Nat.not_le.mpr hfits)]
    rfl
  | @more b rest set _ ih =>
    intro more place value hmore hfits
    obtain ⟨more, rfl⟩ : ∃ m, more = m + 1 := ⟨more - 1, by
      rw [List.length_cons] at hmore
      omega⟩
    rw [spelled_cons_mul, ← Nat.add_assoc] at hfits ⊢
    rw [varintFrom_prepend b rfl (by omega), if_pos set]
    exact ih (Nat.le_of_succ_le_succ hmore) hfits

/-- **What is read is a spelling.** -/
theorem exists_ended_of_varintFrom {width : Nat} :
    ∀ {more place value n : Nat} {input left : Input},
      varintFrom width more place value input = .ok n left →
      ∃ bytes, input = left.prepend bytes ∧ Ended bytes
        ∧ bytes.length ≤ more ∧ n = value + spelled bytes * Nat.pow 2 place
        ∧ n < Nat.pow 2 width
  | 0, _, _, _, _, _, h => nomatch h
  | more + 1, place, value, n, ⟨[], ending⟩, left, h => nomatch h
  | more + 1, place, value, n, ⟨b :: rest, ending⟩, left, h => by
    have hbyte : byte ⟨b :: rest, ending⟩ = .ok b ⟨rest, ending⟩ := rfl
    simp only [varintFrom_succ, bind, EStateM.bind, hbyte] at h
    split at h
    · exact nomatch h
    · split at h
      · rename_i hset
        obtain ⟨bytes, hinput, hended, hlength, hn, hfits⟩ :=
          exists_ended_of_varintFrom h
        refine ⟨b :: bytes, ?_, .more hset hended, Nat.succ_le_succ hlength,
          ?_, hfits⟩
        · obtain ⟨rfl, rfl⟩ := Input.mk.inj hinput
          rfl
        · rw [hn, spelled_cons_mul, Nat.add_assoc]
      · rename_i hclear
        split at h
        · exact nomatch h
        · rename_i hfits
          obtain ⟨rfl, rfl⟩ := EStateM.Result.ok.inj h
          exact ⟨[b], rfl, .last (Nat.not_le.mp hclear), Nat.succ_pos more,
            rfl, Nat.not_le.mp hfits⟩

/-- **Bytes that do not end and are too few to overflow** are all read, and
then the input ends. -/
theorem varintFrom_of_goesOn {width : Nat} {ending : Ending} :
    ∀ {bytes : List UInt8} {more place value : Nat}, GoesOn bytes →
      bytes.length < more → place + 7 * bytes.length ≤ 64 →
      varintFrom width more place value ⟨bytes, ending⟩
        = .error ending.error ⟨[], ending⟩
  | bytes, 0, _, _, _, hmore, _ => absurd hmore (Nat.not_lt_zero _)
  | [], more + 1, place, value, _, _, _ => by
    rw [varintFrom_succ]
    rfl
  | b :: rest, more + 1, place, value, hbytes, hmore, hplace => by
    rw [List.length_cons] at hmore hplace
    have hdigit : b.toNat % 128 * Nat.pow 2 place < 0x10000000000000000 := by
      have hseven : Nat.pow 2 (place + 7) = 128 * Nat.pow 2 place :=
        (Nat.pow_add 2 place 7).trans (Nat.mul_comm _ _)
      have hpow : Nat.pow 2 (place + 7) ≤ Nat.pow 2 64 :=
        Nat.pow_le_pow_right (by decide) (by omega)
      have hpos : 0 < Nat.pow 2 place := Nat.pow_pos (by decide)
      exact Nat.lt_of_lt_of_le (hseven ▸ (Nat.mul_lt_mul_right hpos).mpr
        (Nat.mod_lt _ (by decide))) hpow
    have hinput : (⟨b :: rest, ending⟩ : Input)
        = (Input.mk [] ending).prepend (b :: rest) := by
      rw [Input.prepend, List.append_nil]
    have hrest : (Input.mk [] ending).prepend rest = ⟨rest, ending⟩ := by
      rw [Input.prepend, List.append_nil]
    rw [hinput, varintFrom_prepend b rfl hdigit,
      if_pos (hbytes b List.mem_cons_self), hrest]
    exact varintFrom_of_goesOn (fun x hx => hbytes x (List.mem_cons_of_mem _ hx))
      (by omega) (by omega)

/-- **Why a spelling is not read**: it overflows, or the input ends in the
middle of it. -/
theorem varintFrom_error {width : Nat} :
    ∀ {more place value : Nat} {input left : Input} {e : DecodeError},
      varintFrom width more place value input = .error e left →
      e = .varintOverflow width
        ∨ GoesOn input.rest ∧ input.rest.length < more
  | 0, _, _, _, _, _, h => .inl (EStateM.Result.error.inj h).1.symm
  | more + 1, _, _, ⟨[], ending⟩, _, _, _ => .inr ⟨nofun, Nat.succ_pos more⟩
  | more + 1, place, value, ⟨b :: rest, ending⟩, left, e, h => by
    have hbyte : byte ⟨b :: rest, ending⟩ = .ok b ⟨rest, ending⟩ := rfl
    simp only [varintFrom_succ, bind, EStateM.bind, hbyte] at h
    split at h
    · exact .inl (EStateM.Result.error.inj h).1.symm
    · split at h
      · rename_i hset
        rcases varintFrom_error h with he | ⟨hrest, hlength⟩
        · exact .inl he
        · exact .inr ⟨List.forall_mem_cons.mpr ⟨hset, hrest⟩,
            Nat.succ_lt_succ hlength⟩
      · split at h
        · exact .inl (EStateM.Result.error.inj h).1.symm
        · exact nomatch h

/-! ## The shortest spelling -/

/-- **No spelling of a natural is as short as its digits**, but for the digits
themselves. -/
theorem length_digits_lt {bytes : List UInt8} (h : Ended bytes) :
    ∀ {most : Nat}, bytes.length ≤ most + 1 →
      bytes ≠ digits most (spelled bytes) →
      (digits most (spelled bytes)).length < bytes.length := by
  induction h with
  | @last b clear =>
    intro most _ hne
    have hspelled : spelled [b] = b.toNat := Nat.mod_eq_of_lt clear
    have hdigits : digits most (spelled [b]) = [b] := by
      rw [hspelled]
      cases most with
      | zero => rw [digits, UInt8.ofNat_toNat]
      | succ most => rw [digits, if_pos clear, UInt8.ofNat_toNat]
    exact absurd hdigits.symm hne
  | @more b rest set ended ih =>
    intro most hmost hne
    have hpos := ended.length_pos
    rw [List.length_cons] at hmost ⊢
    obtain ⟨most, rfl⟩ : ∃ m, most = m + 1 := ⟨most - 1, by omega⟩
    by_cases hsmall : spelled (b :: rest) < 128
    · -- the digits behind the first are zeros
      rw [digits, if_pos hsmall, List.length_singleton]
      omega
    · have hfirst : spelled (b :: rest) % 128 = b.toNat % 128 := by
        rw [spelled]
        omega
      have hothers : spelled (b :: rest) / 128 = spelled rest := by
        rw [spelled]
        omega
      have hbyte : UInt8.ofNat (b.toNat % 128 + 128) = b := by
        have hlt := b.toNat_lt
        rw [show b.toNat % 128 + 128 = b.toNat by omega, UInt8.ofNat_toNat]
      rw [digits, if_neg hsmall, hfirst, hothers, hbyte] at hne ⊢
      exact Nat.succ_lt_succ
        (ih (by omega) fun heq => hne (congrArg (b :: ·) heq))

/-- An integer is written in fewer bytes than any other spelling has. -/
theorem Spells.length_integer_lt {most width : Nat} (hmost : most ≤ 10)
    {bytes : List UInt8} {n : Int} (h : Spells most width bytes (zigzag n))
    (hne : bytes ≠ integer n) : (integer n).length < bytes.length := by
  have hlength : bytes.length ≤ 9 + 1 := Nat.le_trans h.length_le hmost
  have hlt := length_digits_lt h.ended hlength
  rw [h.spelled_eq] at hlt
  exact hlt hne

/-! ## Zigzag -/

/-- The integer of a natural below twice a bound is inside the bound. -/
theorem unzigzag_mem {n : Nat} (bound : Nat) (h : n < 2 * bound) :
    -(bound : Int) ≤ unzigzag n ∧ unzigzag n < bound := by
  unfold unzigzag
  split <;> omega

/-- What is shifted by all places but one to the right is the sign. -/
theorem sshiftRight_sign {w : Nat} (x : BitVec (w + 1)) :
    x.sshiftRight w
      = if x.toInt < 0 then BitVec.allOnes (w + 1) else 0#(w + 1) := by
  have hlow := x.le_toInt
  have hhigh := x.toInt_lt
  rw [Nat.add_sub_cancel] at hlow hhigh
  refine BitVec.eq_of_toInt_eq ?_
  rw [BitVec.toInt_sshiftRight, Int.shiftRight_eq_div_pow]
  split
  · have hpos : (0 : Int) < (2 ^ w : Nat) := Int.natCast_pos.mpr (Nat.two_pow_pos w)
    rw [BitVec.toInt_allOnes, if_pos (Nat.succ_pos w),
      Int.ediv_eq_iff_of_pos hpos]
    push_cast
    constructor <;> omega
  · rename_i hsign
    rw [BitVec.toInt_zero, Int.ediv_eq_zero_of_lt (Int.not_lt.mp hsign)]
    push_cast
    exact hhigh

/-- **Zigzag is a shift to the left**, inverted if the integer is negative. -/
theorem toNat_shiftLeft_xor_sign {w : Nat} (x : BitVec (w + 1)) :
    (x <<< 1 ^^^ x.sshiftRight w).toNat = zigzag x.toInt := by
  obtain ⟨half, hhalf⟩ : ∃ half, half = 2 ^ w := ⟨_, rfl⟩
  have hwhole : 2 ^ (w + 1) = 2 * half := by
    rw [Nat.pow_succ, Nat.mul_comm, hhalf]
  have hlt : x.toNat < 2 * half := hwhole ▸ x.isLt
  have hint : x.toInt = if x.toNat < half then (x.toNat : Int)
      else (x.toNat : Int) - (2 * half : Nat) := by
    rw [BitVec.toInt_eq_toNat_cond, hwhole]
    split <;> split <;> omega
  have hshift : (x <<< 1).toNat = 2 * x.toNat % (2 * half) := by
    rw [BitVec.toNat_shiftLeft, Nat.shiftLeft_eq, Nat.pow_one, Nat.mul_comm, hwhole]
  rw [sshiftRight_sign]
  by_cases hsmall : x.toNat < half
  · rw [if_pos hsmall] at hint
    rw [if_neg (by omega), BitVec.xor_zero, hshift,
      Nat.mod_eq_of_lt (by omega), hint, zigzag,
      if_pos (Int.natCast_nonneg _), Int.toNat_natCast]
  · rw [if_neg hsmall] at hint
    have hmod : 2 * x.toNat % (2 * half) = 2 * x.toNat - 2 * half := by
      rw [Nat.mod_eq_sub_mod (by omega), Nat.mod_eq_of_lt (by omega)]
    rw [if_pos (by omega), BitVec.xor_allOnes, BitVec.toNat_not, hshift, hmod,
      hwhole, zigzag, if_neg (by omega)]
    omega

/-- The bytes of a 64-bit integer, with its natural computed in bits. -/
def writtenLong (n : Int64) : List UInt8 :=
  varint (n <<< 1 ^^^ n >>> 63).toUInt64.toNat

/-- The bytes of a 32-bit integer, with its natural computed in bits. -/
def writtenInt (n : Int32) : List UInt8 :=
  varint (n <<< 1 ^^^ n >>> 31).toUInt32.toNat

theorem writtenLong_eq (n : Int64) : writtenLong n = integer n.toInt :=
  congrArg varint (toNat_shiftLeft_xor_sign n.toBitVec)

theorem writtenInt_eq (n : Int32) : writtenInt n = integer n.toInt :=
  congrArg varint (toNat_shiftLeft_xor_sign n.toBitVec)

end Wire

/-! ## Integers -/

open Wire

/-- **A read takes the spellings of integers**, of so many bytes and bits, and
nothing else. -/
structure Read.TakesSpellings {α : Type} (m : Read α) (number : α → Int)
    (most width : Nat) : Prop where
  /-- It takes the bytes that spell the natural of an integer, as that
  integer. -/
  ok_iff : ∀ {input left : Input} {a : α}, m input = .ok a left ↔
    ∃ bytes, input = left.prepend bytes
      ∧ Spells most width bytes (zigzag (number a))
  /-- Fewer bytes that do not end are all there is. -/
  tooFew : ∀ {input : Input}, GoesOn input.rest → input.rest.length < most →
    m input = .error input.ending.error { input with rest := [] }
  /-- Of everything else it says that it overflows. -/
  overflows : ∀ {input : Input},
    (∀ bytes n (left : Input), input = left.prepend bytes →
      ¬ Spells most width bytes n) →
    ¬ (GoesOn input.rest ∧ input.rest.length < most) →
    ∃ left, m input = .error (.varintOverflow width) left

/-- **Bytes are the shortest ones** that a read takes as a value. -/
structure Read.Shortest {α : Type} (m : Read α) (bytes : List UInt8) (a : α) :
    Prop where
  /-- They are read as the value. -/
  reads : Reads m bytes a
  /-- Others that are read as the value are longer. -/
  length_lt : ∀ {others : List UInt8} {left : Input},
    m (left.prepend others) = .ok a left → others ≠ bytes →
    bytes.length < others.length

section

variable {α : Type} {number : α → Int} {of : Int → α} {most width : Nat}

/-- **What is made of a varint takes spellings**, if every natural that fits is
that of a value. -/
theorem Read.TakesSpellings.of_varint (hwidth : width ≤ 64)
    (hmost : 7 * most ≤ 70)
    (hof : ∀ n, n < Nat.pow 2 width → number (of (unzigzag n)) = unzigzag n)
    (hnumber : ∀ a, of (number a) = a) :
    Read.TakesSpellings (do return of (unzigzag (← varintFrom width most 0 0)))
      number most width := by
  have hplace : ∀ n : Nat, 0 + n * Nat.pow 2 0 = n := fun n => by
    rw [Nat.zero_add]
    exact Nat.mul_one n
  have htakes : ∀ {input left : Input} {bytes : List UInt8} {n : Nat},
      input = left.prepend bytes → Spells most width bytes n →
      varintFrom width most 0 0 input = .ok n left := by
    rintro input left bytes n rfl hspells
    have hfits : 0 + spelled bytes * Nat.pow 2 0 < Nat.pow 2 width := by
      rw [hplace, hspells.spelled_eq]
      exact hspells.lt
    have h := varintFrom_of_ended hwidth left hspells.ended
      hspells.length_le hfits
    rwa [hplace, hspells.spelled_eq] at h
  refine ⟨?_, ?_, ?_⟩
  · intro input left a
    constructor
    · intro h
      obtain ⟨n, hn, rfl⟩ := map_eq_ok h
      obtain ⟨bytes, hinput, hended, hlength, rfl, hlt⟩ :=
        exists_ended_of_varintFrom hn
      rw [hplace] at hlt ⊢
      refine ⟨bytes, hinput, hended, hlength, ?_, ?_⟩ <;>
        rw [hof _ hlt, zigzag_unzigzag]
      exact hlt
    · rintro ⟨bytes, hinput, hspells⟩
      simp only [bind, EStateM.bind, htakes hinput hspells, unzigzag_zigzag,
        hnumber]
      rfl
  · intro input hgoesOn hlength
    have h : varintFrom width most 0 0 input
        = .error input.ending.error ⟨[], input.ending⟩ :=
      varintFrom_of_goesOn hgoesOn hlength (by omega)
    simp only [bind, EStateM.bind, h]
  · intro input hnone htooFew
    simp only [bind, EStateM.bind]
    cases hr : varintFrom width most 0 0 input with
    | ok n left =>
      obtain ⟨bytes, hinput, hended, hlength, hn, hlt⟩ :=
        exists_ended_of_varintFrom hr
      rw [hplace] at hn
      exact absurd ⟨hended, hlength, hn.symm, hlt⟩ (hnone bytes n left hinput)
    | error e left =>
      obtain rfl := (varintFrom_error hr).resolve_right htooFew
      exact ⟨left, rfl⟩

/-- **The digits of its natural are the shortest bytes of an integer.** -/
theorem Read.TakesSpellings.shortest {m : Read α}
    (hm : m.TakesSpellings number most width) (hmost : most ≤ 10) {a : α}
    (ha : Reads m (integer (number a)) a) :
    m.Shortest (integer (number a)) a where
  reads := ha
  length_lt {others left} h hne := by
    obtain ⟨bytes, hinput, hspells⟩ := hm.ok_iff.mp h
    obtain rfl := Input.prepend_inj.mp hinput
    exact hspells.length_integer_lt hmost hne

/-- **No fewer bytes are read than an integer is written in.** -/
theorem Read.TakesSpellings.length_integer_le {m : Read α}
    (hm : m.TakesSpellings number most width) (hmost : most ≤ 10)
    {input left : Input} {a : α} (h : m input = .ok a left) :
    (integer (number a)).length + left.rest.length ≤ input.rest.length := by
  obtain ⟨bytes, rfl, hspells⟩ := hm.ok_iff.mp h
  rw [Input.prepend, List.length_append]
  refine Nat.add_le_add_right ?_ _
  by_cases hsame : bytes = integer (number a)
  · exact Nat.le_of_eq (congrArg List.length hsame.symm)
  · exact Nat.le_of_lt (hspells.length_integer_lt hmost hsame)

end

namespace Wire

theorem readLong_takesSpellings :
    Read.TakesSpellings readLong Int64.toInt 10 64 := by
  refine .of_varint (by decide) (by decide) (fun n hn => ?_) fun _ =>
    Int64.ofInt_toInt _
  obtain ⟨hlow, hhigh⟩ := unzigzag_mem (2 ^ 63) hn
  exact Int64.toInt_ofInt_of_le hlow hhigh

theorem readInt_takesSpellings :
    Read.TakesSpellings readInt Int32.toInt 5 32 := by
  refine .of_varint (by decide) (by decide) (fun n hn => ?_) fun _ =>
    Int32.ofInt_toInt _
  obtain ⟨hlow, hhigh⟩ := unzigzag_mem (2 ^ 31) hn
  exact Int32.toInt_ofInt_of_le hlow hhigh

/-- **Integers are read from their spellings and written in the shortest
one.**

* A 64-bit integer is read from a spelling of ten bytes at most whose natural
  fits in 64 bits, and a 32-bit integer from one of five bytes at most whose
  natural fits in 32 bits. Fewer bytes that do not end are too few, and
  everything else overflows.
* Each is written in the shortest bytes that are read as it, which are the
  digits of its zigzag natural, shifted and inverted in bits.
* Integers of one value are written alike. -/
theorem integers_spelled :
    Read.TakesSpellings readLong Int64.toInt 10 64
      ∧ Read.TakesSpellings readInt Int32.toInt 5 32
      ∧ (∀ n : Int64, writtenLong n = integer n.toInt
        ∧ Read.Shortest readLong (writtenLong n) n)
      ∧ (∀ n : Int32, writtenInt n = integer n.toInt
        ∧ Read.Shortest readInt (writtenInt n) n)
      ∧ ∀ (small : Int32) (great : Int64), small.toInt = great.toInt →
        writtenInt small = writtenLong great := by
  refine ⟨readLong_takesSpellings, readInt_takesSpellings, fun n => ?_,
    fun n => ?_, fun small great h => ?_⟩
  · rw [writtenLong_eq]
    exact ⟨rfl, readLong_takesSpellings.shortest (by decide)
      (readLong_integer n)⟩
  · rw [writtenInt_eq]
    exact ⟨rfl, readInt_takesSpellings.shortest (by decide)
      (readInt_integer n)⟩
  · rw [writtenInt_eq, writtenLong_eq, h]

end Wire

end Avro
