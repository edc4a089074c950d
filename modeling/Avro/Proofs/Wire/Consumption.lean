import Avro.Machine.Basic

/-!
# Reads consume

Whatever a read of the wire format does, it leaves a part of its input: the
bytes that are left are the last ones it was given, and what happens past
them does not change (`Input.LeftOf`). This holds of reads that fail too
(`Read.Consumes`).

It is shown of what the readers are written with: a byte, a number of bytes,
and one read after another. Every reader inherits it, as it does any property
that these have (`Read.WireClosed`).

An integer takes at least a byte (`Wire.readLong_length_lt`), which is why a
sequence of blocks, each of which begins with one, comes to an end.
-/

namespace Avro

namespace Wire

/-- The digits of a varint, one at a time. -/
theorem varintFrom_succ (width more place value : Nat) :
    varintFrom width (more + 1) place value = (do
      let b ← byte
      if 0x10000000000000000 ≤ b.toNat % 128 * Nat.pow 2 place then
        throw (.varintOverflow width)
      else if 128 ≤ b.toNat then
        varintFrom width more (place + 7)
          (value + b.toNat % 128 * Nat.pow 2 place)
      else if Nat.pow 2 width ≤ value + b.toNat % 128 * Nat.pow 2 place then
        throw (.varintOverflow width)
      else return value + b.toNat % 128 * Nat.pow 2 place) := by
  rw [varintFrom]
  refine congrArg (byte >>= ·) (funext fun b => ?_)
  dsimp only
  split
  · rfl
  · rfl

end Wire

namespace Read

/-- **A property that the readers have** if what they are written with has
it. -/
structure WireClosed (C : ∀ {α : Type}, Read α → Prop) : Prop where
  /-- What does not read has it. -/
  pure : ∀ {α : Type} (a : α), C (Pure.pure a : Read α)
  /-- So has a failure. -/
  throw : ∀ {α : Type} (e : DecodeError), C (throw e : Read α)
  /-- What is read one after the other has it. -/
  bind : ∀ {α β : Type} {m : Read α} {f : α → Read β},
    C m → (∀ a, C (f a)) → C (m >>= f)
  /-- Reading a byte has it. -/
  byte : C Wire.byte
  /-- Reading a number of bytes has it. -/
  take : ∀ n, C (Wire.take n)

namespace WireClosed

variable {C : ∀ {α : Type}, Read α → Prop} {α β : Type}

/-- What is made of the value that is read. -/
theorem map (hC : WireClosed C) {m : Read α} (h : C m) (f : α → β) :
    C (do return f (← m)) :=
  hC.bind h fun a => hC.pure (f a)

theorem varintFrom (hC : WireClosed C) (width : Nat) :
    ∀ more place value, C (Wire.varintFrom width more place value)
  | 0, _, _ => hC.throw _
  | more + 1, place, value => by
    rw [Wire.varintFrom_succ]
    exact hC.bind hC.byte fun b => iteInduction (fun _ => hC.throw _) fun _ =>
      iteInduction (fun _ => varintFrom hC width more _ _) fun _ =>
        iteInduction (fun _ => hC.throw _) fun _ => hC.pure _

theorem readInt (hC : WireClosed C) : C Wire.readInt :=
  hC.map (hC.varintFrom _ _ _ _) _

theorem readLong (hC : WireClosed C) : C Wire.readLong :=
  hC.map (hC.varintFrom _ _ _ _) _

theorem readBytes (hC : WireClosed C) : C Wire.readBytes :=
  hC.bind hC.readLong fun _ => iteInduction
    (fun _ => hC.bind (hC.throw _) fun _ => hC.take _) fun _ => hC.take _

theorem readString (hC : WireClosed C) : C Wire.readString :=
  hC.bind hC.readBytes fun bytes => by
    cases Wire.textOfBytes? bytes with
    | some s => exact hC.pure s
    | none => exact hC.throw _

theorem readBoolean (hC : WireClosed C) : C Wire.readBoolean :=
  hC.bind hC.byte fun _ => iteInduction (fun _ => hC.pure _) fun _ =>
    iteInduction (fun _ => hC.pure _) fun _ => hC.throw _

theorem readFloat (hC : WireClosed C) : C Wire.readFloat :=
  hC.map (hC.take 4) _

theorem readDouble (hC : WireClosed C) : C Wire.readDouble :=
  hC.map (hC.take 8) _

/-- **Reading a kind has it.** -/
theorem frameRead (hC : WireClosed C) (frame : Frame) (kind : Kind) :
    C (frame.read kind) := by
  cases kind with
  | null => exact hC.pure _
  | boolean => exact hC.map hC.readBoolean _
  | int | intAsLong | intAsFloat | intAsDouble => exact hC.map hC.readInt _
  | long | unusedLong | longAsFloat | longAsDouble =>
    exact hC.map hC.readLong _
  | float | floatAsDouble => exact hC.map hC.readFloat _
  | double => exact hC.map hC.readDouble _
  | bytes | stringAsBytes => exact hC.map hC.readBytes _
  | string | bytesAsString => exact hC.map hC.readString _
  | fixed size => exact hC.map (hC.take size) _

end WireClosed

end Read

/-- Whether an input is what is left of another. -/
def Input.LeftOf (left input : Input) : Prop :=
  left.rest <:+ input.rest ∧ left.ending = input.ending

namespace Input.LeftOf

theorem refl (input : Input) : input.LeftOf input :=
  ⟨List.suffix_refl _, rfl⟩

theorem trans {a b c : Input} (hab : a.LeftOf b) (hbc : b.LeftOf c) :
    a.LeftOf c :=
  ⟨hab.1.trans hbc.1, hab.2.trans hbc.2⟩

theorem length_le {a b : Input} (h : a.LeftOf b) :
    a.rest.length ≤ b.rest.length :=
  h.1.length_le

end Input.LeftOf

/-- **A read leaves a part of its input**, also when it fails. -/
def Read.Consumes {α : Type} (m : Read α) : Prop :=
  ∀ input,
    match m input with
    | .ok _ left | .error _ left => left.LeftOf input

namespace Read.Consumes

variable {α β : Type}

theorem pure (a : α) : Read.Consumes (Pure.pure a) :=
  fun input => Input.LeftOf.refl input

theorem throw (e : DecodeError) : Read.Consumes (throw e : Read α) :=
  fun input => Input.LeftOf.refl input

theorem bind {m : Read α} {f : α → Read β} (hm : Read.Consumes m)
    (hf : ∀ a, Read.Consumes (f a)) : Read.Consumes (m >>= f) := by
  intro input
  have h := hm input
  simp only [Bind.bind, EStateM.bind]
  cases hr : m input with
  | error e left => rw [hr] at h; exact h
  | ok a left =>
    rw [hr] at h
    have h' := hf a left
    show (match f a left with
      | .ok _ left' | .error _ left' => left'.LeftOf input)
    cases hr' : f a left with
    | error e left' => rw [hr'] at h'; exact h'.trans h
    | ok b left' => rw [hr'] at h'; exact h'.trans h

theorem take (n : Nat) : Read.Consumes (Wire.take n) := by
  intro input
  by_cases h : (input.rest.take n).length = n
  · simp only [Wire.take, if_pos h]
    exact ⟨List.drop_suffix _ _, rfl⟩
  · simp only [Wire.take, if_neg h]
    exact ⟨List.nil_suffix, rfl⟩

theorem byte : Read.Consumes Wire.byte := by
  intro input
  cases hrest : input.rest with
  | nil => simp only [Wire.byte, hrest]; exact Input.LeftOf.refl input
  | cons b rest =>
    simp only [Wire.byte, hrest]
    exact ⟨by rw [hrest]; exact List.suffix_cons b rest, rfl⟩

theorem ite {c : Prop} [Decidable c] {m n : Read α} (hm : Read.Consumes m)
    (hn : Read.Consumes n) : Read.Consumes (if c then m else n) := by
  split
  · exact hm
  · exact hn

theorem wireClosed : Read.WireClosed Read.Consumes :=
  ⟨pure, throw, bind, byte, take⟩

theorem readLong : Read.Consumes Wire.readLong :=
  wireClosed.readLong

/-- Reading a kind leaves a part of the input. -/
theorem frameRead (frame : Frame) (kind : Kind) :
    Read.Consumes (frame.read kind) :=
  wireClosed.frameRead frame kind

end Read.Consumes

namespace Wire

/-- A byte that is read is gone. -/
theorem byte_length_lt {input left : Input} {b : UInt8}
    (h : byte input = .ok b left) : left.rest.length < input.rest.length := by
  cases hrest : input.rest with
  | nil =>
    simp only [byte, hrest] at h
    exact absurd h (by simp)
  | cons c rest =>
    simp only [byte, hrest] at h
    injection h with _ hleft
    rw [← hleft]
    exact Nat.lt_succ_self _

/-- What begins with a byte takes at least that. -/
theorem byte_bind_length_lt {α : Type} {f : UInt8 → Read α}
    (hf : ∀ b, Read.Consumes (f b)) {input left : Input} {a : α}
    (h : (byte >>= f) input = .ok a left) :
    left.rest.length < input.rest.length := by
  simp only [bind, EStateM.bind] at h
  cases hb : byte input with
  | error e left' => rw [hb] at h; exact absurd h (by simp)
  | ok b left' =>
    rw [hb] at h
    have hle := hf b left'
    rw [show f b left' = .ok a left from h] at hle
    exact Nat.lt_of_le_of_lt hle.length_le (byte_length_lt hb)

/-- **An integer takes at least a byte.** -/
theorem readLong_length_lt {input left : Input} {n : Int64}
    (h : readLong input = .ok n left) :
    left.rest.length < input.rest.length := by
  have hv := Read.Consumes.wireClosed.varintFrom 64
  simp only [readLong, bind, EStateM.bind] at h
  cases hr : varintFrom 64 10 0 0 input with
  | error e left' => rw [hr] at h; exact absurd h (by simp)
  | ok v left' =>
    rw [hr] at h
    injection h with _ hleft
    rw [← hleft]
    rw [varintFrom_succ] at hr
    refine byte_bind_length_lt (fun b => ?_) hr
    exact .ite (.throw _) (.ite (hv _ _ _) (.ite (.throw _) (.pure _)))

end Wire

end Avro
