import Avro.Proofs.Wire.RoundTrip

/-!
# Reads are local

A read that leaves all that comes after some bytes has seen those bytes only:
with anything else after them it gives the same and leaves the other thing
instead (`Read.Local`). The same holds of a read that fails, unless it fails
because the input ends, which is the one thing that more bytes can change.

As with consumption, this is shown of what the readers are written with. One
read after another is the case where consumption is used:
what the first one leaves is still in front of what the second one leaves, so
the first one has not gone past the bytes either.
-/

namespace Avro

namespace Input

/-- What is in front of an input is determined. -/
theorem prepend_inj {input : Input} {a b : List UInt8} :
    input.prepend a = input.prepend b ↔ a = b := by
  constructor
  · intro h
    exact List.append_cancel_right (congrArg Input.rest h)
  · rintro rfl
    rfl

/-- Between an input with bytes in front and the input with others in front
there are only inputs of that kind. -/
theorem LeftOf.exists_prepend {input left : Input} {bytes kept : List UInt8}
    (hleft : left.LeftOf (input.prepend bytes))
    (hkept : (input.prepend kept).LeftOf left) :
    ∃ between, left = input.prepend between := by
  obtain ⟨passed, hpassed⟩ := hkept.1
  refine ⟨passed ++ kept, ?_⟩
  obtain ⟨rest, ending⟩ := left
  have hrest : passed ++ (kept ++ input.rest) = rest := hpassed
  have hending : ending = input.ending := hleft.2
  rw [← hrest, hending, prepend, List.append_assoc]

end Input

namespace Wire

/-- Bytes that are there are taken. -/
theorem take_of_le {n : Nat} {input : Input} (h : n ≤ input.rest.length) :
    take n input
      = .ok (input.rest.take n) { input with rest := input.rest.drop n } := by
  rw [take]
  exact if_pos (by rw [List.length_take, Nat.min_eq_left h])

/-- Bytes that are not there are not taken. -/
theorem take_of_lt {n : Nat} {input : Input} (h : input.rest.length < n) :
    take n input = .error input.ending.error { input with rest := [] } := by
  rw [take]
  refine if_neg fun hlength => ?_
  rw [List.length_take] at hlength
  omega

/-- Taking bytes succeeds if they are there. -/
theorem take_eq_ok {n : Nat} {input left : Input} {taken : List UInt8}
    (h : take n input = .ok taken left) :
    n ≤ input.rest.length ∧ taken = input.rest.take n
      ∧ left = { input with rest := input.rest.drop n } := by
  by_cases hle : n ≤ input.rest.length
  · rw [take_of_le hle] at h
    obtain ⟨htaken, hleft⟩ := EStateM.Result.ok.inj h
    exact ⟨hle, htaken.symm, hleft.symm⟩
  · rw [take_of_lt (Nat.not_le.mp hle)] at h
    exact absurd h (by simp)

end Wire

/-- **A read is local**: what it does when it stays within the bytes in front
of an input does not depend on the input behind them. -/
structure Read.Local {α : Type} (m : Read α) : Prop where
  /-- It leaves a part of its input. -/
  consumes : m.Consumes
  /-- A read that succeeds. -/
  ok : ∀ {bytes kept : List UInt8} {i : Input} {a : α},
    m (i.prepend bytes) = .ok a (i.prepend kept) →
    ∀ j : Input, m (j.prepend bytes) = .ok a (j.prepend kept)
  /-- A read that fails, but not at the end of the input. -/
  error : ∀ {bytes kept : List UInt8} {i : Input} {e : DecodeError},
    e ≠ i.ending.error →
    m (i.prepend bytes) = .error e (i.prepend kept) →
    ∀ j : Input, m (j.prepend bytes) = .error e (j.prepend kept)

namespace Read.Local

variable {α β : Type}

theorem pure (a : α) : Read.Local (Pure.pure a : Read α) where
  consumes := .pure a
  ok h j := by
    obtain ⟨rfl, hinput⟩ := EStateM.Result.ok.inj h
    rw [← Input.prepend_inj.mp hinput]
    rfl
  error _ h _ := nomatch h

theorem throw (e : DecodeError) : Read.Local (throw e : Read α) where
  consumes := .throw e
  ok h _ := nomatch h
  error _ h j := by
    obtain ⟨rfl, hinput⟩ := EStateM.Result.error.inj h
    rw [← Input.prepend_inj.mp hinput]
    rfl

theorem bind {m : Read α} {f : α → Read β} (hm : Read.Local m)
    (hf : ∀ a, Read.Local (f a)) : Read.Local (m >>= f) where
  consumes := .bind hm.consumes fun a => (hf a).consumes
  ok {bytes kept i b} h j := by
    have hleft := hm.consumes (i.prepend bytes)
    simp only [Bind.bind, EStateM.bind] at h ⊢
    cases hr : m (i.prepend bytes) with
    | error e left => rw [hr] at h; exact absurd h (by simp)
    | ok a left =>
      rw [hr] at h hleft
      have hkept := (hf a).consumes left
      rw [show f a left = .ok b (i.prepend kept) from h] at hkept
      obtain ⟨between, rfl⟩ := hleft.exists_prepend hkept
      rw [hm.ok hr j]
      exact (hf a).ok h j
  error {bytes kept i e} he h j := by
    have hleft := hm.consumes (i.prepend bytes)
    simp only [Bind.bind, EStateM.bind] at h ⊢
    cases hr : m (i.prepend bytes) with
    | error e' left =>
      rw [hr] at h
      obtain ⟨rfl, rfl⟩ := EStateM.Result.error.inj h
      rw [hm.error he hr j]
    | ok a left =>
      rw [hr] at h hleft
      have hkept := (hf a).consumes left
      rw [show f a left = .error e (i.prepend kept) from h] at hkept
      obtain ⟨between, rfl⟩ := hleft.exists_prepend hkept
      rw [hm.ok hr j]
      exact (hf a).error he h j

theorem take (n : Nat) : Read.Local (Wire.take n) where
  consumes := .take n
  ok {bytes kept i taken} h j := by
    obtain ⟨hle, htaken, hleft⟩ := Wire.take_eq_ok h
    have hdrop : (bytes ++ i.rest).drop n = kept ++ i.rest :=
      (congrArg Input.rest hleft).symm
    have hlengths := congrArg List.length hdrop
    rw [List.length_drop, List.length_append, List.length_append] at hlengths
    have hle : n ≤ bytes.length + i.rest.length := by
      rw [← List.length_append]
      exact hle
    have hn : n ≤ bytes.length := by omega
    rw [List.drop_append_of_le_length hn] at hdrop
    have htaken : taken = bytes.take n := by
      rw [htaken, Input.prepend, List.take_append_of_le_length hn]
    have hj : n ≤ (j.prepend bytes).rest.length := by
      rw [Input.prepend, List.length_append]
      omega
    rw [Wire.take_of_le hj, htaken, Input.prepend, Input.prepend,
      List.take_append_of_le_length hn, List.drop_append_of_le_length hn,
      List.append_cancel_right hdrop]
  error {bytes kept i e} he h j := by
    by_cases hle : n ≤ (i.prepend bytes).rest.length
    · rw [Wire.take_of_le hle] at h
      exact absurd h (by simp)
    · rw [Wire.take_of_lt (Nat.not_le.mp hle)] at h
      exact absurd (EStateM.Result.error.inj h).1.symm he

theorem byte : Read.Local Wire.byte where
  consumes := .byte
  ok {bytes kept i b} h j := by
    cases bytes with
    | nil =>
      have hlt := Wire.byte_length_lt h
      simp only [Input.prepend, List.length_append, List.length_nil] at hlt
      omega
    | cons first rest =>
      rw [Wire.byte_prepend] at h ⊢
      obtain ⟨rfl, hinput⟩ := EStateM.Result.ok.inj h
      rw [Input.prepend_inj.mp hinput]
  error {bytes kept i e} he h j := by
    cases bytes with
    | nil =>
      obtain ⟨rest, ending⟩ := i
      cases rest with
      | nil => exact absurd (EStateM.Result.error.inj h).1.symm he
      | cons first rest => exact absurd h (by simp [Wire.byte, Input.prepend])
    | cons first rest => exact absurd h (by simp [Wire.byte_prepend])

theorem wireClosed : Read.WireClosed Read.Local :=
  ⟨pure, throw, bind, byte, take⟩

theorem readLong : Read.Local Wire.readLong :=
  wireClosed.readLong

/-- Reading a kind is local. -/
theorem frameRead (frame : Frame) (kind : Kind) :
    Read.Local (frame.read kind) :=
  wireClosed.frameRead frame kind

end Read.Local

end Avro
