import Avro.Proofs.Wire.Locality

/-!
# Reads of an input that is cut off

A read that needs bytes which are not there any more fails, and it fails
because the input ends: for no other reason, and with nothing left
(`Read.Starves`). The bytes that are there are those of an input on which the
read succeeds, so none of them can be to blame.

This is the other half of locality. There a read stays within the bytes that
are there, and does what it does in front of anything else; here it goes past
them. Every read of the wire format does one or the other, and for one read
after another the place where the first one stops decides which.
-/

namespace Avro

/-! ## Prefixes -/

/-- Bytes in front of others are cut inside or behind them. -/
theorem proper_or_append {α : Type} {cut used rest : List α}
    (h : cut <+: used ++ rest) :
    (cut <+: used ∧ cut ≠ used) ∨ ∃ more, cut = used ++ more ∧ more <+: rest := by
  rcases List.prefix_or_prefix_of_prefix h (List.prefix_append used rest) with
    hshort | ⟨more, rfl⟩
  · by_cases heq : cut = used
    · exact .inr ⟨[], by rw [heq, List.append_nil], List.nil_prefix⟩
    · exact .inl ⟨hshort, heq⟩
  · exact .inr ⟨more, rfl, (List.prefix_append_right_inj used).mp h⟩

/-- A proper prefix is shorter. -/
theorem length_lt_of_proper {α : Type} {cut used : List α}
    (hcut : cut <+: used) (hproper : cut ≠ used) :
    cut.length < used.length :=
  Nat.lt_of_le_of_ne hcut.length_le fun heq => hproper (hcut.eq_of_length heq)

/-! ## Inputs that end -/

namespace Input

/-- **The input that has come to its end.** -/
def ended (ending : Ending) : Input := ⟨[], ending⟩

/-- An input that is cut off, as bytes in front of its end. -/
theorem prepend_ended (ending : Ending) (bytes : List UInt8) :
    (ended ending).prepend bytes = ⟨bytes, ending⟩ :=
  congrArg (Input.mk · ending) (List.append_nil bytes)

/-- **What is left is behind a place or in front of it.** -/
theorem LeftOf.behind_or {left input : Input} {bytes : List UInt8}
    (h : left.LeftOf (input.prepend bytes)) :
    left.rest.length < input.rest.length
      ∨ ∃ kept, left = input.prepend kept := by
  obtain ⟨⟨passed, hpassed⟩, hending⟩ := h
  by_cases hlt : left.rest.length < input.rest.length
  · exact .inl hlt
  · have hsuffix : input.rest <:+ left.rest := by
      refine List.suffix_of_suffix_length_le ?_ ⟨passed, hpassed⟩
        (Nat.le_of_not_lt hlt)
      exact List.suffix_append bytes input.rest
    obtain ⟨kept, hkept⟩ := hsuffix
    obtain ⟨rest, ending⟩ := left
    obtain rfl : ending = input.ending := hending
    exact .inr ⟨kept, congrArg (Input.mk · input.ending) hkept.symm⟩

/-- What is in front of a place is not behind it. -/
theorem not_behind (input : Input) (kept : List UInt8) :
    ¬ (input.prepend kept).rest.length < input.rest.length := by
  rw [prepend, List.length_append]
  omega

end Input

/-- **A read starves** if it has to go past the bytes that are there: it fails
because the input ends, and leaves nothing. -/
def Read.Starves {α : Type} (m : Read α) : Prop :=
  ∀ {bytes : List UInt8} {input left : Input} {a : α},
    m (input.prepend bytes) = .ok a left →
    left.rest.length < input.rest.length → ∀ ending : Ending,
    m ((Input.ended ending).prepend bytes)
      = .error ending.error (Input.ended ending)

namespace Read.Starves

variable {α β : Type}

theorem pure (a : α) : Read.Starves (Pure.pure a : Read α) := by
  intro bytes input left a' h hlt
  rw [← (EStateM.Result.ok.inj h).2] at hlt
  exact absurd hlt (input.not_behind bytes)

theorem throw (e : DecodeError) : Read.Starves (throw e : Read α) :=
  fun h => nomatch h

/-- **One read after another starves**, the first one or, if it stays within
the bytes, the second one. -/
theorem bind {m : Read α} {f : α → Read β} (hm : Read.Starves m)
    (hlocal : Read.Local m) (hf : ∀ a, Read.Starves (f a)) :
    Read.Starves (m >>= f) := by
  intro bytes input left b h hlt ending
  have hleft := hlocal.consumes (input.prepend bytes)
  simp only [Bind.bind, EStateM.bind] at h ⊢
  cases hr : m (input.prepend bytes) with
  | error e between => rw [hr] at h; exact absurd h (by simp)
  | ok a between =>
    rw [hr] at h hleft
    rcases hleft.behind_or with hbehind | ⟨kept, rfl⟩
    · rw [hm hr hbehind ending]
    · rw [hlocal.ok hr (Input.ended ending)]
      exact hf a h hlt ending

/-- A part of the bytes of a value is not enough to read it. -/
theorem of_reads {m : Read α} (hm : Read.Starves m) {bytes cut : List UInt8}
    {a : α} (h : Reads m bytes a) (hcut : cut <+: bytes) (hproper : cut ≠ bytes)
    (ending : Ending) :
    m ⟨cut, ending⟩ = .error ending.error (Input.ended ending) := by
  obtain ⟨more, rfl⟩ := hcut
  have hmore : more ≠ [] := fun hnil =>
    hproper (by rw [hnil, List.append_nil])
  have hread := h (Input.ended .endOfInput)
  rw [Input.prepend_append] at hread
  rw [← Input.prepend_ended ending cut]
  refine hm hread ?_ ending
  rw [Input.prepend, List.length_append]
  have := List.length_pos_iff.mpr hmore
  omega

theorem take (n : Nat) : Read.Starves (Wire.take n) := by
  intro bytes input left taken h hlt ending
  obtain ⟨-, -, rfl⟩ := Wire.take_eq_ok h
  simp only [Input.prepend, List.length_drop, List.length_append] at hlt
  have hshort : ((Input.ended ending).prepend bytes).rest.length < n := by
    rw [Input.prepend_ended]
    show bytes.length < n
    omega
  rw [Wire.take_of_lt hshort]
  rfl

theorem byte : Read.Starves Wire.byte := by
  intro bytes input left b h hlt ending
  cases bytes with
  | nil => rfl
  | cons first rest =>
    rw [Wire.byte_prepend] at h
    rw [← (EStateM.Result.ok.inj h).2] at hlt
    exact absurd hlt (input.not_behind rest)

/-- Whether a read starves depends on where the reads in front of it stop, so
this goes together with locality. -/
theorem wireClosed :
    Read.WireClosed fun m => Read.Starves m ∧ Read.Local m where
  pure a := ⟨pure a, .pure a⟩
  throw e := ⟨throw e, .throw e⟩
  bind hm hf := ⟨bind hm.1 hm.2 fun a => (hf a).1, .bind hm.2 fun a => (hf a).2⟩
  byte := ⟨byte, .byte⟩
  take n := ⟨take n, .take n⟩

theorem readLong : Read.Starves Wire.readLong :=
  wireClosed.readLong.1

/-- **Reading a kind starves** on an input that is cut off. -/
theorem frameRead (frame : Frame) (kind : Kind) :
    Read.Starves (frame.read kind) :=
  (wireClosed.frameRead frame kind).1

end Read.Starves

end Avro
