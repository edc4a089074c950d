import Avro.Proofs.Decoding.Programs
import Avro.Proofs.Decoding.Soundness

/-!
# Compiled programs are type safe

A compiled program that runs on arbitrary bytes makes only calls that the
builder of the reader's root accepts, and where it succeeds nothing is missing:
the builder has a value, and the value is of the reader's root
(`Compiled.run_typeSafe`).

Both are read off the decoding that the program delivers. A call that is
refused would be a failure that decoding does not have, and a value of the
wrong type would be one that decoding does not give.
-/

namespace Avro

variable {writer reader : Schema} {p : Program}

/-- **A compiled program is type safe**, on every input and under every limit:
it ends, no call is refused, and the value that a successful run delivers is
complete and of the reader's root type. -/
theorem Compiled.run_typeSafe (h : Compiled writer reader p) (maxDepth : Nat)
    (input : Input) :
    ∃ o, p.Yields (Builder.sink reader) maxDepth input
        (Builder.fresh reader reader.root) o
      ∧ (∀ e, o.result = .error e → ∀ refusal, e.cause ≠ .sink refusal)
      ∧ (o.result = .ok () → ∃ v, o.state.value? reader = .ok v
        ∧ v.Conforms reader reader.root) := by
  have hdelivers := h.delivers maxDepth input
  have hsound := @decode_sound maxDepth writer reader
    h.reader_wellFormed.ordered maxDepth writer.root reader.root maxDepth input
  cases hr : decode maxDepth writer reader maxDepth writer.root reader.root
      maxDepth input with
  | ok v left =>
    rw [hr] at hdelivers hsound
    obtain ⟨s, hyields, hv⟩ := hdelivers
    exact ⟨_, hyields, nofun, fun _ => ⟨v, hv, hsound.conforms⟩⟩
  | error cause left =>
    rw [hr] at hdelivers hsound
    obtain ⟨e, s, rfl, hyields⟩ := hdelivers
    refine ⟨_, hyields, ?_, nofun⟩
    intro e' he' refusal hrefusal
    obtain rfl := Except.error.inj he'
    rw [hrefusal] at hsound
    exact hsound

/-- A text that ends too early, read as a person. -/
theorem run_typeSafe_person : ∃ p, Compiled Person.writer Person.reader p
    ∧ ∃ o, p.Yields (Builder.sink Person.reader) 8 (Input.ofBytes [84, 6, 65])
        (Builder.fresh Person.reader Person.reader.root) o
      ∧ (∀ e, o.result = .error e → ∀ refusal, e.cause ≠ .sink refusal)
      ∧ (o.result = .ok () → ∃ v, o.state.value? Person.reader = .ok v
        ∧ v.Conforms Person.reader Person.reader.root) := by
  obtain ⟨p, hp⟩ := Person.exists_compiled
  exact ⟨p, hp, Compiled.run_typeSafe hp 8 (Input.ofBytes [84, 6, 65])⟩

end Avro
