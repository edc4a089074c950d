import Avro.Proofs.Decoding.Programs
import Avro.Proofs.Resolution.Written
import Mathlib.Data.Nat.Find

/-!
# Programs resolve

A compiled program that runs over the bytes of a value delivers what the value
resolves to, and leaves what comes after these bytes
(`Compiled.run_resolves`). A value that does not resolve makes it fail, for the
same cause.

Levels are limited, and there is a number of them that a run needs. A run that
is allowed fewer fails because of the limit; one that is allowed as many or
more never notices it.
-/

namespace Avro

/-! ## Limits that are great enough -/

namespace Program

variable {σ : Type} {p : Program} {k : Sink σ} {maxDepth : Nat}

variable (p k maxDepth) in
/-- The limit stops a run. -/
def StoppedByLimit (input : Input) (state : σ) : Prop :=
  ∃ o, p.Yields k maxDepth input state o ∧ o.HitsLimit maxDepth

/-- **There is a limit that a run needs**, if outcomes of one sort are yielded
under all limits from some limit on: below it the limit is hit, and from it
on the outcome is of the sort. -/
theorem exists_needed {P : Outcome σ Unit → Prop} {input : Input} {state : σ}
    (hends : ∀ maxDepth, ∃ o, p.Yields k maxDepth input state o)
    (hP : ∀ o maxDepth, P o → ¬ o.HitsLimit maxDepth)
    (henough : ∃ enough, ∀ maxDepth, enough ≤ maxDepth →
      ∃ o, p.Yields k maxDepth input state o ∧ P o) :
    ∃ needed, ∀ maxDepth, ∃ o, p.Yields k maxDepth input state o
      ∧ if maxDepth < needed then o.HitsLimit maxDepth else P o := by
  obtain ⟨enough, henough⟩ := henough
  have hfree : ∃ maxDepth, ¬ p.StoppedByLimit k maxDepth input state := by
    refine ⟨enough, ?_⟩
    rintro ⟨o, hyields, hhits⟩
    obtain ⟨o', hyields', hP'⟩ := henough enough (Nat.le_refl _)
    rw [hyields.unique hyields'] at hP'
    exact hP o enough hP' hhits
  classical
  refine ⟨Nat.find hfree, fun maxDepth => ?_⟩
  by_cases hlt : maxDepth < Nat.find hfree
  · obtain ⟨o, hyields, hhits⟩ := not_not.mp (Nat.find_min hfree hlt)
    refine ⟨o, hyields, ?_⟩
    rw [if_pos hlt]
    exact hhits
  · -- the outcome under the limit that is needed is that under all above it
    have hle : Nat.find hfree ≤ maxDepth := Nat.not_lt.mp hlt
    obtain ⟨o, hyields⟩ := hends (Nat.find hfree)
    have hraise : ∀ great, Nat.find hfree ≤ great →
        p.Yields k great input state o := fun great hgreat => by
      rcases hyields.raise_limit hgreat with hhits | h
      · exact absurd ⟨o, hyields, hhits⟩ (Nat.find_spec hfree)
      · exact h
    obtain ⟨o', hyields', hP'⟩ := henough (max maxDepth enough)
      (Nat.le_max_right _ _)
    have hsame := (hraise (max maxDepth enough)
      (Nat.le_trans hle (Nat.le_max_left _ _))).unique hyields'
    refine ⟨o, hraise maxDepth hle, ?_⟩
    rw [if_neg hlt, ← hsame]
    exact hP'

end Program

/-! ## Programs -/

/-- **An outcome agrees with resolving**: the value is delivered and the rest
of the input left, or the run has failed for the cause of the error. -/
def Outcome.Resolves (reader : Schema) (rest : Input)
    (result : Resolved Value) (o : Outcome Builder Unit) : Prop :=
  match result with
  | .ok v => o.result = .ok () ∧ o.state.value? reader = .ok v
    ∧ o.input = rest
  | .error e => ∃ failure, o.result = .error failure
    ∧ failure.cause = e.cause

/-- An outcome that agrees with resolving is not due to a limit. -/
theorem Outcome.Resolves.not_hitsLimit {reader : Schema} {rest : Input}
    {result : Resolved Value} {o : Outcome Builder Unit}
    (h : o.Resolves reader rest result) (maxDepth : Nat) :
    ¬ o.HitsLimit maxDepth := by
  rintro ⟨failure, hfailure, hcause⟩
  cases result with
  | ok v => exact absurd (h.1.symm.trans hfailure) nofun
  | error e =>
    obtain ⟨failure', hfailure', hcause'⟩ := h
    obtain rfl := Except.error.inj (hfailure.symm.trans hfailure')
    rw [hcause'] at hcause
    cases e <;> exact absurd hcause nofun

section

variable {writer reader : Schema} {D : Demand → Prop} {p : Program}

/-- **Programs resolve** what was written before the rest of the input. -/
theorem compile_resolves (hD : Encloses writer reader D)
    (hnames : NamesTellApart D) (h : compile writer reader = .ok p)
    (hfits : p.Fits) (hwriter : writer.Fits) (hreader : reader.Fits)
    (hs : writer.WellFormed) {v : Value} (hv : v.Conforms writer writer.root)
    (hvalue : v.Fits) (rest : Input) :
    ∃ needed, ∀ maxDepth, ∃ o, p.Yields (Builder.sink reader) maxDepth
        (rest.prepend (writer.encode v).bytes)
        (Builder.fresh reader reader.root) o
      ∧ if maxDepth < needed then o.HitsLimit maxDepth
        else o.Resolves reader rest
          (resolve writer reader v writer.root reader.root) := by
  have hdelivers := fun maxDepth => compile_delivers hD hnames h hfits hwriter
    hreader maxDepth (rest.prepend (writer.encode v).bytes)
  refine Program.exists_needed (fun maxDepth => ?_)
    (fun _ maxDepth hresolves => hresolves.not_hitsLimit maxDepth) ?_
  · have hdelivers := hdelivers maxDepth
    cases hr : decode maxDepth writer reader maxDepth writer.root reader.root
        maxDepth (rest.prepend (writer.encode v).bytes) with
    | ok v' left =>
      rw [hr] at hdelivers
      obtain ⟨s, hyields, _⟩ := hdelivers
      exact ⟨_, hyields⟩
    | error cause left =>
      rw [hr] at hdelivers
      obtain ⟨e, s, _, hyields⟩ := hdelivers
      exact ⟨_, hyields⟩
  · obtain ⟨enough, henough⟩ := hv.takes_decode hs hwriter hvalue hwriter.root
      reader.root
    refine ⟨enough, fun maxDepth hle => ?_⟩
    have htakes := henough maxDepth maxDepth maxDepth hle hle rest
    have hdelivers := hdelivers maxDepth
    cases hr : resolve writer reader v writer.root reader.root with
    | ok v' =>
      rw [hr] at htakes
      have hdecode : decode maxDepth writer reader maxDepth writer.root
          reader.root maxDepth (rest.prepend (writer.encode v).bytes)
          = .ok v' rest := htakes
      rw [hdecode] at hdelivers
      obtain ⟨s, hyields, hvalue'⟩ := hdelivers
      exact ⟨_, hyields, rfl, hvalue', rfl⟩
    | error e =>
      rw [hr] at htakes
      obtain ⟨left, htakes⟩ := htakes
      have hdecode : decode maxDepth writer reader maxDepth writer.root
          reader.root maxDepth (rest.prepend (writer.encode v).bytes)
          = .error e.cause left := htakes
      rw [hdecode] at hdelivers
      obtain ⟨failure, s, hcause, hyields⟩ := hdelivers
      exact ⟨_, hyields, failure, rfl, hcause⟩

/-- **A compiled program refines resolution**: a value of the writer's root
type is encoded without a fault, and a run over its bytes delivers what it
resolves to and leaves the rest, or fails if it does not resolve. Only a limit
on levels that is too low changes that. -/
theorem Compiled.run_resolves (h : Compiled writer reader p) {v : Value}
    (hv : v.Conforms writer writer.root) (hfits : v.Fits) (rest : Input) :
    (writer.encode v).fault = none
      ∧ ∃ needed, ∀ maxDepth, ∃ o, p.Yields (Builder.sink reader) maxDepth
          (rest.prepend (writer.encode v).bytes)
          (Builder.fresh reader reader.root) o
        ∧ if maxDepth < needed then o.HitsLimit maxDepth
          else o.Resolves reader rest
            (resolve writer reader v writer.root reader.root) := by
  refine ⟨congrArg Draft.fault (hv.encodes h.writer_wellFormed), ?_⟩
  exact compile_resolves (encloses_ofRecords writer reader)
    (h.plain.namesTellApart h.writer_wellFormed h.reader_wellFormed)
    h.compiled h.fits h.writer_fits h.reader_fits h.writer_wellFormed hv hfits
    rest

end

/-! ## A person -/

namespace Person

/-- A value of the writer's type. -/
def ada : Value := .record [("age", .int 36), ("name", .string "Ada")]

/-- The value of the reader's type to which it resolves. -/
def received : Value :=
  .record [("age", .union 1 (.long 36)), ("member", .boolean true)]

theorem ada_conforms : ada.Conforms writer writer.root := by
  refine .record (r := ⟨⟨"Person", ""⟩, [],
    [⟨"age", .primitive .int, [], none, none⟩,
      ⟨"name", .primitive .string, [], none, none⟩], none⟩) (by rfl) rfl ?_
  intro x hx
  rcases List.mem_cons.mp hx with rfl | hx
  · exact .int 36
  · obtain rfl := List.mem_singleton.mp hx
    exact .string "Ada"

theorem ada_fits : ada.Fits := by
  refine .record fun x hx => ?_
  rcases List.mem_cons.mp hx with rfl | hx
  · exact .int 36
  · obtain rfl := List.mem_singleton.mp hx
    exact .string (by cbv)

theorem resolve_ada :
    resolve writer reader ada writer.root reader.root = .ok received := by
  cbv

end Person

/-- The program of the two schemas, run over a person and three bytes. -/
theorem run_resolves_person : ∃ p, Compiled Person.writer Person.reader p
    ∧ (Person.writer.encode Person.ada).fault = none
    ∧ ∃ needed, ∀ maxDepth, ∃ o, p.Yields (Builder.sink Person.reader) maxDepth
        ((Input.ofBytes [1, 2, 3]).prepend
          (Person.writer.encode Person.ada).bytes)
        (Builder.fresh Person.reader Person.reader.root) o
      ∧ if maxDepth < needed then o.HitsLimit maxDepth
        else o.Resolves Person.reader (Input.ofBytes [1, 2, 3])
          (.ok Person.received) := by
  obtain ⟨p, hp⟩ := Person.exists_compiled
  have h := Compiled.run_resolves hp Person.ada_conforms Person.ada_fits
    (Input.ofBytes [1, 2, 3])
  rw [Person.resolve_ada] at h
  exact ⟨p, hp, h⟩

end Avro
