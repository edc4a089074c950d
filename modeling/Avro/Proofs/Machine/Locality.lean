import Avro.Proofs.Decoding.Programs
import Avro.Proofs.Plan.Locality

/-!
# Runs are local

What a run does with bytes in front of an input, staying within them, does not
depend on what comes after them (`Program.Yields.local`): neither what it
delivers nor how it ends, down to the address of an instruction that fails.

This is said of every program and every sink, compiled or not. A plan that is
evaluated knows why it fails, but not where, so locality of plans does not
give it.
-/

namespace Avro

/-! ## Instructions -/

/-- Whether an instruction fails because its input ends. -/
def Next.AtEnd {σ : Type} (input : Input) : Next σ → Prop
  | .fail cause _ _ => cause = .decode input.ending.error
  | _ => False

/-- **An instruction is local**: if it leaves a part of the bytes in front of
an input, and does not fail because the input ends, it does the same in front
of every other input. -/
theorem step_local {σ : Type} {errors : List String} {k : Sink σ}
    {i : Instruction} {pc : Nat} {frame : Frame} {bytes kept : List UInt8}
    {input : Input} {s : σ} {next : Next σ}
    (hstep : step errors k i pc frame (input.prepend bytes) s = next)
    (hleft : next.left = input.prepend kept) (hend : ¬ next.AtEnd input)
    (other : Input) :
    step errors k i pc frame (other.prepend bytes) s
      = next.withInput (other.prepend kept) := by
  subst hstep
  by_cases hread : i.op = .read
  · obtain ⟨op, operand, label⟩ := i
    obtain rfl : op = .read := hread
    dsimp only [step] at hleft hend ⊢
    cases hkind : Kind.ofOperand? operand with
    | none =>
      rw [hkind] at hleft
      rw [Input.prepend_inj.mp hleft]
      rfl
    | some kind =>
      simp only [hkind] at hleft hend
      have hlocal := Read.Local.frameRead frame kind
      cases hr : frame.read kind (input.prepend bytes) with
      | ok frame' left =>
        rw [hr] at hleft
        obtain rfl : left = input.prepend kept := hleft
        simp only [hr, hlocal.ok hr other]
        rfl
      | error e left =>
        rw [hr] at hleft hend
        obtain rfl : left = input.prepend kept := hleft
        have he : e ≠ input.ending.error := fun he => hend (by rw [he]; rfl)
        simp only [hr, hlocal.error he hr other]
        rfl
  · -- What does not read leaves its input, so the bytes are all kept.
    rw [step_left_of_ne_read errors hread] at hleft
    rw [← Input.prepend_inj.mp hleft]
    exact step_of_ne_read errors hread pc frame _ _ s

namespace Outcome

variable {σ α : Type}

/-- An outcome, with another input left. -/
def withInput (input : Input) (o : Outcome σ α) : Outcome σ α :=
  ⟨o.result, input, o.state⟩

/-- Whether an outcome is a failure because the input ends. -/
def AtEnd (input : Input) (o : Outcome σ α) : Prop :=
  ∃ e, o.result = .error e ∧ e.cause = .decode input.ending.error

/-- What succeeds is no failure at the end of the input. -/
theorem not_atEnd_ok {input left : Input} {a : α} {t : σ} :
    ¬ AtEnd input (⟨.ok a, left, t⟩ : Outcome σ α) := by
  rintro ⟨e, he, -⟩
  exact absurd he nofun

end Outcome

namespace Program

variable {σ : Type} {p : Program} {k : Sink σ} {maxDepth : Nat}

/-! ## Levels -/

/-- **A level leaves a part of its input.** -/
theorem Runs.left {steps depth pc : Nat} {frame : Frame} {input : Input} {s : σ}
    {o : Outcome σ Nat} (h : p.Runs k maxDepth steps depth pc frame input s o) :
    o.input.LeftOf input := by
  induction h with
  | outside => exact .refl _
  | close _ closes => exact step_left closes
  | fail _ fails => exact step_left fails
  | tooDeep _ descends _ => exact step_left descends
  | goOn _ goesOn _ ih => exact ih.trans (step_left goesOn)
  | failBelow _ descends _ _ ih => exact ih.trans (step_left descends)
  | past _ descends _ _ _ ihinner ih =>
    exact ih.trans (ihinner.trans (step_left descends))

/-- **A level is local**: if it leaves a part of the bytes in front of an
input, and does not fail because the input ends, it has the same outcome in
front of every other input. -/
theorem Runs.local {steps depth pc : Nat} {frame : Frame} {whole input : Input}
    {bytes kept : List UInt8} {s : σ} {o : Outcome σ Nat}
    (h : p.Runs k maxDepth steps depth pc frame whole s o)
    (hwhole : whole = input.prepend bytes) (hkept : o.input = input.prepend kept)
    (hend : ¬ o.AtEnd input) (other : Input) :
    p.Runs k maxDepth steps depth pc frame (other.prepend bytes) s
      (o.withInput (other.prepend kept)) := by
  induction h generalizing bytes kept with
  | outside missing =>
    rw [← Input.prepend_inj.mp (hwhole.symm.trans hkept)]
    exact .outside missing
  | close found closes =>
    subst hwhole
    exact .close found (step_local closes hkept id other)
  | fail found fails =>
    subst hwhole
    have hcause := fun hcause => hend ⟨_, rfl, hcause⟩
    exact .fail found (step_local fails hkept hcause other)
  | tooDeep found descends forbidden =>
    subst hwhole
    exact .tooDeep found (step_local descends hkept id other) forbidden
  | goOn found goesOn rest ih =>
    subst hwhole
    have hrest := rest.left
    rw [hkept] at hrest
    obtain ⟨between, rfl⟩ := (step_left goesOn).exists_prepend hrest
    exact .goOn found (step_local goesOn rfl id other) (ih rfl hkept hend)
  | failBelow found descends allowed inner ih =>
    subst hwhole
    have hinner := inner.left
    rw [show _ = input.prepend kept from hkept] at hinner
    obtain ⟨before, rfl⟩ := (step_left descends).exists_prepend hinner
    exact .failBelow found (step_local descends rfl id other) allowed
      (ih rfl hkept hend)
  | past found descends allowed inner rest ihinner ih =>
    -- The level below has ended between the bytes and what is kept.
    subst hwhole
    have hleft := step_left descends
    have hrest := rest.left
    rw [hkept] at hrest
    obtain ⟨passed, rfl⟩ := (inner.left.trans hleft).exists_prepend hrest
    obtain ⟨before, rfl⟩ := hleft.exists_prepend inner.left
    exact .past found (step_local descends rfl id other) allowed
      (ihinner rfl rfl Outcome.not_atEnd_ok) (ih rfl hkept hend)

/-! ## Runs -/

/-- A run leaves a part of its input. -/
theorem Yields.left {input : Input} {state : σ} {o : Outcome σ Unit}
    (h : p.Yields k maxDepth input state o) : o.input.LeftOf input := by
  obtain ⟨enough, h⟩ := h
  obtain ⟨inner, hinner, rfl⟩ :=
    Option.map_eq_some_iff.mp (h enough (Nat.le_refl _))
  exact (runFrom_eq_some.mp hinner).left

/-- **A run is local.** -/
theorem Yields.local {bytes kept : List UInt8} {input : Input} {state : σ}
    {o : Outcome σ Unit}
    (h : p.Yields k maxDepth (input.prepend bytes) state o)
    (hkept : o.input = input.prepend kept) (hend : ¬ o.AtEnd input)
    (other : Input) :
    p.Yields k maxDepth (other.prepend bytes) state
      (o.withInput (other.prepend kept)) := by
  obtain ⟨enough, h⟩ := h
  refine ⟨enough, fun steps hsteps => ?_⟩
  obtain ⟨inner, hinner, rfl⟩ := Option.map_eq_some_iff.mp (h steps hsteps)
  have hnot : ¬ inner.AtEnd input := by
    rintro ⟨e, he, hcause⟩
    exact hend ⟨e, by rw [he]; rfl, hcause⟩
  have hlocal := (runFrom_eq_some.mp hinner).local rfl hkept hnot other
  rw [run, runFrom_eq_some.mpr hlocal]
  rfl

end Program

end Avro
