import Avro.Proofs.Machine.Locality
import Avro.Proofs.Machine.Logging
import Avro.Proofs.Wire.Truncation
import Avro.Sink.Trace

/-!
# Runs over an input that is cut off

A run that succeeds takes a datum off its input, and the datum marks its own
end: in front of anything else the run takes the same bytes and makes the same
calls, and over a part of these bytes it fails because the input ends, after
some of the same calls (`Program.run_delimits`).

That is said of every program, every sink and every limit, and for a device
that fails at the cut as for an input that ends there. What one instruction
does on an input that is cut off (`step_cut`) is lifted to levels along the
steps (`Program.Runs.starves`): the first level that goes past the cut
fails, and all the levels around it fail with it.
-/

namespace Avro

/-! ## Instructions -/

/-- Whether a level does not fail. -/
def Next.Passes {σ : Type} : Next σ → Prop
  | .fail _ _ _ => False
  | _ => True

/-- **An instruction starves**: if it goes past the bytes that are there, it
fails because they end, and the sink is as it was. -/
theorem step_starves {σ : Type} (errors : List String) {k : Sink σ}
    (i : Instruction) (pc : Nat) (frame : Frame) {bytes : List UInt8}
    {input : Input} (s : σ)
    (hpasses : (step errors k i pc frame (input.prepend bytes) s).Passes)
    (hbehind : (step errors k i pc frame (input.prepend bytes)
      s).left.rest.length < input.rest.length) (ending : Ending) :
    step errors k i pc frame ((Input.ended ending).prepend bytes) s
      = .fail (.decode ending.error) (Input.ended ending) s := by
  by_cases hread : i.op = .read
  · obtain ⟨op, operand, label⟩ := i
    obtain rfl : op = .read := hread
    dsimp only [step] at hpasses hbehind ⊢
    cases hkind : Kind.ofOperand? operand with
    | none =>
      rw [hkind] at hpasses
      exact hpasses.elim
    | some kind =>
      simp only [hkind] at hpasses hbehind
      cases hr : frame.read kind (input.prepend bytes) with
      | error e left => rw [hr] at hpasses; exact hpasses.elim
      | ok frame' left =>
        rw [hr] at hbehind
        simp only [Read.Starves.frameRead frame kind hr hbehind ending]
  · -- What does not read leaves its input, and so all that is behind the cut.
    rw [step_left_of_ne_read errors hread] at hbehind
    exact absurd hbehind (input.not_behind bytes)

/-- **An instruction over an input that is cut off** fails because the bytes
end, or stays in front of the cut and does what it did. -/
theorem step_cut {σ : Type} {errors : List String} {k : Sink σ}
    {i : Instruction} {pc : Nat} {frame : Frame} {bytes : List UInt8}
    {input : Input} {s : σ} {next : Next σ}
    (hstep : step errors k i pc frame (input.prepend bytes) s = next)
    (hpasses : next.Passes) (ending : Ending) :
    step errors k i pc frame ((Input.ended ending).prepend bytes) s
        = .fail (.decode ending.error) (Input.ended ending) s
      ∨ ∃ kept, next.left = input.prepend kept
        ∧ step errors k i pc frame ((Input.ended ending).prepend bytes) s
          = next.withInput ((Input.ended ending).prepend kept) := by
  rcases (step_left hstep).behind_or with hbehind | ⟨kept, hkept⟩
  · subst hstep
    exact .inl (step_starves errors i pc frame s hpasses hbehind ending)
  · have hend : ¬ next.AtEnd input := by
      cases next with
      | fail cause left s' => exact hpasses.elim
      | goOn | descend | close => exact id
    exact .inr ⟨kept, hkept, step_local hstep hkept hend _⟩

namespace Program

variable {σ : Type} {p : Program} {k : Sink σ} {maxDepth : Nat}

/-! ## Levels -/

/-- **A level that starved**: it failed because the input ended there, and its
calls are the first ones of a log. -/
def Starved (ending : Ending) (latest : List (Nat × SinkCall))
    (o : Outcome (Logged σ) Nat) : Prop :=
  o.input = Input.ended ending ∧ o.state.latest <:+ latest
    ∧ ∃ e, o.result = .error e ∧ e.cause = .decode ending.error

/-- **A level starves**: if it succeeds, and has gone past a place in its
input, then over what is in front of that place it fails because the input
ends, after some of the same calls. -/
theorem Runs.starves {steps depth pc closed : Nat} {frame : Frame}
    {bytes : List UInt8} {whole input : Input} {s : Logged σ}
    {o : Outcome (Logged σ) Nat}
    (h : p.Runs k.logged maxDepth steps depth pc frame whole s o)
    (hwhole : whole = input.prepend bytes) (ho : o.result = .ok closed)
    (hbehind : o.input.rest.length < input.rest.length) (ending : Ending) :
    ∃ o', p.Runs k.logged maxDepth steps depth pc frame
        ((Input.ended ending).prepend bytes) s o'
      ∧ Starved ending o.state.latest o' := by
  -- An instruction that goes past the cut is the one that fails.
  have hfails : ∀ {steps depth pc : Nat} {frame : Frame} {bytes : List UInt8}
      {s : Logged σ} {latest : List (Nat × SinkCall)} {i : Instruction},
      p.instructions[pc]? = some i →
      step p.errors k.logged i pc frame ((Input.ended ending).prepend bytes) s
        = .fail (.decode ending.error) (Input.ended ending) s →
      s.latest <:+ latest →
      ∃ o', p.Runs k.logged maxDepth (steps + 1) depth pc frame
          ((Input.ended ending).prepend bytes) s o'
        ∧ Starved ending latest o' :=
    fun found fails grown => ⟨_, .fail found fails, rfl, grown, _, rfl, rfl⟩
  have hgrown := h.grows
  induction h generalizing bytes closed with
  | outside | fail | tooDeep | failBelow => exact absurd ho nofun
  | close found closes =>
    subst hwhole
    rcases step_cut closes trivial ending with hfail | ⟨kept, hleft, -⟩
    · exact hfails found hfail hgrown
    · have hnot := input.not_behind kept
      rw [← hleft] at hnot
      exact absurd hbehind hnot
  | goOn found goesOn rest ih =>
    subst hwhole
    rcases step_cut goesOn trivial ending with hfail | ⟨kept, rfl, hstep⟩
    · exact hfails found hfail hgrown
    · obtain ⟨o', hruns, hstarved⟩ := ih rfl ho hbehind rest.grows
      exact ⟨o', .goOn found hstep hruns, hstarved⟩
  | past found descends allowed inner rest ihinner ih =>
    subst hwhole
    rcases step_cut descends trivial ending with hfail | ⟨kept, rfl, hstep⟩
    · exact hfails found hfail hgrown
    rcases inner.left.behind_or with hlt | ⟨passed, rfl⟩
    · -- The level below starves, and takes this one with it.
      obtain ⟨⟨_, _, below⟩, hruns, rfl, hmade, e, rfl, hcause⟩ :=
        ihinner rfl rfl hlt inner.grows
      refine ⟨_, .failBelow found hstep allowed hruns, rfl, ?_, e, rfl, hcause⟩
      have hrest := rest.grows
      rw [latest_put descends] at hrest ⊢
      exact hmade.trans hrest
    · -- The level below stays in front of the cut.
      obtain ⟨o', hruns, hstarved⟩ := ih rfl ho hbehind rest.grows
      exact ⟨o', .past found hstep allowed
        (inner.local rfl rfl Outcome.not_atEnd_ok _) hruns, hstarved⟩

/-! ## Runs -/

/-- A run succeeds if the level that it starts with does. -/
theorem exists_of_run_ok {steps : Nat} {input left : Input} {s t : σ}
    (h : p.run k maxDepth steps input s = some ⟨.ok (), left, t⟩) :
    ∃ closed, p.runFrom k maxDepth steps 0 0 .blank input s
      = some ⟨.ok closed, left, t⟩ := by
  obtain ⟨⟨result, left, t⟩, hinner, houter⟩ := Option.map_eq_some_iff.mp h
  obtain ⟨hresult, rfl, rfl⟩ := Outcome.mk.inj houter
  cases result with
  | error e => exact absurd hresult (by simp [Except.map])
  | ok closed => exact ⟨closed, hinner⟩

/-- **A run starves**: if it succeeds on an input, then over a proper prefix of
the bytes it has taken it fails because the input ends, after some of the same
calls. -/
theorem run_starves {steps : Nat} {bytes cut : List UInt8} {rest : Input}
    {s t : Logged σ}
    (h : p.run k.logged maxDepth steps (rest.prepend bytes) s
      = some ⟨.ok (), rest, t⟩)
    (hcut : cut <+: bytes) (hproper : cut ≠ bytes) (ending : Ending) :
    ∃ e t', p.run k.logged maxDepth steps ⟨cut, ending⟩ s
        = some ⟨.error e, Input.ended ending, t'⟩
      ∧ e.cause = .decode ending.error ∧ t'.latest <:+ t.latest := by
  obtain ⟨more, rfl⟩ := hcut
  obtain ⟨closed, hinner⟩ := exists_of_run_ok h
  -- The end of what was taken lies behind the cut.
  have hmore : more ≠ [] := fun hnil =>
    hproper (by rw [hnil, List.append_nil])
  have hbehind : rest.rest.length < (rest.prepend more).rest.length := by
    rw [Input.prepend, List.length_append]
    have := List.length_pos_iff.mpr hmore
    omega
  rw [Input.prepend_append] at hinner
  obtain ⟨⟨_, _, t'⟩, hruns, rfl, hmade, e, rfl, hcause⟩ :=
    (runFrom_eq_some.mp hinner).starves rfl rfl hbehind ending
  rw [Input.prepend_ended] at hruns
  refine ⟨e, t', ?_, hcause, hmade⟩
  rw [run, runFrom_eq_some.mpr hruns]
  rfl

/-- **A run that is cut off**, on any sink. -/
theorem run_cut {steps : Nat} {bytes cut : List UInt8} {rest : Input}
    {state after : σ}
    (h : p.run k maxDepth steps (rest.prepend bytes) state
      = some ⟨.ok (), rest, after⟩)
    (hcut : cut <+: bytes) (hproper : cut ≠ bytes) (ending : Ending) :
    ∃ e left calls made,
      p.run k maxDepth steps ⟨cut, ending⟩ state
          = some ⟨.error e, Input.ended ending, left⟩
        ∧ e.cause = .decode ending.error
        ∧ p.callsMade k maxDepth steps (rest.prepend bytes) state = some calls
        ∧ p.callsMade k maxDepth steps ⟨cut, ending⟩ state = some made
        ∧ made <+: calls := by
  obtain ⟨⟨_, _, t⟩, hlogged, hplain⟩ := exists_logged h
  obtain ⟨rfl, rfl, rfl⟩ := Outcome.mk.inj hplain
  obtain ⟨e, t', hstarved, hcause, hmade⟩ :=
    run_starves hlogged hcut hproper ending
  have hrun : (p.run k.logged maxDepth steps ⟨cut, ending⟩
      (.start state)).map Outcome.plain
      = p.run k maxDepth steps ⟨cut, ending⟩ state :=
    run_logged steps ⟨cut, ending⟩ (.start state)
  rw [hstarved] at hrun
  refine ⟨e, t'.plain, t.calls, t'.calls, hrun.symm, hcause, ?_, ?_,
    List.reverse_prefix.mpr hmade⟩
  · rw [callsMade, hlogged]
    rfl
  · rw [callsMade, hstarved]
    rfl

/-- A run that succeeds is local. -/
theorem run_local {steps : Nat} {bytes : List UInt8} {rest : Input} {s t : σ}
    (h : p.run k maxDepth steps (rest.prepend bytes) s
      = some ⟨.ok (), rest, t⟩) (other : Input) :
    p.run k maxDepth steps (other.prepend bytes) s
      = some ⟨.ok (), other, t⟩ := by
  obtain ⟨closed, hinner⟩ := exists_of_run_ok h
  have hkept : rest = rest.prepend [] := rfl
  have hlocal := (runFrom_eq_some.mp hinner).local rfl hkept
    Outcome.not_atEnd_ok other
  rw [run, runFrom_eq_some.mpr hlocal]
  rfl

/-- More steps change no run that has ended. -/
theorem run_mono {n m : Nat} (hnm : n ≤ m) {input : Input} {s : σ}
    {o : Outcome σ Unit} (h : p.run k maxDepth n input s = some o) :
    p.run k maxDepth m input s = some o := by
  obtain ⟨inner, hinner, rfl⟩ := Option.map_eq_some_iff.mp h
  rw [run, runFrom_mono hnm hinner]
  rfl

/-- **What a program decodes marks its own end.** If a run succeeds and has
taken just the bytes in front of some input, then

* in front of every other input it succeeds with the same calls on the sink,
  and leaves that input;
* over every proper prefix of the bytes it fails because the input ends, after
  some of the same calls;
* and no other bytes that are decoded have these bytes as a prefix. -/
theorem run_delimits {steps : Nat} {bytes : List UInt8} {rest : Input}
    {state after : σ}
    (h : p.run k maxDepth steps (rest.prepend bytes) state
      = some ⟨.ok (), rest, after⟩) :
    ∃ calls,
      (∀ other : Input,
        p.run k maxDepth steps (other.prepend bytes) state
            = some ⟨.ok (), other, after⟩
          ∧ p.callsMade k maxDepth steps (other.prepend bytes) state
            = some calls)
      ∧ (∀ cut, cut <+: bytes → cut ≠ bytes → ∃ e left made,
        p.run k maxDepth steps (Input.ofBytes cut) state
            = some ⟨.error e, Input.ofBytes [], left⟩
          ∧ e.cause = .decode .unexpectedEnd
          ∧ p.callsMade k maxDepth steps (Input.ofBytes cut) state = some made
          ∧ made <+: calls)
      ∧ ∀ (longer : List UInt8) (rest' : Input) (steps' : Nat) (after' : σ),
        p.run k maxDepth steps' (rest'.prepend longer) state
            = some ⟨.ok (), rest', after'⟩ →
          bytes <+: longer → bytes = longer := by
  obtain ⟨⟨_, _, t⟩, hlogged, hplain⟩ := exists_logged h
  obtain ⟨rfl, rfl, rfl⟩ := Outcome.mk.inj hplain
  have hcalls : ∀ other : Input,
      p.callsMade k maxDepth steps (other.prepend bytes) state
        = some t.calls := by
    intro other
    rw [callsMade, run_local hlogged other]
    rfl
  refine ⟨t.calls, fun other => ⟨run_local h other, hcalls other⟩,
    fun cut hcut hproper => ?_, fun longer rest' steps' after' h' hprefix => ?_⟩
  · obtain ⟨e, left, calls, made, hrun, hcause, hwhole, hmade, hprefix⟩ :=
      run_cut h hcut hproper .endOfInput
    obtain rfl := Option.some.inj ((hcalls _).symm.trans hwhole)
    exact ⟨e, left, made, hrun, hcause, hmade, hprefix⟩
  · -- Over a proper prefix the run of the longer bytes would have failed.
    by_contra hne
    obtain ⟨e, left, _, _, hfails, -⟩ := run_cut h' hprefix hne .endOfInput
    have hshort := run_local h (Input.ended .endOfInput)
    rw [Input.prepend_ended] at hshort
    have hsame := (run_mono (Nat.le_max_left steps steps') hshort).symm.trans
      (run_mono (Nat.le_max_right steps steps') hfails)
    exact absurd (Outcome.mk.inj (Option.some.inj hsame)).1 (by simp)

end Program

/-! ## A person

A person that is read by another schema: the age opens a branch of a union,
the name is skipped, and a field takes its default. -/

namespace Person

/-- A person of 36 years called Ada, as written. -/
def adaBytes : List UInt8 := [72, 6, 65, 100, 97]

/-- Whether a run succeeds on it in front of two bytes, after some number of
calls. -/
def takesAda (calls : Nat) : Bool :=
  (compile writer reader).toOption.any fun p =>
    (p.run Trace.sink 3 100 ((Input.ofBytes [1, 2]).prepend adaBytes)
      (Trace.start none)).any fun o => o.result.toOption.isSome
        && decide (o.input = Input.ofBytes [1, 2])
        && o.state.latest.length == calls

theorem takesAda_seven : takesAda 7 = true := by decide +kernel

/-- The run that takes Ada's bytes. -/
theorem exists_run_ada : ∃ p after, compile writer reader = .ok p
    ∧ p.run Trace.sink 3 100 ((Input.ofBytes [1, 2]).prepend adaBytes)
        (Trace.start none) = some ⟨.ok (), Input.ofBytes [1, 2], after⟩
    ∧ after.latest.length = 7 := by
  obtain ⟨p, hp, hruns⟩ := (Option.any_eq_true _ _).mp takesAda_seven
  obtain ⟨o, hrun, htests⟩ := (Option.any_eq_true _ _).mp hruns
  obtain ⟨ho, hcalls⟩ := Outcome.eq_of_tests htests
  rw [ho] at hrun
  exact ⟨p, o.state, toOption_eq_some hp, hrun, eq_of_beq hcalls⟩

/-- Ada's bytes mark their own end. -/
theorem run_delimits_ada : ∃ p after, compile writer reader = .ok p
    ∧ p.run Trace.sink 3 100 ((Input.ofBytes [1, 2]).prepend adaBytes)
        (Trace.start none) = some ⟨.ok (), Input.ofBytes [1, 2], after⟩
    ∧ after.latest.length = 7
    ∧ ∃ calls,
      (∀ other : Input,
        p.run Trace.sink 3 100 (other.prepend adaBytes) (Trace.start none)
            = some ⟨.ok (), other, after⟩
          ∧ p.callsMade Trace.sink 3 100 (other.prepend adaBytes)
            (Trace.start none) = some calls)
      ∧ (∀ cut, cut <+: adaBytes → cut ≠ adaBytes → ∃ e left made,
        p.run Trace.sink 3 100 (Input.ofBytes cut) (Trace.start none)
            = some ⟨.error e, Input.ofBytes [], left⟩
          ∧ e.cause = .decode .unexpectedEnd
          ∧ p.callsMade Trace.sink 3 100 (Input.ofBytes cut) (Trace.start none)
            = some made
          ∧ made <+: calls)
      ∧ ∀ (longer : List UInt8) (rest' : Input) (steps' : Nat) (after' : Trace),
        p.run Trace.sink 3 steps' (rest'.prepend longer) (Trace.start none)
            = some ⟨.ok (), rest', after'⟩ →
          adaBytes <+: longer → adaBytes = longer := by
  obtain ⟨p, after, hp, hrun, hcalls⟩ := exists_run_ada
  exact ⟨p, after, hp, hrun, hcalls, Program.run_delimits hrun⟩

end Person

end Avro
