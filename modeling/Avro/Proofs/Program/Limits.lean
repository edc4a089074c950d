import Avro.Proofs.Machine.Truncation
import Avro.Proofs.Program.Termination

/-!
# What the limit on levels does to a run

A limit can stop a run, and that is all it can do. Under two limits a program
does the same, call by call, up to the place where the smaller one stops it;
if it does not stop it, the two runs are one (`compile_limits`).

Which outcome a run has under a greater limit is known already
(`Program.Runs.raise_limit`). What is added here are the calls: those that a level
makes under a limit are the first ones of those that it makes under a greater
limit, whether it is stopped or not (`Program.Runs.limit_calls`). A level that the
limit does not allow has made no call yet, but the part of the sink on which it
was to run was opened, and that call is made under both limits.
-/

namespace Avro

namespace Program

variable {σ : Type} {p : Program} {k : Sink σ} {small great : Nat}

/-! ## Levels -/

/-- **A level that starts another one**, which is not allowed or makes some of
its calls. -/
theorem Runs.below_calls {maxDepth steps depth pc start : Nat}
    {frame frame' : Frame} {input between : Input} {s child : Logged σ}
    {put : Logged σ → Logged σ} {resume : Nat → Nat} {i : Instruction}
    {o : Outcome (Logged σ) Nat}
    (h : p.Runs k.logged maxDepth (steps + 1) depth pc frame input s o)
    (found : p.instructions[pc]? = some i)
    (descends : step p.errors k.logged i pc frame input s
      = .descend start child put resume frame' between) :
    (maxDepth < depth + 1 ∧ o.state.latest = child.latest)
      ∨ ∃ inner : Outcome (Logged σ) Nat,
        p.Runs k.logged maxDepth steps (depth + 1) start .blank between child
            inner
          ∧ inner.state.latest <:+ o.state.latest
          ∧ ∀ closed, inner.result = .ok closed →
            p.Runs k.logged maxDepth steps depth (resume closed) frame'
              inner.input (put inner.state) o := by
  rw [← runFrom_eq_some, runFrom_next found, descends] at h
  dsimp only at h
  by_cases hd : maxDepth < depth + 1
  · rw [if_pos hd] at h
    rw [← Option.some.inj h]
    exact .inl ⟨hd, latest_put descends child⟩
  · rw [if_neg hd] at h
    cases hr : p.runFrom k.logged maxDepth steps (depth + 1) start .blank
        between child with
    | none => rw [hr] at h; exact absurd h nofun
    | some inner =>
      rw [hr] at h
      refine .inr ⟨inner, runFrom_eq_some.mp hr, ?_⟩
      obtain ⟨result, left, t⟩ := inner
      cases result with
      | error e =>
        rw [← Option.some.inj h]
        exact ⟨(latest_put descends t).symm ▸ List.suffix_refl _, nofun⟩
      | ok closed =>
        have hrest := runFrom_eq_some.mp h
        refine ⟨latest_put descends t ▸ hrest.grows, ?_⟩
        rintro _ ⟨⟩
        exact hrest

/-- **A level makes the same calls under a greater limit**, and then perhaps
more. -/
theorem Runs.limit_calls {steps depth pc : Nat} {frame : Frame} {input : Input}
    {s : Logged σ} {o o' : Outcome (Logged σ) Nat}
    (h : p.Runs k.logged small steps depth pc frame input s o)
    (h' : p.Runs k.logged great steps depth pc frame input s o')
    (hle : small ≤ great) (hdepth : depth ≤ small) :
    o.state.latest <:+ o'.state.latest := by
  induction h generalizing o' with
  | outside missing => rw [h'.unique (.outside missing)]
  | close found closes => rw [h'.unique (.close found closes)]
  | fail found fails => rw [h'.unique (.fail found fails)]
  | goOn found goesOn _ ih =>
    rw [← runFrom_eq_some, runFrom_next found, goesOn] at h'
    exact ih (runFrom_eq_some.mp h') hdepth
  | tooDeep found descends _ =>
    rw [latest_put descends]
    rcases h'.below_calls found descends with ⟨-, hsame⟩ | ⟨_, hinner, hdone, -⟩
    · rw [hsame]
    · exact hinner.grows.trans hdone
  | failBelow found descends allowed _ ih =>
    rw [latest_put descends]
    rcases h'.below_calls found descends with ⟨hd, -⟩ | ⟨_, hinner, hdone, -⟩
    · omega
    · exact (ih hinner (by omega)).trans hdone
  | past found descends allowed inner _ _ ih =>
    rcases h'.below_calls found descends with ⟨hd, -⟩ | ⟨_, hinner, -, hrest⟩
    · omega
    · -- The smaller limit has not stopped the level below.
      rcases inner.raise_limit hle (by omega) with ⟨e, he, -⟩ | hboth
      · exact absurd he nofun
      · obtain rfl := hinner.unique hboth
        exact ih (hrest _ rfl) hdepth

/-! ## Runs -/

variable (p k) in
/-- **What a run does**: it makes these calls and has this outcome, with every
number of steps from some number on. -/
def Makes (maxDepth : Nat) (input : Input) (state : σ)
    (calls : List (Nat × SinkCall)) (o : Outcome σ Unit) : Prop :=
  ∃ enough, ∀ steps, enough ≤ steps →
    p.run k maxDepth steps input state = some o
    ∧ p.callsMade k maxDepth steps input state = some calls

/-- A run that yields makes calls. -/
theorem Yields.makes {maxDepth : Nat} {input : Input} {state : σ}
    {o : Outcome (Logged σ) Unit}
    (h : p.Yields k.logged maxDepth input (.start state) o) :
    p.Makes k maxDepth input state o.state.calls o.plain := by
  obtain ⟨enough, h⟩ := h
  refine ⟨enough, fun steps hsteps => ⟨?_, ?_⟩⟩
  · have hplain : (p.run k.logged maxDepth steps input (.start state)).map
        Outcome.plain = p.run k maxDepth steps input state :=
      run_logged steps input (.start state)
    rw [h steps hsteps] at hplain
    exact hplain.symm
  · rw [callsMade, h steps hsteps]
    rfl

end Program

section

variable {writer reader : Schema} {p : Program}

/-- **The limit on levels never changes what a compiled program does.** Its
runs under two limits both end, on every input and with every sink, and

* either they have the same outcome after the same calls,
* or the run under the smaller limit fails because of that limit, after some of
  the calls of the other run.

So a run that succeeds does the same under every greater limit. -/
theorem compile_limits (h : compile writer reader = .ok p) (hfits : p.Fits)
    {σ : Type} (k : Sink σ) {small great : Nat} (hle : small ≤ great)
    (input : Input) (state : σ) :
    ∃ calls o calls' o',
      p.Makes k small input state calls o
      ∧ p.Makes k great input state calls' o'
      ∧ (calls' = calls ∧ o' = o
        ∨ (∃ e, o.result = .error e ∧ e.cause = .tooDeep (small + 1) small)
          ∧ calls <+: calls')
      ∧ (o.result = .ok () → calls' = calls ∧ o' = o) := by
  obtain ⟨o, ho⟩ := compile_terminates h hfits k.logged small input
    (.start state)
  obtain ⟨o', ho'⟩ := compile_terminates h hfits k.logged great input
    (.start state)
  refine ⟨_, _, _, _, ho.makes, ho'.makes, ?_⟩
  rcases ho.raise_limit hle with ⟨e, he, hcause⟩ | hgreat
  · -- The smaller limit stops the run.
    refine ⟨.inr ⟨⟨e, he, hcause⟩, ?_⟩, fun hok => ?_⟩
    · obtain ⟨enough, ho⟩ := ho
      obtain ⟨enough', ho'⟩ := ho'
      obtain ⟨inner, hinner, rfl⟩ := Option.map_eq_some_iff.mp
        (ho (max enough enough') (Nat.le_max_left _ _))
      obtain ⟨inner', hinner', rfl⟩ := Option.map_eq_some_iff.mp
        (ho' (max enough enough') (Nat.le_max_right _ _))
      have hcalls := (Program.runFrom_eq_some.mp hinner).limit_calls
        (Program.runFrom_eq_some.mp hinner') hle (Nat.zero_le _)
      exact List.reverse_prefix.mpr hcalls
    · exact absurd (he.symm.trans hok) (by simp)
  · obtain rfl := hgreat.unique ho'
    exact ⟨.inl ⟨rfl, rfl⟩, fun _ => ⟨rfl, rfl⟩⟩

end

/-! ## A person

A person is read under a limit of one level, which is too few for its age, and
under one of three. -/

namespace Person

/-- The two limits agree up to the place where the smaller one stops a run. -/
theorem runs_limited : ∃ p, compile writer reader = .ok p ∧ p.Fits ∧ 1 ≤ 3
    ∧ ∀ input : Input, ∃ calls o calls' o',
      p.Makes (Builder.sink reader) 1 input
          (Builder.fresh reader reader.root) calls o
        ∧ p.Makes (Builder.sink reader) 3 input
          (Builder.fresh reader reader.root) calls' o'
        ∧ (calls' = calls ∧ o' = o
          ∨ (∃ e, o.result = .error e ∧ e.cause = .tooDeep 2 1)
            ∧ calls <+: calls')
        ∧ (o.result = .ok () → calls' = calls ∧ o' = o) := by
  obtain ⟨p, hp⟩ := exists_compiled
  exact ⟨p, hp.compiled, hp.fits, by decide, fun input =>
    compile_limits hp.compiled hp.fits (Builder.sink reader) (by decide) input
      (Builder.fresh reader reader.root)⟩

end Person

end Avro
