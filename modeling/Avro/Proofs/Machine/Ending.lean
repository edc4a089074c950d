import Avro.Machine.Basic

/-!
# Runs that end

`Program.runFrom` is given a number of steps, and a result that is reached
does not depend on it. `Program.Ends` is the result without the number: a
level that starts at an address ends with an outcome. It is what the
correctness of compiled code is stated with, since code that is placed in
front of other code makes a run longer by a number of steps that nobody
wants to count.

`Program.runFrom` tests its program, its steps and its limit in turn. A level
that ends does so in one of seven ways, and `Program.Runs` has a rule for each:
what holds of every level that ends is shown by induction on these rules, and
not by going through the tests again (`runFrom_eq_some`).

The first part says that outcomes are unique (`Ends.unique`) and gives one
rule for each way in which a level goes on after an instruction
(`Ends.goOn`, `Ends.close`, `Ends.fail`, `Ends.tooDeep`, `Ends.descend`).

The second part is about the limit on levels. A run under a limit either
fails because of that limit or ends as it does under every greater limit
(`Ends.raise_limit`), whatever the program and the sink are: the limit is
looked at in one place only, where a level below is started.
-/

namespace Avro

/-- Whether an outcome is the failure that a limit on levels brings about. -/
def Outcome.HitsLimit {σ α : Type} (limit : Nat) (o : Outcome σ α) : Prop :=
  ∃ e, o.result = .error e ∧ e.cause = .tooDeep (limit + 1) limit

/-- An outcome that is tested for success, for what is left of the input, and
for something else besides. -/
theorem Outcome.eq_of_tests {σ : Type} {o : Outcome σ Unit} {left : Input}
    {test : Bool} (h : (o.result.toOption.isSome && decide (o.input = left)
      && test) = true) : o = ⟨.ok (), left, o.state⟩ ∧ test = true := by
  obtain ⟨hends, htest⟩ := Bool.and_eq_true_iff.mp h
  obtain ⟨hok, hleft⟩ := Bool.and_eq_true_iff.mp hends
  obtain ⟨result, input, state⟩ := o
  cases result with
  | error e => exact absurd hok (by simp [Except.toOption])
  | ok u =>
    obtain rfl : input = left := of_decide_eq_true hleft
    exact ⟨rfl, htest⟩

namespace Program

variable {σ : Type} {p : Program} {k : Sink σ} {maxDepth : Nat}

/-- **A level at an instruction** goes on as its step says. -/
theorem runFrom_next {n depth pc : Nat} {frame : Frame} {input : Input}
    {state : σ} {i : Instruction} (hi : p.instructions[pc]? = some i) :
    p.runFrom k maxDepth (n + 1) depth pc frame input state
      = match step p.errors k i pc frame input state with
        | .goOn pc frame input state =>
          p.runFrom k maxDepth n depth pc frame input state
        | .close input state => some ⟨.ok pc, input, state⟩
        | .fail cause input state =>
          some ⟨.error (p.errorAt pc cause), input, state⟩
        | .descend start child put resume frame input =>
          if maxDepth < depth + 1 then
            some ⟨.error (p.errorAt start (.tooDeep (depth + 1) maxDepth)),
              input, put child⟩
          else
            match p.runFrom k maxDepth n (depth + 1) start .blank input
              child with
            | none => none
            | some ⟨.error e, left, below⟩ => some ⟨.error e, left, put below⟩
            | some ⟨.ok closed, left, below⟩ =>
              p.runFrom k maxDepth n depth (resume closed) frame left
                (put below) := by
  rw [runFrom]
  split
  · rename_i hnone
    exact absurd (hnone.symm.trans hi) nofun
  · rename_i i' hi'
    obtain rfl := Option.some.inj (hi'.symm.trans hi)
    rfl

/-- A level outside the program fails. -/
theorem runFrom_outside {n depth pc : Nat} {frame : Frame} {input : Input}
    {state : σ} (hi : p.instructions[pc]? = none) :
    p.runFrom k maxDepth (n + 1) depth pc frame input state
      = some ⟨.error (p.errorAt pc (.defect (.counterOutOfRange pc))), input,
        state⟩ := by
  rw [runFrom, hi]

/-- **A level runs to an outcome** from an address on, in at most a number of
steps: a rule for each way in which it goes on or ends. -/
inductive Runs (p : Program) (k : Sink σ) (maxDepth : Nat) :
    (steps depth pc : Nat) → Frame → Input → σ → Outcome σ Nat → Prop
  /-- There is no instruction. -/
  | outside {steps depth pc : Nat} {frame : Frame} {input : Input} {s : σ}
    (missing : p.instructions[pc]? = none) :
    Runs p k maxDepth (steps + 1) depth pc frame input s
      ⟨.error (p.errorAt pc (.defect (.counterOutOfRange pc))), input, s⟩
  /-- The level goes on. -/
  | goOn {steps depth pc pc' : Nat} {frame frame' : Frame}
    {input between : Input} {s s' : σ} {i : Instruction} {o : Outcome σ Nat}
    (found : p.instructions[pc]? = some i)
    (goesOn : step p.errors k i pc frame input s = .goOn pc' frame' between s')
    (rest : Runs p k maxDepth steps depth pc' frame' between s' o) :
    Runs p k maxDepth (steps + 1) depth pc frame input s o
  /-- The level closes. -/
  | close {steps depth pc : Nat} {frame : Frame} {input left : Input} {s t : σ}
    {i : Instruction} (found : p.instructions[pc]? = some i)
    (closes : step p.errors k i pc frame input s = .close left t) :
    Runs p k maxDepth (steps + 1) depth pc frame input s ⟨.ok pc, left, t⟩
  /-- The instruction fails. -/
  | fail {steps depth pc : Nat} {frame : Frame} {input left : Input} {s t : σ}
    {cause : ExecutionCause} {i : Instruction}
    (found : p.instructions[pc]? = some i)
    (fails : step p.errors k i pc frame input s = .fail cause left t) :
    Runs p k maxDepth (steps + 1) depth pc frame input s
      ⟨.error (p.errorAt pc cause), left, t⟩
  /-- A level below is not allowed. -/
  | tooDeep {steps depth pc start : Nat} {frame frame' : Frame}
    {input between : Input} {s child : σ} {put : σ → σ} {resume : Nat → Nat}
    {i : Instruction} (found : p.instructions[pc]? = some i)
    (descends : step p.errors k i pc frame input s
      = .descend start child put resume frame' between)
    (forbidden : maxDepth < depth + 1) :
    Runs p k maxDepth (steps + 1) depth pc frame input s
      ⟨.error (p.errorAt start (.tooDeep (depth + 1) maxDepth)), between,
        put child⟩
  /-- A level below fails. -/
  | failBelow {steps depth pc start : Nat} {frame frame' : Frame}
    {input between left : Input} {s child t : σ} {put : σ → σ}
    {resume : Nat → Nat} {e : ExecutionError} {i : Instruction}
    (found : p.instructions[pc]? = some i)
    (descends : step p.errors k i pc frame input s
      = .descend start child put resume frame' between)
    (allowed : ¬ maxDepth < depth + 1)
    (inner : Runs p k maxDepth steps (depth + 1) start .blank between child
      ⟨.error e, left, t⟩) :
    Runs p k maxDepth (steps + 1) depth pc frame input s
      ⟨.error e, left, put t⟩
  /-- A level below closes, and the level goes on. -/
  | past {steps depth pc start closed : Nat} {frame frame' : Frame}
    {input between left : Input} {s child t : σ} {put : σ → σ}
    {resume : Nat → Nat} {i : Instruction} {o : Outcome σ Nat}
    (found : p.instructions[pc]? = some i)
    (descends : step p.errors k i pc frame input s
      = .descend start child put resume frame' between)
    (allowed : ¬ maxDepth < depth + 1)
    (inner : Runs p k maxDepth steps (depth + 1) start .blank between child
      ⟨.ok closed, left, t⟩)
    (rest : Runs p k maxDepth steps depth (resume closed) frame' left (put t)
      o) :
    Runs p k maxDepth (steps + 1) depth pc frame input s o

/-- A level that ends has run by the rules. -/
theorem runs_of_runFrom (steps : Nat) :
    ∀ {depth pc : Nat} {frame : Frame} {input : Input} {s : σ}
      {o : Outcome σ Nat},
      p.runFrom k maxDepth steps depth pc frame input s = some o →
      p.Runs k maxDepth steps depth pc frame input s o := by
  induction steps with
  | zero =>
    intro depth pc frame input s o h
    exact absurd h nofun
  | succ steps ih =>
    intro depth pc frame input s o h
    cases hi : p.instructions[pc]? with
    | none =>
      rw [runFrom_outside hi] at h
      obtain rfl := Option.some.inj h
      exact .outside hi
    | some i =>
      rw [runFrom_next hi] at h
      cases hs : step p.errors k i pc frame input s with
      | goOn pc' frame' between s' =>
        rw [hs] at h
        exact .goOn hi hs (ih h)
      | close left t =>
        rw [hs] at h
        obtain rfl := Option.some.inj h
        exact .close hi hs
      | fail cause left t =>
        rw [hs] at h
        obtain rfl := Option.some.inj h
        exact .fail hi hs
      | descend start child put resume frame' between =>
        rw [hs] at h
        dsimp only at h
        by_cases hd : maxDepth < depth + 1
        · rw [if_pos hd] at h
          obtain rfl := Option.some.inj h
          exact .tooDeep hi hs hd
        · rw [if_neg hd] at h
          cases hr : p.runFrom k maxDepth steps (depth + 1) start .blank between
              child with
          | none => rw [hr] at h; exact absurd h nofun
          | some inner =>
            rw [hr] at h
            obtain ⟨result, left, t⟩ := inner
            cases result with
            | error e =>
              obtain rfl := Option.some.inj h
              exact .failBelow hi hs hd (ih hr)
            | ok closed => exact .past hi hs hd (ih hr) (ih h)

/-- **What ends is what runs by the rules.** -/
theorem runFrom_eq_some {steps depth pc : Nat} {frame : Frame} {input : Input}
    {s : σ} {o : Outcome σ Nat} :
    p.runFrom k maxDepth steps depth pc frame input s = some o
      ↔ p.Runs k maxDepth steps depth pc frame input s o := by
  refine ⟨runs_of_runFrom steps, fun h => ?_⟩
  induction h with
  | outside missing => exact runFrom_outside missing
  | goOn found goesOn _ ih => rw [runFrom_next found, goesOn]; exact ih
  | close found closes => rw [runFrom_next found, closes]
  | fail found fails => rw [runFrom_next found, fails]
  | tooDeep found descends forbidden =>
    rw [runFrom_next found, descends]
    exact if_pos forbidden
  | failBelow found descends allowed _ ih =>
    rw [runFrom_next found, descends]
    dsimp only
    rw [if_neg allowed, ih]
  | past found descends allowed _ _ ihinner ih =>
    rw [runFrom_next found, descends]
    dsimp only
    rw [if_neg allowed, ihinner]
    exact ih

/-- A level has one outcome. -/
theorem Runs.unique {steps depth pc : Nat} {frame : Frame} {input : Input}
    {s : σ} {o o' : Outcome σ Nat}
    (h : p.Runs k maxDepth steps depth pc frame input s o)
    (h' : p.Runs k maxDepth steps depth pc frame input s o') : o = o' :=
  Option.some.inj
    ((runFrom_eq_some.mpr h).symm.trans (runFrom_eq_some.mpr h'))

/-- One step more changes no outcome. -/
theorem Runs.succ {steps depth pc : Nat} {frame : Frame} {input : Input} {s : σ}
    {o : Outcome σ Nat} (h : p.Runs k maxDepth steps depth pc frame input s o) :
    p.Runs k maxDepth (steps + 1) depth pc frame input s o := by
  induction h with
  | outside missing => exact .outside missing
  | goOn found goesOn _ ih => exact .goOn found goesOn ih
  | close found closes => exact .close found closes
  | fail found fails => exact .fail found fails
  | tooDeep found descends forbidden => exact .tooDeep found descends forbidden
  | failBelow found descends allowed _ ih =>
    exact .failBelow found descends allowed ih
  | past found descends allowed _ _ ihinner ih =>
    exact .past found descends allowed ihinner ih

/-- More steps change no outcome that is reached. -/
theorem runFrom_mono {n m : Nat} (hnm : n ≤ m) {depth pc : Nat} {frame : Frame}
    {input : Input} {s : σ} {o : Outcome σ Nat}
    (h : p.runFrom k maxDepth n depth pc frame input s = some o) :
    p.runFrom k maxDepth m depth pc frame input s = some o := by
  induction hnm with
  | refl => exact h
  | step _ ih => exact runFrom_eq_some.mpr (runFrom_eq_some.mp ih).succ

/-- **A level closes at an instruction** of the program. -/
theorem Runs.closed_lt {steps depth pc closed : Nat} {frame : Frame}
    {input : Input} {s : σ} {o : Outcome σ Nat}
    (h : p.Runs k maxDepth steps depth pc frame input s o)
    (ho : o.result = .ok closed) : closed < p.instructions.size := by
  induction h with
  | goOn _ _ _ ih => exact ih ho
  | past _ _ _ _ _ _ ih => exact ih ho
  | close found _ =>
    obtain rfl := Except.ok.inj ho
    exact (Array.getElem?_eq_some_iff.mp found).1
  | outside | fail | tooDeep | failBelow => exact absurd ho nofun

variable (p k maxDepth) in
/-- **A level ends**: run from an address on, with enough steps, it has this
outcome. -/
def Ends (depth pc : Nat) (frame : Frame) (input : Input) (state : σ)
    (o : Outcome σ Nat) : Prop :=
  ∃ steps, p.runFrom k maxDepth steps depth pc frame input state = some o

namespace Ends

variable {depth pc : Nat} {frame : Frame} {input : Input} {state : σ}
  {i : Instruction} {o : Outcome σ Nat}

/-- **A level has one outcome.** -/
theorem unique {o₁ o₂ : Outcome σ Nat}
    (h₁ : p.Ends k maxDepth depth pc frame input state o₁)
    (h₂ : p.Ends k maxDepth depth pc frame input state o₂) : o₁ = o₂ := by
  obtain ⟨n, h₁⟩ := h₁
  obtain ⟨m, h₂⟩ := h₂
  have h₁ := runFrom_mono (Nat.le_max_left n m) h₁
  have h₂ := runFrom_mono (Nat.le_max_right n m) h₂
  exact Option.some.inj (h₁.symm.trans h₂)

/-- An instruction after which the level goes on. -/
theorem goOn {pc' : Nat} {frame' : Frame} {input' : Input} {state' : σ}
    (hi : p.instructions[pc]? = some i)
    (hs : step p.errors k i pc frame input state
      = .goOn pc' frame' input' state')
    (h : p.Ends k maxDepth depth pc' frame' input' state' o) :
    p.Ends k maxDepth depth pc frame input state o := by
  obtain ⟨n, h⟩ := h
  exact ⟨n + 1, by rw [runFrom_next hi, hs]; exact h⟩

/-- An instruction that closes the level. -/
theorem close {input' : Input} {state' : σ}
    (hi : p.instructions[pc]? = some i)
    (hs : step p.errors k i pc frame input state = .close input' state') :
    p.Ends k maxDepth depth pc frame input state ⟨.ok pc, input', state'⟩ :=
  ⟨1, by rw [runFrom_next hi, hs]⟩

/-- An instruction that fails. -/
theorem fail {cause : ExecutionCause} {input' : Input} {state' : σ}
    (hi : p.instructions[pc]? = some i)
    (hs : step p.errors k i pc frame input state
      = .fail cause input' state') :
    p.Ends k maxDepth depth pc frame input state
      ⟨.error (p.errorAt pc cause), input', state'⟩ :=
  ⟨1, by rw [runFrom_next hi, hs]⟩

section Descend

variable {start : Nat} {child : σ} {put : σ → σ} {resume : Nat → Nat}
  {frame' : Frame} {input' : Input}

/-- A level below for which no level is left. -/
theorem tooDeep (hi : p.instructions[pc]? = some i)
    (hs : step p.errors k i pc frame input state
      = .descend start child put resume frame' input')
    (hd : maxDepth < depth + 1) :
    p.Ends k maxDepth depth pc frame input state
      ⟨.error (p.errorAt start (.tooDeep (depth + 1) maxDepth)), input',
        put child⟩ :=
  ⟨1, by rw [runFrom_next hi, hs]; exact if_pos hd⟩

/-- A level below that fails. -/
theorem descend_error {e : ExecutionError} {left : Input} {below : σ}
    (hi : p.instructions[pc]? = some i)
    (hs : step p.errors k i pc frame input state
      = .descend start child put resume frame' input')
    (hd : depth + 1 ≤ maxDepth)
    (h : p.Ends k maxDepth (depth + 1) start .blank input' child
      ⟨.error e, left, below⟩) :
    p.Ends k maxDepth depth pc frame input state
      ⟨.error e, left, put below⟩ := by
  obtain ⟨n, h⟩ := h
  refine ⟨n + 1, ?_⟩
  rw [runFrom_next hi, hs]
  dsimp only
  rw [if_neg (Nat.not_lt.mpr hd), h]

/-- **A level below that closes**: the level goes on where the closing
instruction says. -/
theorem descend {closed : Nat} {left : Input} {below : σ}
    (hi : p.instructions[pc]? = some i)
    (hs : step p.errors k i pc frame input state
      = .descend start child put resume frame' input')
    (hd : depth + 1 ≤ maxDepth)
    (h : p.Ends k maxDepth (depth + 1) start .blank input' child
      ⟨.ok closed, left, below⟩)
    (hrest : p.Ends k maxDepth depth (resume closed) frame' left (put below)
      o) :
    p.Ends k maxDepth depth pc frame input state o := by
  obtain ⟨n, h⟩ := h
  obtain ⟨m, hrest⟩ := hrest
  refine ⟨max n m + 1, ?_⟩
  rw [runFrom_next hi, hs]
  dsimp only
  rw [if_neg (Nat.not_lt.mpr hd), runFrom_mono (Nat.le_max_left n m) h]
  exact runFrom_mono (Nat.le_max_right n m) hrest

end Descend

end Ends

/-! ## The limit on levels -/

/-- **The limit is the only thing that depends on the limit.** A level that
ends under one limit fails because of it, or ends in the same way under
every greater one. -/
theorem Runs.raise_limit {small great steps depth pc : Nat} {frame : Frame}
    {input : Input} {s : σ} {o : Outcome σ Nat}
    (h : p.Runs k small steps depth pc frame input s o) (hle : small ≤ great)
    (hdepth : depth ≤ small) :
    o.HitsLimit small ∨ p.Runs k great steps depth pc frame input s o := by
  induction h with
  | outside missing => exact .inr (.outside missing)
  | goOn found goesOn _ ih => exact (ih hdepth).imp_right (.goOn found goesOn)
  | close found closes => exact .inr (.close found closes)
  | fail found fails => exact .inr (.fail found fails)
  | @tooDeep _ depth _ _ _ _ _ _ _ _ _ _ _ _ _ forbidden =>
    obtain rfl : depth = small := by omega
    exact .inl ⟨_, rfl, rfl⟩
  | failBelow found descends allowed _ ih =>
    rcases ih (by omega) with ⟨e, he, hcause⟩ | hinner
    · exact .inl ⟨e, he, hcause⟩
    · exact .inr (.failBelow found descends (by omega) hinner)
  | past found descends allowed _ _ ihinner ih =>
    rcases ihinner (by omega) with ⟨e, he, -⟩ | hinner
    · exact absurd he nofun
    · exact (ih hdepth).imp_right (.past found descends (by omega) hinner)

/-- **A run that its limit does not stop is the run under every greater
limit.** -/
theorem Ends.raise_limit {small great : Nat} (hle : small ≤ great)
    {pc : Nat} {frame : Frame} {input : Input} {state : σ}
    {o : Outcome σ Nat}
    (h : p.Ends k small 0 pc frame input state o) :
    o.HitsLimit small ∨ p.Ends k great 0 pc frame input state o := by
  obtain ⟨steps, h⟩ := h
  exact ((runFrom_eq_some.mp h).raise_limit hle (Nat.zero_le _)).imp_right
    fun h => ⟨steps, runFrom_eq_some.mpr h⟩

end Program

end Avro
