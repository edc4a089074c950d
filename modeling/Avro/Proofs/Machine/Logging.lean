import Avro.Proofs.Machine.Requests

/-!
# The calls a run makes

What a run does to its sink is a sequence of calls, and the state in which the
sink is left need not show it. `Sink.logged` makes of any sink one that writes
every call down before it passes it on, whether the call is then taken or
refused, with the depth of the part it is made on.

Writing down changes nothing: a run with the logging sink is a run with the
sink itself, seen with the log (`Program.run_logged`), because the logging sink
forgets to the sink itself (`Sink.logged_forgets`). And a log only grows
(`Program.Runs.grows`), by what one instruction does to it (`step_logged`).
-/

namespace Avro

/-- **The state of a sink, with the calls that were made on it.** -/
structure Logged (σ : Type) where
  /-- The state of the sink itself. -/
  plain : σ
  /-- The depth of the part that is open. -/
  depth : Nat
  /-- The calls with their depths, the latest first. -/
  latest : List (Nat × SinkCall)

namespace Logged

variable {σ : Type}

/-- A sink on which no call was made. -/
def start (s : σ) : Logged σ := ⟨s, 0, []⟩

/-- The calls with their depths, in the order they were made. -/
def calls (s : Logged σ) : List (Nat × SinkCall) := s.latest.reverse

/-- The log with one more call. -/
def noting (call : SinkCall) (s : Logged σ) : List (Nat × SinkCall) :=
  (s.depth, call) :: s.latest

/-- Writes a call down and passes it on. -/
def pass (call : SinkCall) (m : SinkEffect σ Unit) :
    SinkEffect (Logged σ) Unit := fun s =>
  match m s.plain with
  | .ok () plain => .ok () ⟨plain, s.depth, s.noting call⟩
  | .error e plain => .error e ⟨plain, s.depth, s.noting call⟩

/-- Writes the opening of a part down and passes it on. What is done to the
part is written into the same log, one level deeper. -/
def enter (part : Opening) (m : SinkEffect σ (σ → σ)) :
    SinkEffect (Logged σ) (Logged σ → Logged σ) := fun s =>
  match m s.plain with
  | .ok close child =>
    .ok (fun below => ⟨close below.plain, s.depth, below.latest⟩)
      ⟨child, s.depth + 1, s.noting (.enter part)⟩
  | .error e plain => .error e ⟨plain, s.depth, s.noting (.enter part)⟩

end Logged

/-- **The sink that writes down the calls made on another one.** -/
def Sink.logged {σ : Type} (k : Sink σ) : Sink (Logged σ) where
  typeName s := k.typeName s.plain
  set x := Logged.pass (.set x) (k.set x)
  setDefault index := Logged.pass (.setDefault index) (k.setDefault index)
  enter part := Logged.enter part (k.enter part)
  finalize := Logged.pass .finalize k.finalize

/-- **A sink that writes calls down forgets to the sink itself.** -/
theorem Sink.logged_forgets {σ : Type} (k : Sink σ) :
    k.logged.Forgets k Logged.plain := by
  have hpass : ∀ (call : SinkCall) (m : SinkEffect σ Unit) (s : Logged σ),
      forgetting Logged.plain (Logged.pass call m s) = m s.plain := by
    intro call m s
    unfold Logged.pass
    cases m s.plain <;> rfl
  refine ⟨fun x => hpass _ _, fun index => hpass _ _, fun part s => ?_,
    hpass _ _⟩
  dsimp only [Sink.logged, Logged.enter]
  cases hr : k.enter part s.plain with
  | ok put child => exact ⟨put, rfl, fun _ => rfl⟩
  | error e s' => rfl

/-! ## Instructions -/

/-- **A level goes on in the same way with a log and without it.** The log has
grown since it was `latest`, and putting back a part keeps what was written
while the part was open. -/
inductive Next.Logs {σ : Type} (latest : List (Nat × SinkCall)) :
    Next (Logged σ) → Next σ → Prop
  /-- With another instruction. -/
  | goOn {pc : Nat} {frame : Frame} {input : Input} {s : Logged σ}
      (grown : latest <:+ s.latest) :
      Logs latest (.goOn pc frame input s) (.goOn pc frame input s.plain)
  /-- With a level below. -/
  | descend {pc : Nat} {child : Logged σ} {close : Logged σ → Logged σ}
      {close' : σ → σ} {resume : Nat → Nat} {frame : Frame} {input : Input}
      (grown : latest <:+ child.latest)
      (plain : ∀ below, (close below).plain = close' below.plain)
      (kept : ∀ below, (close below).latest = below.latest) :
      Logs latest (.descend pc child close resume frame input)
        (.descend pc child.plain close' resume frame input)
  /-- Not at all: it closes. -/
  | close {input : Input} {s : Logged σ} (grown : latest <:+ s.latest) :
      Logs latest (.close input s) (.close input s.plain)
  /-- Not at all: the run fails. -/
  | fail {cause : ExecutionCause} {input : Input} {s : Logged σ}
      (grown : latest <:+ s.latest) :
      Logs latest (.fail cause input s) (.fail cause input s.plain)

section

variable {σ : Type} {k : Sink σ} {pc : Nat} {frame : Frame} {input : Input}

/-- A call that has no result. -/
theorem afterCall_pass (call : SinkCall) (m : SinkEffect σ Unit)
    (s : Logged σ) :
    Next.Logs s.latest (afterCall pc frame input (Logged.pass call m s))
      (afterCall pc frame input (m s.plain)) := by
  unfold Logged.pass
  cases m s.plain with
  | ok _ plain => exact .goOn (List.suffix_cons _ _)
  | error e plain => exact .fail (List.suffix_cons _ _)

/-- The opening of a part. -/
theorem afterOpening_enter (part : Opening) (m : SinkEffect σ (σ → σ))
    (s : Logged σ) :
    Next.Logs s.latest (afterOpening pc frame input (Logged.enter part m s))
      (afterOpening pc frame input (m s.plain)) := by
  unfold Logged.enter
  cases m s.plain with
  | ok close child =>
    exact .descend (List.suffix_cons _ _) (fun _ => rfl) (fun _ => rfl)
  | error e plain => exact .fail (List.suffix_cons _ _)

/-- **An instruction does the same with a log and without it.** -/
theorem step_logged (errors : List String) (i : Instruction) (s : Logged σ) :
    Next.Logs s.latest (step errors k.logged i pc frame input s)
      (step errors k i pc frame input s.plain) := by
  have same : s.latest <:+ s.latest := List.suffix_refl _
  obtain ⟨request, -, hmeets⟩ := step_meets errors i pc frame input
  rw [hmeets, hmeets]
  cases request with
  | nothing next =>
    cases next with
    | goOn => exact .goOn same
    | descend => exact .descend same (fun _ => rfl) (fun _ => rfl)
    | close => exact .close same
    | fail => exact .fail same
  | set x => exact afterCall_pass (.set x) (k.set x) s
  | setDefault index =>
    exact afterCall_pass (.setDefault index) (k.setDefault index) s
  | enter part => exact afterOpening_enter part (k.enter part) s
  | finalize input =>
    dsimp only [Request.meet, Sink.logged, Logged.pass]
    cases k.finalize s.plain with
    | ok _ plain => exact .close (List.suffix_cons _ _)
    | error e plain => exact .fail (List.suffix_cons _ _)

/-- The log has grown after an instruction. -/
theorem step_grows {errors : List String} {i : Instruction} {s : Logged σ}
    {next : Next (Logged σ)}
    (hstep : step errors k.logged i pc frame input s = next) :
    s.latest <:+ next.state.latest := by
  have hlogs : Next.Logs s.latest next (step errors k i pc frame input s.plain) :=
    hstep ▸ step_logged errors i s
  generalize step errors k i pc frame input s.plain = next' at hlogs
  cases hlogs with
  | goOn grown | close grown | fail grown => exact grown
  | descend grown _ _ => exact grown

/-- What a part is put back into has the log of the part. -/
theorem latest_put {errors : List String} {i : Instruction} {start : Nat}
    {frame' : Frame} {between : Input} {s child : Logged σ}
    {put : Logged σ → Logged σ} {resume : Nat → Nat}
    (hstep : step errors k.logged i pc frame input s
      = .descend start child put resume frame' between) (below : Logged σ) :
    (put below).latest = below.latest := by
  have hlogs : Next.Logs s.latest
      (.descend start child put resume frame' between)
      (step errors k i pc frame input s.plain) :=
    hstep ▸ step_logged errors i s
  generalize step errors k i pc frame input s.plain = next at hlogs
  cases hlogs with
  | descend _ _ kept => exact kept below

end

/-- An outcome, without the log. -/
def Outcome.plain {σ α : Type} (o : Outcome (Logged σ) α) : Outcome σ α :=
  ⟨o.result, o.input, o.state.plain⟩

namespace Program

variable {σ : Type} {p : Program} {k : Sink σ} {maxDepth : Nat}

/-! ## Levels -/

/-- **A log only grows** while a level runs. -/
theorem Runs.grows {steps depth pc : Nat} {frame : Frame} {input : Input}
    {s : Logged σ} {o : Outcome (Logged σ) Nat}
    (h : p.Runs k.logged maxDepth steps depth pc frame input s o) :
    s.latest <:+ o.state.latest := by
  induction h with
  | outside => exact List.suffix_refl _
  | close _ closes => exact step_grows closes
  | fail _ fails => exact step_grows fails
  | goOn _ goesOn _ ih => exact (step_grows goesOn).trans ih
  | tooDeep _ descends _ =>
    rw [latest_put descends]
    exact step_grows descends
  | failBelow _ descends _ _ ih =>
    rw [latest_put descends]
    exact (step_grows descends).trans ih
  | past _ descends _ _ _ ihinner ih =>
    rw [latest_put descends] at ih
    exact (step_grows descends).trans (ihinner.trans ih)

/-! ## Runs -/

/-- **A run does the same with a log and without it.** -/
theorem run_logged (steps : Nat) (input : Input) (s : Logged σ) :
    (p.run k.logged maxDepth steps input s).map Outcome.plain
      = p.run k maxDepth steps input s.plain :=
  run_forgets k.logged_forgets steps input s

variable (p k maxDepth) in
/-- **The calls that a run makes on its sink**, with their depths; `none` when
the steps are used up. -/
def callsMade (steps : Nat) (input : Input) (state : σ) :
    Option (List (Nat × SinkCall)) :=
  (p.run k.logged maxDepth steps input (.start state)).map (·.state.calls)

/-- A run that ends, with the calls that it has made. -/
theorem exists_logged {steps : Nat} {input : Input} {state : σ}
    {o : Outcome σ Unit} (h : p.run k maxDepth steps input state = some o) :
    ∃ o' : Outcome (Logged σ) Unit,
      p.run k.logged maxDepth steps input (.start state) = some o'
        ∧ o'.plain = o :=
  Option.map_eq_some_iff.mp ((run_logged steps input (.start state)).trans h)

end Program

end Avro
