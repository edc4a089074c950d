import Avro.Proofs.Machine.Steps
import Avro.Proofs.Plan.Evaluation
import Avro.Proofs.Wire.Locality

/-!
# Evaluation is local

What evaluation of a plan does with bytes in front of an input, staying within
them, does not depend on what comes after them (`Plan.eval_local`): neither
what it delivers nor how it ends. Only a run into the end of the input can be
changed by more bytes.

The one thing that looks at the length of the input is the bound on the number
of blocks, and a loop over blocks does not depend on a bound that is great
enough (`Running.blocksWithin_eq`).
-/

namespace Avro

namespace Running

variable {σ α β : Type}

/-! ## What does not read -/

/-- From a state, a computation does the same on every input, and leaves it.
What fails is not a read. -/
def UnreadAt (m : Running σ α) (s : σ) : Prop :=
  (∃ a t, ∀ input, m (input, s) = .ok a (input, t))
    ∨ ∃ cause t, (∀ e, cause ≠ .decode e)
      ∧ ∀ input, m (input, s) = .error cause (input, t)

/-- **A computation does not read.** -/
def Unread (m : Running σ α) : Prop := ∀ s, m.UnreadAt s

namespace Unread

theorem pure (a : α) : Unread (Pure.pure a : Running σ α) :=
  fun s => .inl ⟨a, s, fun _ => rfl⟩

theorem throw {cause : ExecutionCause} (h : ∀ e, cause ≠ .decode e) :
    Unread (throw cause : Running σ α) :=
  fun s => .inr ⟨cause, s, h, fun _ => rfl⟩

theorem bind {m : Running σ α} {f : α → Running σ β} (hm : Unread m)
    (hf : ∀ a, Unread (f a)) : Unread (m >>= f) := by
  intro s
  rcases hm s with ⟨a, t, hm⟩ | ⟨cause, t, hcause, hm⟩
  · rcases hf a t with ⟨b, u, hf⟩ | ⟨cause, u, hcause, hf⟩
    · exact .inl ⟨b, u, fun input => (bind_ok (hm input)).trans (hf input)⟩
    · exact .inr ⟨cause, u, hcause,
        fun input => (bind_ok (hm input)).trans (hf input)⟩
  · exact .inr ⟨cause, t, hcause, fun input => bind_error (hm input)⟩

theorem calling (m : SinkEffect σ α) : Unread (Running.calling m) := by
  intro s
  unfold Running.UnreadAt Running.calling
  cases hr : m s with
  | ok a t => exact .inl ⟨a, t, fun input => by simp only [hr]⟩
  | error e t =>
    exact .inr ⟨.sink e, t, nofun, fun input => by simp only [hr]⟩

end Unread

namespace UnreadAt

variable {m : Running σ α} {s t : σ} {i : Input} {bytes kept : List UInt8}

/-- What does not read and succeeds leaves what is in front of an input, and
does so in front of every other one. -/
theorem local_ok (h : m.UnreadAt s) {a : α}
    (hr : m (i.prepend bytes, s) = .ok a (i.prepend kept, t)) (j : Input) :
    m (j.prepend bytes, s) = .ok a (j.prepend kept, t) := by
  rcases h with ⟨a', t', hm⟩ | ⟨cause, t', -, hm⟩
  · rw [hm] at hr ⊢
    obtain ⟨rfl, hs⟩ := EStateM.Result.ok.inj hr
    obtain ⟨hinput, rfl⟩ := Prod.mk.inj hs
    rw [Input.prepend_inj.mp hinput]
  · rw [hm] at hr
    exact absurd hr (by simp)

/-- What does not read and fails leaves what is in front of an input, and does
so in front of every other one. -/
theorem local_error (h : m.UnreadAt s) {cause : ExecutionCause}
    (hr : m (i.prepend bytes, s) = .error cause (i.prepend kept, t))
    (j : Input) :
    m (j.prepend bytes, s) = .error cause (j.prepend kept, t) := by
  rcases h with ⟨a', t', hm⟩ | ⟨cause', t', -, hm⟩
  · rw [hm] at hr
    exact absurd hr (by simp)
  · rw [hm] at hr ⊢
    obtain ⟨rfl, hs⟩ := EStateM.Result.error.inj hr
    obtain ⟨hinput, rfl⟩ := Prod.mk.inj hs
    rw [Input.prepend_inj.mp hinput]

end UnreadAt

/-! ## Local computations -/

/-- **A computation is local**: what it does when it stays within the bytes in
front of an input does not depend on the input behind them. -/
structure Local (m : Running σ α) : Prop where
  /-- It leaves a part of its input. -/
  consumes : m.Consumes
  /-- A computation that succeeds. -/
  ok : ∀ {bytes kept : List UInt8} {i : Input} {s t : σ} {a : α},
    m (i.prepend bytes, s) = .ok a (i.prepend kept, t) →
    ∀ j : Input, m (j.prepend bytes, s) = .ok a (j.prepend kept, t)
  /-- A computation that fails, but not at the end of the input. -/
  error : ∀ {bytes kept : List UInt8} {i : Input} {s t : σ}
    {cause : ExecutionCause}, cause ≠ .decode i.ending.error →
    m (i.prepend bytes, s) = .error cause (i.prepend kept, t) →
    ∀ j : Input, m (j.prepend bytes, s) = .error cause (j.prepend kept, t)

namespace Local

theorem pure (a : α) : Local (Pure.pure a : Running σ α) where
  consumes := .pure a
  ok h j := by
    obtain ⟨rfl, hs⟩ := EStateM.Result.ok.inj h
    obtain ⟨hinput, rfl⟩ := Prod.mk.inj hs
    rw [← Input.prepend_inj.mp hinput]
    rfl
  error _ h _ := nomatch h

theorem throw (cause : ExecutionCause) :
    Local (throw cause : Running σ α) where
  consumes := .throw cause
  ok h _ := nomatch h
  error _ h j := by
    obtain ⟨rfl, hs⟩ := EStateM.Result.error.inj h
    obtain ⟨hinput, rfl⟩ := Prod.mk.inj hs
    rw [← Input.prepend_inj.mp hinput]
    rfl

theorem bind {m : Running σ α} {f : α → Running σ β} (hm : Local m)
    (hf : ∀ a, Local (f a)) : Local (m >>= f) where
  consumes := .bind hm.consumes fun a => (hf a).consumes
  ok {bytes kept i s t b} h j := by
    have hleft := hm.consumes (i.prepend bytes, s)
    cases hr : m (i.prepend bytes, s) with
    | error cause u =>
      rw [bind_error hr] at h
      exact absurd h (by simp)
    | ok a u =>
      obtain ⟨left, state⟩ := u
      rw [bind_ok hr] at h
      rw [hr] at hleft
      have hkept := (hf a).consumes (left, state)
      rw [h] at hkept
      obtain ⟨between, rfl⟩ := hleft.exists_prepend hkept
      rw [bind_ok (hm.ok hr j)]
      exact (hf a).ok h j
  error {bytes kept i s t cause} hcause h j := by
    have hleft := hm.consumes (i.prepend bytes, s)
    cases hr : m (i.prepend bytes, s) with
    | error cause' u =>
      rw [bind_error hr] at h
      obtain ⟨rfl, rfl⟩ := EStateM.Result.error.inj h
      exact bind_error (hm.error hcause hr j)
    | ok a u =>
      obtain ⟨left, state⟩ := u
      rw [bind_ok hr] at h
      rw [hr] at hleft
      have hkept := (hf a).consumes (left, state)
      rw [h] at hkept
      obtain ⟨between, rfl⟩ := hleft.exists_prepend hkept
      rw [bind_ok (hm.ok hr j)]
      exact (hf a).error hcause h j

theorem reading {m : Read α} (hm : m.Local) :
    Local (Running.reading m : Running σ α) where
  consumes := .reading hm.consumes
  ok {bytes kept i s t a} h j := by
    cases hr : m (i.prepend bytes) with
    | error e left =>
      rw [reading_error hr] at h
      exact absurd h (by simp)
    | ok a' left =>
      rw [reading_ok hr] at h
      obtain ⟨rfl, hs⟩ := EStateM.Result.ok.inj h
      obtain ⟨rfl, rfl⟩ := Prod.mk.inj hs
      exact reading_ok (hm.ok hr j)
  error {bytes kept i s t cause} hcause h j := by
    cases hr : m (i.prepend bytes) with
    | ok a left =>
      rw [reading_ok hr] at h
      exact absurd h (by simp)
    | error e left =>
      rw [reading_error hr] at h
      obtain ⟨rfl, hs⟩ := EStateM.Result.error.inj h
      obtain ⟨rfl, rfl⟩ := Prod.mk.inj hs
      have he : e ≠ i.ending.error := fun heq => hcause (by rw [heq])
      exact reading_error (hm.error he hr j)

/-- What does not read does the same on every input. -/
theorem of_unread {m : Running σ α} (h : m.Unread) : Local m where
  consumes := by
    rintro ⟨input, s⟩
    rcases h s with ⟨a, t, hm⟩ | ⟨cause, t, -, hm⟩
    · rw [hm]
      exact Input.LeftOf.refl input
    · rw [hm]
      exact Input.LeftOf.refl input
  ok hr j := (h _).local_ok hr j
  error _ hr j := (h _).local_error hr j

theorem calling (m : SinkEffect σ α) : Local (Running.calling m) :=
  of_unread (.calling m)

theorem loopClosed : LoopClosed (σ := σ) Local :=
  ⟨pure, bind, reading .readLong, throw _⟩

/-- **A loop over blocks is local** if its rounds are: with a bound that is
great enough for both inputs, it is the same loop. -/
theorem blocks {round : Running σ Unit} (h : Local round) :
    Local (Running.blocks round) := by
  have heq : ∀ s t : Input × σ, ∃ more,
      Running.blocks round s = Running.blocksWithin round more s
        ∧ Running.blocks round t = Running.blocksWithin round more t :=
    fun s t => ⟨max s.1.rest.length t.1.rest.length + 1,
      blocksWithin_eq h.consumes (Nat.lt_succ_self _)
        (Nat.lt_succ_of_le (Nat.le_max_left _ _)),
      blocksWithin_eq h.consumes (Nat.lt_succ_self _)
        (Nat.lt_succ_of_le (Nat.le_max_right _ _))⟩
  refine ⟨.blocks h.consumes, ?_, ?_⟩
  · intro bytes kept i s t a hr j
    obtain ⟨more, hi, hj⟩ := heq (i.prepend bytes, s) (j.prepend bytes, s)
    rw [hi] at hr
    rw [hj]
    exact (loopClosed.blocksWithin h more).ok hr j
  · intro bytes kept i s t cause hcause hr j
    obtain ⟨more, hi, hj⟩ := heq (i.prepend bytes, s) (j.prepend bytes, s)
    rw [hi] at hr
    rw [hj]
    exact (loopClosed.blocksWithin h more).error hcause hr j

end Local

end Running

/-! ## Instructions -/

/-- Only reads fail to decode. -/
theorem step_fail_of_ne_read {σ : Type} {errors : List String} {k : Sink σ}
    {i : Instruction} (h : i.op ≠ .read) {pc : Nat} {frame : Frame}
    {input left : Input} {s t : σ} {cause : ExecutionCause}
    (hs : step errors k i pc frame input s = .fail cause left t)
    (e : DecodeError) : cause ≠ .decode e := by
  rintro rfl
  cases step_fails hs with
  | decode reads => exact h reads

namespace Plan

variable {σ : Type} {k : Sink σ} {limit : Nat} {body : Demand → Plan}

/-- An instruction that reads, as a computation. -/
theorem perform_of_read {i : Instruction} (h : i.op = .read) (frame : Frame) :
    perform k i frame
      = match Kind.ofOperand? i.operand with
        | some kind => Running.reading (frame.read kind)
        | none => throw (.defect (.invalidOperand i.op.name i.operand)) := by
  obtain ⟨op, operand, label⟩ := i
  obtain rfl : op = .read := h
  funext s
  unfold perform
  dsimp only [step]
  cases Kind.ofOperand? operand with
  | none => rfl
  | some kind =>
    dsimp only [Running.reading]
    cases frame.read kind s.1 <;> rfl

/-- An instruction that reads opens nothing. -/
theorem opened_of_read {i : Instruction} (h : i.op = .read)
    (inner : Running σ Unit) (frame : Frame) :
    opened k i inner frame = perform k i frame := by
  obtain ⟨op, operand, label⟩ := i
  obtain rfl : op = .read := h
  funext s
  unfold opened perform
  dsimp only [step]
  cases Kind.ofOperand? operand with
  | none => rfl
  | some kind =>
    dsimp only
    cases frame.read kind s.1 <;> rfl

/-- **An instruction that does not read** does the same on every input. -/
theorem perform_of_ne_read {i : Instruction} (h : i.op ≠ .read)
    (frame : Frame) : Running.Unread (perform k i frame) := by
  intro s
  have hstep := fun input => step_of_ne_read (k := k) [] h 0 frame input
    (.ofBytes []) s
  unfold Running.UnreadAt perform
  dsimp only
  cases hs : step [] k i 0 frame (.ofBytes []) s with
  | goOn pc f input t =>
    refine .inl ⟨f, t, fun input => ?_⟩
    rw [hstep, hs]
    rfl
  | close input t =>
    refine .inl ⟨frame, t, fun input => ?_⟩
    rw [hstep, hs]
    rfl
  | descend pc child put resume f input =>
    refine .inl ⟨f, child, fun input => ?_⟩
    rw [hstep, hs]
    rfl
  | fail cause input t =>
    refine .inr ⟨cause, t, step_fail_of_ne_read h hs, fun input => ?_⟩
    rw [hstep, hs]
    rfl

/-- **An instruction that does not read** opens the same part on every input,
or none. -/
theorem opened_of_ne_read {i : Instruction} (h : i.op ≠ .read)
    (inner : Running σ Unit) (frame : Frame) (s : σ) :
    (∃ (child : σ) (put : σ → σ) (f : Frame), ∀ input,
        opened k i inner frame (input, s) = match inner (input, child) with
          | .ok () t => .ok f (t.1, put t.2)
          | .error cause t => .error cause (t.1, put t.2))
      ∨ (opened k i inner frame).UnreadAt s := by
  have hstep := fun input => step_of_ne_read (k := k) [] h 0 frame input
    (.ofBytes []) s
  unfold Running.UnreadAt opened
  dsimp only
  cases hs : step [] k i 0 frame (.ofBytes []) s with
  | descend pc child put resume f input =>
    refine .inl ⟨child, put, f, fun input => ?_⟩
    rw [hstep, hs]
    rfl
  | goOn pc f input t =>
    refine .inr (.inl ⟨f, t, fun input => ?_⟩)
    rw [hstep, hs]
    rfl
  | close input t =>
    refine .inr (.inl ⟨frame, t, fun input => ?_⟩)
    rw [hstep, hs]
    rfl
  | fail cause input t =>
    refine .inr (.inr ⟨cause, t, step_fail_of_ne_read h hs, fun input => ?_⟩)
    rw [hstep, hs]
    rfl

theorem perform_local (i : Instruction) (frame : Frame) :
    Running.Local (perform k i frame) := by
  by_cases hread : i.op = .read
  · rw [perform_of_read hread]
    cases Kind.ofOperand? i.operand with
    | none => exact .throw _
    | some kind => exact .reading (.frameRead frame kind)
  · exact .of_unread (perform_of_ne_read hread frame)

/-- **A part that is opened is local** if what is meant for it is. -/
theorem opened_local (i : Instruction) {inner : Running σ Unit}
    (hinner : inner.Local) (frame : Frame) :
    Running.Local (opened k i inner frame) := by
  by_cases hread : i.op = .read
  · rw [opened_of_read hread]
    exact perform_local i frame
  refine ⟨opened_consumes i hinner.consumes frame, ?_, ?_⟩
  · intro bytes kept input s t f h other
    rcases opened_of_ne_read (k := k) hread inner frame s with
      ⟨child, put, f', ho⟩ | hunread
    · rw [ho] at h ⊢
      cases hr : inner (input.prepend bytes, child) with
      | error cause u => rw [hr] at h; exact absurd h (by simp)
      | ok _ u =>
        obtain ⟨left, state⟩ := u
        rw [hr] at h
        obtain ⟨rfl, hs⟩ := EStateM.Result.ok.inj h
        obtain ⟨rfl, rfl⟩ := Prod.mk.inj hs
        rw [hinner.ok hr other]
    · exact hunread.local_ok h other
  · intro bytes kept input s t cause hcause h other
    rcases opened_of_ne_read (k := k) hread inner frame s with
      ⟨child, put, f', ho⟩ | hunread
    · rw [ho] at h ⊢
      cases hr : inner (input.prepend bytes, child) with
      | ok _ u => rw [hr] at h; exact absurd h (by simp)
      | error cause' u =>
        obtain ⟨left, state⟩ := u
        rw [hr] at h
        obtain ⟨rfl, hs⟩ := EStateM.Result.error.inj h
        obtain ⟨rfl, rfl⟩ := Prod.mk.inj hs
        rw [hinner.error hcause hr other]
    · exact hunread.local_error h other

/-! ## Plans -/

theorem evalClosed_local : EvalClosed k limit (fun _ => True)
    (fun _ => True) Running.Local where
  toLoopClosed := Running.Local.loopClosed
  blocks := .blocks
  halt _ := .throw _
  tooDeep := .throw _
  perform _ frame := perform_local _ frame
  opened _ hinner frame :=
    opened_local _ (.bind hinner fun _ => .calling _) frame
  set _ := .calling _

/-- **Evaluation of a plan is local.** -/
theorem eval_local (levels : Nat) (plan : Plan) (frame : Frame) :
    Running.Local (eval k limit body levels plan frame) :=
  evalClosed_local.eval (fun d _ => uses_anything (body d)) levels
    (uses_anything plan) frame

/-- What runs below is local. -/
theorem beneath_evalBelow_local (levels : Nat) (plan : Plan) :
    Running.Local (beneath limit (evalBelow k limit body levels) plan) :=
  evalClosed_local.beneath_evalBelow (fun d _ => uses_anything (body d))
    levels (uses_anything plan)

end Plan

end Avro
