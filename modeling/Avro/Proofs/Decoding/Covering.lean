import Avro.Proofs.Decoding.Records
import Avro.Proofs.Plan.Locality

/-!
# Computations that cover others

One computation covers another if it reads what the other reads
(`Running.CoveredBy`): where the other succeeds it succeeds and leaves the same
input, and where the other fails because the input ends it fails at the same
place. Nothing is said of the other failures, so what covers may look at less:
a text need not be text, and a sink that refuses is not noticed.

Of interest is a plan on a sink and a computation without a sink that skips
(`Plan.Covered`). The levels that are left to the two are not the same. What a
plan opens takes a level and is nothing to skipping, so skipping has at least as
many, and more after every part that is opened (`Plan.Covered.within`).
-/

namespace Avro

/-- Whether a run has failed because the input ended. -/
def ExecutionCause.AtEnd (cause : ExecutionCause) : Prop :=
  ∃ ending : Ending, cause = .decode ending.error

namespace Running

variable {σ τ α β α' β' : Type}

/-- **A computation is covered by another one**: where it succeeds, the other
one succeeds and leaves the same input, and where it fails because the input
ends, the other one does. -/
def CoveredBy (Rel : α → β → Prop) (m : Running σ α) (n : Running τ β) :
    Prop :=
  ∀ input s t,
    match m (input, s) with
    | .ok a u => ∃ b t', n (input, t) = .ok b (u.1, t') ∧ Rel a b
    | .error cause u =>
      cause.AtEnd → ∃ t', n (input, t) = .error cause (u.1, t')

namespace CoveredBy

variable {Rel : α → β → Prop} {Rel' : α' → β' → Prop}

theorem pure {a : α} {b : β} (h : Rel a b) :
    CoveredBy Rel (Pure.pure a : Running σ α) (Pure.pure b : Running τ β) :=
  fun _ _ t => ⟨b, t, rfl, h⟩

/-- A failure for another reason is covered by anything. -/
theorem throw {cause : ExecutionCause} (h : ¬ cause.AtEnd)
    (n : Running τ β) : CoveredBy Rel (throw cause : Running σ α) n :=
  fun _ _ _ hend => absurd hend h

theorem bind {m : Running σ α} {n : Running τ β} {f : α → Running σ α'}
    {g : β → Running τ β'} (hm : CoveredBy Rel m n)
    (hf : ∀ a b, Rel a b → CoveredBy Rel' (f a) (g b)) :
    CoveredBy Rel' (m >>= f) (n >>= g) := by
  intro input s t
  have h := hm input s t
  cases hr : m (input, s) with
  | error cause u =>
    rw [hr] at h
    rw [bind_error hr]
    intro hend
    obtain ⟨t', hn⟩ := h hend
    exact ⟨t', bind_error hn⟩
  | ok a u =>
    rw [hr] at h
    obtain ⟨b, t', hn, hrel⟩ := h
    rw [bind_ok hr, bind_ok hn]
    exact hf a b hrel u.1 u.2 t'

theorem ite {c : Prop} [Decidable c] {m m' : Running σ α}
    {n n' : Running τ β} (h : CoveredBy Rel m n) (h' : CoveredBy Rel m' n') :
    CoveredBy Rel (if c then m else m') (if c then n else n') := by
  split
  · exact h
  · exact h'

/-- What does not read is covered by what does nothing, in front of the rest
of a computation. -/
theorem of_unread_bind {m : Running σ α'} (hm : m.Unread)
    {f : α' → Running σ α} {n : Running τ β}
    (hf : ∀ a, CoveredBy Rel (f a) n) : CoveredBy Rel (m >>= f) n := by
  intro input s t
  rcases hm s with ⟨a, s', hm⟩ | ⟨cause, s', hcause, hm⟩
  · rw [bind_ok (hm input)]
    exact hf a input s' t
  · rw [bind_error (hm input)]
    rintro ⟨ending, hend⟩
    exact absurd hend (hcause _)

/-- What does not read is covered by what does nothing, behind a
computation. -/
theorem bind_unread {m : Running σ α} {n : Running τ β}
    (hm : CoveredBy Rel m n) {f : α → Running σ α'}
    (hf : ∀ a, (f a).Unread) : CoveredBy (fun _ _ => True) (m >>= f) n := by
  intro input s t
  have h := hm input s t
  cases hr : m (input, s) with
  | error cause u =>
    rw [hr] at h
    rw [bind_error hr]
    exact h
  | ok a u =>
    rw [hr] at h
    obtain ⟨b, t', hn, -⟩ := h
    rw [bind_ok hr]
    rcases hf a u.2 with ⟨a', s', hf⟩ | ⟨cause, s', hcause, hf⟩
    · rw [hf u.1]
      exact ⟨b, t', hn, trivial⟩
    · rw [hf u.1]
      rintro ⟨ending, hend⟩
      exact absurd hend (hcause _)

/-- A read covers itself, on every sink. -/
theorem reading (m : Read α) :
    CoveredBy Eq (Running.reading m : Running σ α)
      (Running.reading m : Running τ α) := by
  intro input s t
  cases hr : m input with
  | ok a left =>
    rw [reading_ok hr]
    exact ⟨a, t, reading_ok hr, rfl⟩
  | error e left =>
    rw [reading_error hr]
    exact fun _ => ⟨t, reading_error hr⟩

theorem rounds {Any : Unit → Unit → Prop} {round : Running σ Unit}
    {round' : Running τ Unit} (h : CoveredBy Any round round') :
    ∀ count, CoveredBy Eq (Running.rounds round count)
      (Running.rounds round' count)
  | 0 => pure rfl
  | count + 1 => bind h (fun _ _ _ => rounds h count)

theorem blockCount :
    CoveredBy Eq (Running.blockCount : Running σ Nat)
      (Running.blockCount : Running τ Nat) := by
  refine bind (reading _) ?_
  rintro n _ rfl
  exact ite (bind (reading _) (fun _ _ _ => pure rfl)) (pure rfl)

theorem blocksWithin {Any : Unit → Unit → Prop} {round : Running σ Unit}
    {round' : Running τ Unit} (h : CoveredBy Any round round') :
    ∀ more, CoveredBy Eq (Running.blocksWithin round more)
      (Running.blocksWithin round' more)
  | 0 => fun _ _ t _ => ⟨t, rfl⟩
  | more + 1 => by
    refine bind blockCount ?_
    rintro count _ rfl
    exact ite (pure rfl)
      (bind (rounds h count) (fun _ _ _ => blocksWithin h more))

/-- **A loop over blocks is covered** by a loop whose rounds cover its
rounds. -/
theorem blocks {Any : Unit → Unit → Prop} {round : Running σ Unit}
    {round' : Running τ Unit} (h : CoveredBy Any round round') :
    CoveredBy Eq (Running.blocks round) (Running.blocks round') :=
  fun input s t => blocksWithin h (input.rest.length + 1) input s t

end CoveredBy

end Running

/-! ## Computations without a sink -/

namespace Decoding

open Running (CoveredBy)

variable {σ τ α β : Type} {limit : Nat}

/-- A computation without a sink, on a sink that it leaves alone. -/
def onInput (m : EStateM ExecutionCause Input α) : Running τ α := fun s =>
  match m s.1 with
  | .ok a left => .ok a (left, s.2)
  | .error cause left => .error cause (left, s.2)

/-- One computation after another, on a sink. -/
theorem onInput_bind (m : Decoding α) (f : α → Decoding β) (levels : Nat) :
    (onInput ((m >>= f) levels) : Running τ β)
      = onInput (m levels) >>= fun a => onInput (f a levels) := by
  funext s
  simp only [onInput, bind, ReaderT.bind, EStateM.bind]
  cases m levels s.1 <;> rfl

/-- What succeeds on a sink succeeds without it. -/
theorem eq_ok_of_onInput {m : EStateM ExecutionCause Input α}
    {input left : Input} {t t' : τ} {a : α}
    (h : onInput m (input, t) = .ok a (left, t')) : m input = .ok a left := by
  unfold onInput at h
  dsimp only at h
  cases hr : m input with
  | error cause left' => rw [hr] at h; exact absurd h (by simp)
  | ok a' left' =>
    rw [hr] at h
    obtain ⟨rfl, hs⟩ := EStateM.Result.ok.inj h
    obtain ⟨rfl, -⟩ := Prod.mk.inj hs
    rfl

/-- What fails on a sink fails without it. -/
theorem eq_error_of_onInput {m : EStateM ExecutionCause Input α}
    {input left : Input} {t t' : τ} {cause : ExecutionCause}
    (h : onInput m (input, t) = .error cause (left, t')) :
    m input = .error cause left := by
  unfold onInput at h
  dsimp only at h
  cases hr : m input with
  | ok a left' => rw [hr] at h; exact absurd h (by simp)
  | error cause' left' =>
    rw [hr] at h
    obtain ⟨rfl, hs⟩ := EStateM.Result.error.inj h
    obtain ⟨rfl, -⟩ := Prod.mk.inj hs
    rfl

/-- A loop over blocks is covered if its rounds are. -/
theorem covered_blocks {round : Running σ Unit} {item : Decoding α}
    {levels : Nat}
    (h : CoveredBy (fun _ _ => True) round
      (onInput (deeper limit item levels) : Running Unit α)) :
    CoveredBy (fun _ _ => True) (Running.blocks round)
      (onInput (blocks limit item levels) : Running Unit (List α)) := by
  have hround : CoveredBy (fun _ _ => True) round
      (collecting (deeper limit item levels)) := by
    intro input s items
    have h := h input s ()
    unfold collecting
    cases hr : round (input, s) with
    | ok a u =>
      rw [hr] at h
      obtain ⟨b, t', hitem, -⟩ := h
      exact ⟨(), b :: items, by simp only [eq_ok_of_onInput hitem], trivial⟩
    | error cause u =>
      rw [hr] at h
      intro hend
      obtain ⟨t', hitem⟩ := h hend
      exact ⟨items, by simp only [eq_error_of_onInput hitem]⟩
  intro input s t
  have hloop := CoveredBy.blocks hround input s []
  unfold onInput blocks
  dsimp only
  cases hr : Running.blocks round (input, s) with
  | ok a u =>
    rw [hr] at hloop
    obtain ⟨b, t', hloop, -⟩ := hloop
    rw [hloop]
    exact ⟨t'.reverse, t, rfl, trivial⟩
  | error cause u =>
    rw [hr] at hloop
    intro hend
    obtain ⟨t', hloop⟩ := hloop hend
    rw [hloop]
    exact ⟨t, rfl⟩

end Decoding

/-- A kind is read like another one, as far as its bytes go. -/
def Kind.ReadLike (kind kind' : Kind) : Prop :=
  ∀ input,
    match kind.readValue input with
    | .ok _ left => ∃ v, kind'.readValue input = .ok v left
    | .error e left => (∃ ending : Ending, e = ending.error) →
      kind'.readValue input = .error e left

namespace Kind.ReadLike

/-- A kind is read like itself. -/
theorem refl (kind : Kind) : kind.ReadLike kind := by
  intro input
  cases kind.readValue input with
  | ok v left => exact ⟨v, rfl⟩
  | error e left => exact fun _ => rfl

/-- Kinds that are made of the same read are read alike. -/
theorem of_read {kind kind' : Kind} {α : Type} {m : Read α}
    {f g : α → Value} (h : kind.readValue = (do return f (← m)))
    (h' : kind'.readValue = (do return g (← m))) : kind.ReadLike kind' := by
  intro input
  rw [h, h']
  simp only [bind, EStateM.bind]
  cases m input with
  | ok a left => exact ⟨g a, rfl⟩
  | error e left => exact fun _ => rfl

/-- A text is read like the bytes of a text. -/
theorem string : Kind.string.ReadLike .bytes := by
  intro input
  simp only [Kind.readValue, Wire.readString, bind, EStateM.bind]
  cases Wire.readBytes input with
  | error e left => exact fun _ => rfl
  | ok b left =>
    dsimp only
    cases Wire.textOfBytes? b with
    | some text => exact ⟨_, rfl⟩
    | none =>
      rintro ⟨ending, hend⟩
      cases ending <;> simp [Ending.error] at hend

end Kind.ReadLike

namespace Plan

open Running (CoveredBy)
open Decoding (onInput deeper)

variable {σ : Type} {k : Sink σ} {limit levels levels' : Nat}
  {body : Demand → Plan}

variable (k limit levels levels' body) in
/-- **A plan is covered** by a computation that skips, which has levels of its
own. -/
def Covered (plan : Plan) (m : Decoding Unit) : Prop :=
  ∀ frame, CoveredBy (fun _ _ => True) (eval k limit body levels plan frame)
    (onInput (m levels') : Running Unit Unit)

/-- An instruction that opens a part opens it on every input, or on none. -/
theorem opened_of_opens {i : Instruction} (h : i.Opens)
    (inner : Running σ Unit) (frame : Frame) (s : σ) :
    (∃ (child : σ) (put : σ → σ) (f : Frame), ∀ input,
        opened k i inner frame (input, s) = match inner (input, child) with
          | .ok () t => .ok f (t.1, put t.2)
          | .error cause t => .error cause (t.1, put t.2))
      ∨ ∃ cause t, (∀ e, cause ≠ .decode e) ∧ ∀ input,
        opened k i inner frame (input, s) = .error cause (input, t) := by
  have hread : i.op ≠ .read := by
    obtain h | h | h := h <;> rw [h] <;> nofun
  have hstep := fun input => step_of_ne_read (k := k) [] hread 0 frame
    input (.ofBytes []) s
  unfold opened
  dsimp only
  rcases step_opens [] k 0 frame (.ofBytes []) s h with
    ⟨child, put, f, input', h0, -⟩ | ⟨cause, input', t, h0, -⟩
  · refine .inl ⟨child, put, f, fun input => ?_⟩
    rw [hstep, h0]
    rfl
  · refine .inr ⟨cause, t, step_fail_of_ne_read hread h0, fun input => ?_⟩
    rw [hstep, h0]
    rfl

/-- What is run first and what is run second. -/
theorem eval_seq (first second : Plan) (frame : Frame) :
    eval k limit body levels (.seq first second) frame
      = (do
        let frame ← eval k limit body levels first frame
        eval k limit body levels second frame) := by
  simp only [eval_eq]
  rw [evalWith]

namespace Covered

variable {first second plan : Plan} {m n : Decoding Unit} {i : Instruction}

theorem nothing :
    Covered k limit levels levels' body .nothing (Pure.pure ()) := by
  intro frame
  rw [eval_eq, evalWith]
  exact CoveredBy.pure (b := ()) trivial

theorem seq (h : Covered k limit levels levels' body first m)
    (h' : Covered k limit levels levels' body second n) :
    Covered k limit levels levels' body (.seq first second) (do m; n) := by
  intro frame
  have heq := Decoding.onInput_bind (τ := Unit) m (fun _ => n) levels'
  rw [eval_seq, heq]
  exact .bind (h frame) fun frame _ _ => h' frame

/-- One plan after another in a sequence. -/
theorem sequence_cons {rest : List Plan}
    (h : Covered k limit levels levels' body first m)
    (h' : Covered k limit levels levels' body (Code.sequence rest) n) :
    Covered k limit levels levels' body (Code.sequence (first :: rest))
      (do m; n) := by
  intro frame
  rw [eval_sequence_cons, Decoding.onInput_bind]
  exact .bind (h frame) fun frame _ _ => h' frame

/-- An instruction that does not read. -/
theorem unread_op (hi : i.op ≠ .read) (frame : Frame) :
    (eval k limit body levels (.op i) frame).Unread := by
  rw [eval_eq, evalWith]
  exact perform_of_ne_read hi frame

theorem op_seq (hi : i.op ≠ .read)
    (h : Covered k limit levels levels' body plan m) :
    Covered k limit levels levels' body (.seq (.op i) plan) m := by
  intro frame
  rw [eval_seq]
  exact .of_unread_bind (unread_op hi frame) h

theorem seq_op (h : Covered k limit levels levels' body plan m)
    (hi : i.op ≠ .read) :
    Covered k limit levels levels' body (.seq plan (.op i)) m := by
  intro frame
  rw [eval_seq]
  exact .bind_unread (h frame) (unread_op hi)

/-- A plan that is covered after an instruction that does not read. -/
theorem op (hi : i.op ≠ .read) :
    Covered k limit levels levels' body (.op i) (Pure.pure ()) := by
  intro frame
  rw [← bind_pure (eval k limit body levels (.op i) frame)]
  exact .of_unread_bind (unread_op hi frame) fun _ =>
    CoveredBy.pure (b := ()) trivial

/-- A read is covered by reading the bytes. -/
theorem read {kind kind' : Kind}
    (hkind : Kind.ofOperand? kind.operand = some kind)
    (h : kind.ReadLike kind') (label : String) :
    Covered k limit levels levels' body (Plan.read kind label) kind'.skip := by
  intro frame input s t
  have h := h input
  rw [eval_read hkind]
  simp only [onInput, Kind.skip, Decoding.reading, bind, ReaderT.bind,
    EStateM.bind]
  cases hr : kind.readValue input with
  | ok v left =>
    rw [hr] at h
    obtain ⟨v', hv⟩ := h
    rw [hv]
    exact ⟨(), t, rfl, trivial⟩
  | error e left =>
    rw [hr] at h
    rintro ⟨ending, hend⟩
    rw [h ⟨ending, ExecutionCause.decode.inj hend⟩]
    exact ⟨t, rfl⟩

/-- **A level below is covered** by a level below. -/
theorem beneath (hle : levels ≤ levels')
    (h : ∀ l l', levels = l + 1 → l ≤ l' → Covered k limit l l' body plan m) :
    CoveredBy (fun _ _ => True)
      (Plan.beneath limit (evalBelow k limit body levels) plan)
      (onInput (deeper limit m levels') : Running Unit Unit) := by
  cases levels with
  | zero => exact .throw (by rintro ⟨_, ⟨⟩⟩) _
  | succ l =>
    obtain ⟨l', rfl⟩ : ∃ l', levels' = l' + 1 := ⟨levels' - 1, by omega⟩
    exact .bind_unread (h l l' rfl (by omega) .blank) fun _ => .pure ()

/-- **What a plan opens is nothing to skipping.** -/
theorem within (hi : i.Opens)
    (h : ∀ l, levels = l + 1 → Covered k limit l levels' body plan m)
    (label : String) :
    Covered k limit levels levels' body (.within i label plan) m := by
  have hpart : CoveredBy (fun _ _ => True)
      (beneathPart k limit (evalBelow k limit body levels) plan)
      (onInput (m levels') : Running Unit Unit) := by
    cases levels with
    | zero => exact .throw (by rintro ⟨_, ⟨⟩⟩) _
    | succ l =>
      exact .bind_unread (.bind_unread (h l rfl .blank)
        fun _ => .pure ()) fun _ => .calling _
  intro frame input s t
  rw [eval_eq, evalWith]
  rcases opened_of_opens (k := k) hi (beneathPart k limit
      (evalBelow k limit body levels) plan) frame s with
    ⟨child, put, f, ho⟩ | ⟨cause, s', hcause, ho⟩
  · have hpart := hpart input child t
    rw [ho]
    cases hr : beneathPart k limit (evalBelow k limit body levels) plan
        (input, child) with
    | ok _ u => rw [hr] at hpart; exact hpart
    | error cause u => rw [hr] at hpart; exact hpart
  · rw [ho]
    rintro ⟨ending, hend⟩
    exact absurd hend (hcause _)

/-- A field or branch that is entered. What is null is not opened. -/
theorem entering {r : TypeExpr} {index : Nat}
    (h : ∀ l, l ≤ levels → Covered k limit l levels' body plan m)
    (label : String) :
    Covered k limit levels levels' body (Plan.entering r index label plan)
      m := by
  unfold Plan.entering
  split
  · exact h levels (Nat.le_refl _)
  · exact .within (.inl rfl) (fun l hl => h l (by omega)) label

/-- A loop over blocks is covered item by item. -/
theorem blocks (hle : levels ≤ levels')
    (h : ∀ l l', levels = l + 1 → l ≤ l' → Covered k limit l l' body plan m)
    (label : String) :
    Covered k limit levels levels' body (.blocks label plan)
      (do let _ ← Decoding.blocks limit m) := by
  intro frame
  rw [eval_eq, evalWith, Decoding.onInput_bind]
  exact .bind (Decoding.covered_blocks (beneath hle h)) fun _ _ _ =>
    CoveredBy.pure (b := ()) trivial

/-- A call of a method. -/
theorem call (hle : levels ≤ levels') {demand : Demand}
    (h : ∀ l l', levels = l + 1 → l ≤ l' →
      Covered k limit l l' body (body demand) m) :
    Covered k limit levels levels' body (.call demand) (deeper limit m) := by
  intro frame
  rw [eval_eq, evalWith]
  exact .bind_unread (beneath hle h) fun _ => .pure frame

end Covered

end Plan

end Avro
