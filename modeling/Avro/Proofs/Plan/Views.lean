import Avro.Proofs.Plan.Performs
import Avro.Proofs.Machine.Requests
import Avro.Proofs.Program.Feeding
import Avro.Sink.Slot

/-!
# What a run cannot change

A sink may have something that no call on it changes, and that a part which is
put back leaves as it was if the part itself was left as it was
(`Sink.Keeps`). A plan cannot change it then either, whatever it reads and
wherever it stops (`Plan.evalClosed_keepsView`).

Of a slot, that is its outline: what is left when its content is taken away.
A slot of a kind stays a slot of the kind, and so do the parts of a record.
-/

namespace Avro

variable {σ τ α β : Type}

/-! ## Sinks -/

/-- **A call on a sink keeps a view of it**, also when it is refused. -/
def SinkEffect.Keeps (view : σ → τ) (m : SinkEffect σ α) : Prop :=
  ∀ s,
    match m s with
    | .ok _ t | .error _ t => view t = view s

/-- **The calls on a sink keep a view of it.** -/
structure Sink.Keeps (k : Sink σ) (view : σ → τ) : Prop where
  /-- Delivering a scalar keeps it. -/
  set : ∀ x, (k.set x).Keeps view
  /-- Giving a field its default keeps it. -/
  setDefault : ∀ index, (k.setDefault index).Keeps view
  /-- A part that is put back as it was opened keeps it. -/
  enter : ∀ part s, match k.enter part s with
    | .ok close child => ∀ child', view child' = view child →
      view (close child') = view s
    | .error _ t => view t = view s
  /-- Ending a part keeps it. -/
  finalize : k.finalize.Keeps view

/-! ## Computations -/

namespace Running

/-- **A computation keeps a view of the sink**, also when it fails. -/
def KeepsView (view : σ → τ) (m : Running σ α) : Prop :=
  ∀ s,
    match m s with
    | .ok _ t | .error _ t => view t.2 = view s.2

variable {view : σ → τ}

/-- What keeps the sink keeps every view of it. -/
theorem KeepsSink.keepsView {m : Running σ α} (h : m.KeepsSink) :
    m.KeepsView view := by
  intro s
  have hs := h s
  cases hr : m s <;> rw [hr] at hs <;> exact congrArg view hs

namespace KeepsView

theorem bind {m : Running σ α} {f : α → Running σ β} (hm : m.KeepsView view)
    (hf : ∀ a, (f a).KeepsView view) : (m >>= f).KeepsView view := by
  intro s
  have h := hm s
  cases hr : m s with
  | error cause t =>
    rw [bind_error hr]
    rw [hr] at h
    exact h
  | ok a t =>
    rw [bind_ok hr]
    rw [hr] at h
    have h' := hf a t
    cases hr' : f a t with
    | error cause u => rw [hr'] at h'; exact h'.trans h
    | ok b u => rw [hr'] at h'; exact h'.trans h

theorem calling {m : SinkEffect σ α} (h : m.Keeps view) :
    (Running.calling m).KeepsView view := by
  intro s
  have hs := h s.2
  unfold Running.calling
  cases hr : m s.2 <;> rw [hr] at hs <;> exact hs

theorem loopClosed : LoopClosed (σ := σ) (KeepsView view) :=
  ⟨fun a => (KeepsSink.pure a).keepsView, bind,
    (KeepsSink.reading _).keepsView, (KeepsSink.throw _).keepsView⟩

theorem blocks {round : Running σ Unit} (h : round.KeepsView view) :
    (Running.blocks round).KeepsView view :=
  fun s => loopClosed.blocksWithin h (s.1.rest.length + 1) s

end KeepsView

end Running

/-! ## Plans -/

namespace Plan

open Running (KeepsSink KeepsView calling)

variable {k : Sink σ} {view : σ → τ} {limit : Nat}

/-- An instruction that stays on its level keeps what the calls keep. -/
theorem keeps_perform (hk : k.Keeps view) {i : Instruction} (h : i.Plain)
    (frame : Frame) : (perform k i frame).KeepsView view := by
  intro s
  obtain ⟨request, hasks, hmeets⟩ := step_meets [] i 0 frame s.1
  unfold perform
  rw [hmeets k s.2]
  unfold Instruction.Plain at h
  generalize i.op = op at h hasks
  cases hasks with
  | @set x =>
    have hset := hk.set x s.2
    dsimp only [Request.meet]
    cases hr : k.set x s.2 <;> rw [hr] at hset <;> exact hset
  | @setDefault index =>
    have hset := hk.setDefault index s.2
    dsimp only [Request.meet]
    cases hr : k.setDefault index s.2 <;> rw [hr] at hset <;> exact hset
  | fail => rfl
  | @nothing _ next => cases next <;> rfl
  | enter opens => rcases opens with rfl | rfl | rfl <;> simp at h
  | exit => simp at h

/-- **A part that is opened keeps what the calls keep**, if what is done to the
part does. -/
theorem keeps_opened (hk : k.Keeps view) {i : Instruction} (h : i.Opens)
    {inner : Running σ Unit} (hinner : inner.KeepsView view) (frame : Frame) :
    (opened k i inner frame).KeepsView view := by
  intro s
  obtain ⟨request, hasks, hmeets⟩ := step_meets [] i 0 frame s.1
  unfold opened
  rw [hmeets k s.2]
  unfold Instruction.Opens at h
  generalize i.op = op at h hasks
  cases hasks with
  | nothing field item entry =>
    rcases h with h | h | h
    · exact absurd h field
    · exact absurd h item
    · exact absurd h entry
  | fail => rfl
  | set | setDefault | exit => simp at h
  | @enter _ part _ _ input =>
    have henter := hk.enter part s.2
    dsimp only [Request.meet]
    cases hr : k.enter part s.2 with
    | error e t =>
      rw [hr] at henter
      exact henter
    | ok close child =>
      rw [hr] at henter
      have hpart := hinner (input, child)
      dsimp only [afterOpening]
      cases hr' : inner (input, child) with
      | error cause t => rw [hr'] at hpart; exact henter _ hpart
      | ok _ t => rw [hr'] at hpart; exact henter _ hpart

/-- **Evaluation keeps what the calls keep.** -/
theorem evalClosed_keepsView (hk : k.Keeps view) :
    EvalClosed k limit Instruction.Plain Instruction.Opens
      (KeepsView view) where
  toLoopClosed := KeepsView.loopClosed
  blocks := .blocks
  halt _ := (KeepsSink.throw _).keepsView
  tooDeep := (KeepsSink.throw _).keepsView
  perform h frame := keeps_perform hk h frame
  opened h hinner frame :=
    keeps_opened hk h (.bind hinner fun _ => .calling hk.finalize) frame
  set x := .calling (hk.set x)

end Plan

/-! ## Slots -/

namespace Slot

mutual

/-- **A slot without its content**: its kind, and the outlines of what it is
made of. -/
def outline : Slot → Slot
  | boolean _ => boolean false
  | int _ => int 0
  | long _ => long 0
  | float _ => float ⟨0⟩
  | double _ => double ⟨0⟩
  | string _ => string ""
  | bytes _ => bytes []
  | fixed b => zeros b.length
  | array blank _ => array (outline blank) []
  | map blank _ => map (outline blank) []
  | record name fields => record name (outlines fields)

/-- The outlines of slots. -/
def outlines : List Slot → List Slot
  | [] => []
  | slot :: rest => outline slot :: outlines rest

end

theorem outlines_eq_map : ∀ fields : List Slot, outlines fields = fields.map outline
  | [] => rfl
  | slot :: rest => by rw [outlines, outlines_eq_map rest, List.map_cons]

/-- **Putting back a field of the same outline** keeps the outline of a
record. -/
theorem outline_set_field (name : String) {fields : List Slot} {index : Nat}
    {field child : Slot} (hfield : fields[index]? = some field)
    (h : child.outline = field.outline) :
    (record name (fields.set index child)).outline
      = (record name fields).outline := by
  have hsame : (fields.map outline).set index field.outline
      = fields.map outline := by
    refine List.ext_getElem? fun i => ?_
    by_cases hi : i = index
    · subst hi
      have hlt : i < (fields.map outline).length := by
        rw [List.length_map]
        exact (List.getElem?_eq_some_iff.mp hfield).1
      rw [List.getElem?_set_self hlt, List.getElem?_map, hfield]
      rfl
    · rw [List.getElem?_set_ne (Ne.symm hi)]
  rw [outline, outline, outlines_eq_map, outlines_eq_map, List.map_set, h, hsame]

/-- **The outline of a slot never changes.** -/
theorem keeps_outline : sink.Keeps outline where
  set x s := by
    cases s with
    | fixed held =>
      cases x with
      | bytes b =>
        dsimp only [sink, set]
        by_cases hlength : b.length = held.length
        · rw [if_pos hlength]
          simp only [Sink.accept, outline, hlength]
        · rw [if_neg hlength]
          rfl
      | _ => rfl
    | _ => cases x <;> rfl
  setDefault _ _ := rfl
  enter part s := by
    cases s with
    | array blank latest =>
      cases part with
      | item => exact fun _ _ => rfl
      | _ => rfl
    | map blank entries =>
      cases part with
      | entry key => exact fun _ _ => rfl
      | _ => rfl
    | record name fields =>
      cases part with
      | field index =>
        dsimp only [sink, enter]
        cases hfield : fields[index]? with
        | none => rfl
        | some field => exact fun child' h => outline_set_field name hfield h
      | _ => rfl
    | _ => cases part <;> rfl
  finalize _ := rfl

end Slot

end Avro
