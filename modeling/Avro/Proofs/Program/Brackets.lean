import Avro.Proofs.Machine.Failing
import Avro.Proofs.Program.Termination

/-!
# Compiled programs call their sinks in brackets

Levels are opened for parts of the sink, for calls of methods and for rounds of
loops, and only the first have a sink of their own. All of them are closed by
whichever closing instruction comes first, and nothing in the machine sees to
it that this is the right one.

In a plan, a part of the sink is one node of the tree: it is opened, what is
meant for it is done, and it is ended. So the calls that evaluation makes are
in brackets (`Plan.evalClosed_brackets`), and a program makes the calls of its
plan. A run that succeeds is well bracketed; one that fails has made the first
of some calls that are well bracketed, and none after the instruction that
failed (`compile_brackets`).
-/

namespace Avro

namespace Placed

variable {σ : Type}

/-- **A sink has received calls in brackets** between two states. -/
def Advances (s t : Placed σ) : Prop :=
  t.place = s.place ∧ ∃ calls, t.calls = s.calls ++ calls
    ∧ Bracketed s.place s.opened calls t.opened

/-- **A sink has received the first of some calls in brackets** between two
states. -/
def Breaks (s t : Placed σ) : Prop :=
  ∃ calls more n, t.calls = s.calls ++ calls
    ∧ Bracketed s.place s.opened (calls ++ more) n

/-- Nothing was done. -/
theorem Advances.refl (s : Placed σ) : s.Advances s :=
  ⟨rfl, [], (List.append_nil _).symm, .nil⟩

theorem Advances.trans {s t u : Placed σ} (h : s.Advances t)
    (h' : t.Advances u) : s.Advances u := by
  obtain ⟨hplace, calls, hcalls, hbrackets⟩ := h
  obtain ⟨hplace', calls', hcalls', hbrackets'⟩ := h'
  rw [hplace] at hbrackets'
  exact ⟨hplace'.trans hplace, calls ++ calls',
    by rw [hcalls', hcalls, List.append_assoc], hbrackets.append hbrackets'⟩

/-- Calls in brackets are the first of themselves. -/
theorem Advances.breaks {s t : Placed σ} (h : s.Advances t) : s.Breaks t := by
  obtain ⟨-, calls, hcalls, hbrackets⟩ := h
  exact ⟨calls, [], t.opened, hcalls, (List.append_nil calls).symm ▸ hbrackets⟩

theorem Advances.trans_breaks {s t u : Placed σ} (h : s.Advances t)
    (h' : t.Breaks u) : s.Breaks u := by
  obtain ⟨hplace, calls, hcalls, hbrackets⟩ := h
  obtain ⟨calls', more, n, hcalls', hbrackets'⟩ := h'
  rw [hplace] at hbrackets'
  exact ⟨calls ++ calls', more, n, by rw [hcalls', hcalls, List.append_assoc],
    List.append_assoc .. ▸ hbrackets.append hbrackets'⟩

/-- What a result says about the calls that were made since a state. -/
def Since {ε ι α : Type} (s : Placed σ) :
    EStateM.Result ε (ι × Placed σ) α → Prop
  | .ok _ t => s.Advances t.2
  | .error _ t => s.Breaks t.2

/-- A part that was opened, used and ended is in brackets. -/
theorem Advances.part {s child below t : Placed σ} {part : Opening}
    (hchild : child.latest = .opening s.place s.opened part :: s.latest)
    (hplace : child.place = s.next) (hopened : child.opened = 0)
    (hbelow : child.Advances below)
    (ht : t.latest = .ending s.next :: below.latest)
    (hback : t.place = s.place) (hnext : t.opened = s.opened + 1) :
    s.Advances t := by
  obtain ⟨-, calls, hcalls, hbrackets⟩ := hbelow
  rw [hplace, hopened] at hbrackets
  refine ⟨hback, .opening s.place s.opened part
    :: (calls ++ [.ending s.next]), ?_, hnext ▸ hbrackets.within⟩
  unfold Placed.calls at hcalls ⊢
  rw [ht, List.reverse_cons, hcalls, hchild, List.reverse_cons]
  simp

/-- A part that was opened and used is the beginning of something in
brackets. -/
theorem Breaks.part {s child t : Placed σ} {part : Opening}
    (hchild : child.latest = .opening s.place s.opened part :: s.latest)
    (hplace : child.place = s.next) (hopened : child.opened = 0)
    (ht : child.Breaks t) {u : Placed σ} (hu : u.latest = t.latest) :
    s.Breaks u := by
  obtain ⟨calls, more, n, hcalls, hbrackets⟩ := ht
  rw [hplace, hopened] at hbrackets
  refine ⟨.opening s.place s.opened part :: calls, more ++ [.ending s.next],
    s.opened + 1, ?_, ?_⟩
  · unfold Placed.calls at hcalls ⊢
    rw [hu, hcalls, hchild, List.reverse_cons, List.append_assoc]
    rfl
  · rw [List.cons_append, ← List.append_assoc]
    exact hbrackets.within

end Placed

namespace Running

variable {σ α β : Type}

/-- **A computation makes calls in brackets**, or the first of some if it
fails. -/
def Brackets (m : Running (Placed σ) α) : Prop :=
  ∀ s : Input × Placed σ, s.2.Since (m s)

namespace Brackets

theorem pure (a : α) : Brackets (Pure.pure a : Running (Placed σ) α) :=
  fun s => .refl s.2

theorem throw (cause : ExecutionCause) :
    Brackets (throw cause : Running (Placed σ) α) :=
  fun s => (Placed.Advances.refl s.2).breaks

theorem bind {m : Running (Placed σ) α} {f : α → Running (Placed σ) β}
    (hm : Brackets m) (hf : ∀ a, Brackets (f a)) : Brackets (m >>= f) := by
  intro s
  have h := hm s
  cases hr : m s with
  | error cause t =>
    rw [bind_error hr]
    rw [hr] at h
    exact h
  | ok a t =>
    rw [bind_ok hr]
    rw [hr] at h
    have h' := hf a t
    cases hr' : f a t with
    | error cause u => rw [hr'] at h'; exact h.trans_breaks h'
    | ok b u => rw [hr'] at h'; exact h.trans h'

theorem reading (m : Read α) :
    Brackets (Running.reading m : Running (Placed σ) α) := by
  intro s
  unfold Running.reading
  cases m s.1 with
  | error e left => exact (Placed.Advances.refl s.2).breaks
  | ok a left => exact .refl s.2

/-- A call that delivers something, whether it is taken or refused. -/
theorem pass (call : SinkCall) (delivers : call.Delivers)
    (m : SinkEffect σ Unit) :
    Brackets (Running.calling (Placed.pass call m)) := by
  intro s
  have hone : ∀ plain, s.2.Advances ⟨plain, s.2.place, s.2.opened,
      ⟨s.2.place, call, none⟩ :: s.2.latest⟩ := fun plain =>
    ⟨rfl, [⟨s.2.place, call, none⟩], List.reverse_cons, .single delivers⟩
  unfold Running.calling Placed.pass
  cases m s.2.plain with
  | ok _ plain => exact hone plain
  | error e plain => exact (hone plain).breaks

theorem loopClosed : LoopClosed (σ := Placed σ) Brackets :=
  ⟨pure, bind, reading _, throw _⟩

theorem blocks {round : Running (Placed σ) Unit} (h : Brackets round) :
    Brackets (Running.blocks round) :=
  fun s => loopClosed.blocksWithin h (s.1.rest.length + 1) s

/-- **What is done to a part, and its ending.** However the part is put back,
the sink on which it was opened has received calls in brackets. -/
theorem ended {k : Sink σ} {inner : Running (Placed σ) Unit}
    (h : inner.Brackets) (s child : Placed σ) (part : Opening)
    (hchild : child.latest = .opening s.place s.opened part :: s.latest)
    (hplace : child.place = s.next) (hopened : child.opened = 0)
    (input : Input) :
    match (do inner; calling k.placed.finalize : Running (Placed σ) Unit)
        (input, child) with
    | .ok _ t => ∀ u : Placed σ, u.latest = t.2.latest → u.place = s.place →
      u.opened = s.opened + 1 → s.Advances u
    | .error _ t => ∀ u : Placed σ, u.latest = t.2.latest → s.Breaks u := by
  have hbelow := h (input, child)
  cases hr : inner (input, child) with
  | error cause t =>
    rw [hr] at hbelow
    rw [bind_error hr]
    exact fun u hu => .part hchild hplace hopened hbelow hu
  | ok _ t =>
    rw [hr] at hbelow
    rw [bind_ok hr]
    have hending : t.2.place = s.next := hbelow.1.trans hplace
    dsimp only [calling, Sink.placed, Placed.pass]
    rw [hending]
    cases k.finalize t.2.plain with
    | ok _ plain =>
      exact fun u hu hback hnext =>
        .part hchild hplace hopened hbelow hu hback hnext
    | error e plain =>
      intro u hu
      have hadvances : s.Advances ⟨u.plain, s.place, s.opened + 1, u.latest⟩ :=
        .part hchild hplace hopened hbelow hu rfl rfl
      exact hadvances.breaks

end Brackets

end Running

/-! ## Plans -/

namespace Plan

open Running (calling)

variable {σ : Type} {k : Sink σ} {limit : Nat}

/-- An instruction that stays on its level delivers something, if it makes a
call. -/
theorem perform_brackets {i : Instruction} (h : i.Plain) (frame : Frame) :
    Running.Brackets (perform k.placed i frame) := by
  intro s
  obtain ⟨request, hasks, hmeets⟩ := step_meets [] i 0 frame s.1
  have hstep := hmeets k.placed s.2
  have hpass : ∀ (call : SinkCall) (_ : call.Delivers)
      (m : SinkEffect σ Unit) (pc : Nat) (frame' : Frame) (input : Input),
      step [] k.placed i 0 frame s.1 s.2
        = afterCall pc frame' input (Placed.pass call m s.2) →
      s.2.Since (perform k.placed i frame s) := by
    intro call delivers m pc frame' input hstep
    have hsince := Running.Brackets.pass call delivers m s
    unfold Running.calling at hsince
    unfold perform
    rw [hstep]
    cases hr : Placed.pass call m s.2 <;> rw [hr] at hsince <;> exact hsince
  unfold Instruction.Plain at h
  generalize i.op = op at h hasks
  cases hasks with
  | set => exact hpass (.set _) trivial _ _ _ _ hstep
  | setDefault => exact hpass (.setDefault _) trivial _ _ _ _ hstep
  | fail =>
    unfold perform
    rw [hstep]
    exact (Placed.Advances.refl s.2).breaks
  | @nothing _ next =>
    unfold perform
    rw [hstep]
    cases next with
    | fail => exact (Placed.Advances.refl s.2).breaks
    | goOn | descend | close => exact .refl s.2
  | enter opens => rcases opens with rfl | rfl | rfl <;> simp at h
  | exit => simp at h

/-- **A part that is opened and ended is in brackets** if what is done to it
is. -/
theorem opened_brackets {i : Instruction} (h : i.Opens)
    {inner : Running (Placed σ) Unit} (hinner : inner.Brackets)
    (frame : Frame) :
    Running.Brackets (opened k.placed i
      (do inner; calling k.placed.finalize) frame) := by
  intro s
  obtain ⟨request, hasks, hmeets⟩ := step_meets [] i 0 frame s.1
  have hstep := hmeets k.placed s.2
  unfold Instruction.Opens at h
  generalize i.op = op at h hasks
  unfold opened
  rw [hstep]
  cases hasks with
  | nothing field item entry =>
    rcases h with h | h | h
    · exact absurd h field
    · exact absurd h item
    · exact absurd h entry
  | fail => exact (Placed.Advances.refl s.2).breaks
  | set | setDefault | exit => simp at h
  | @enter _ part pc frame' input opens =>
    dsimp only [Request.meet]
    rw [show k.placed.enter part s.2 = Placed.enter part (k.enter part) s.2
      from rfl, Placed.enter]
    cases k.enter part s.2.plain with
    | error e plain =>
      -- A part that is refused is a beginning as well.
      exact ⟨[.opening s.2.place s.2.opened part], [.ending s.2.next],
        s.2.opened + 1, List.reverse_cons, .within .nil⟩
    | ok close plain =>
      dsimp only [afterOpening]
      generalize hchild : (⟨plain, s.2.next, 0,
        ⟨s.2.place, .enter part, some s.2.next⟩ :: s.2.latest⟩ : Placed σ)
        = child
      have hended := @Running.Brackets.ended _ k _ hinner s.2 child part
        (by rw [← hchild]; rfl) (by rw [← hchild]) (by rw [← hchild]) input
      cases hr : (do inner; calling k.placed.finalize :
          Running (Placed σ) Unit) (input, child) with
      | ok _ t => rw [hr] at hended; exact hended _ rfl rfl rfl
      | error cause t => rw [hr] at hended; exact hended _ rfl

/-- **Evaluation of plans makes calls in brackets.** -/
theorem evalClosed_brackets : EvalClosed k.placed limit Instruction.Plain
    Instruction.Opens Running.Brackets where
  toLoopClosed := Running.Brackets.loopClosed
  blocks := .blocks
  halt _ := .throw _
  tooDeep := .throw _
  perform h frame := perform_brackets h frame
  opened h hinner frame := opened_brackets h hinner frame
  set x := .pass (.set x) trivial _

end Plan

section Uses

variable {R : Demand → Prop} {messages : List String}

mutual

/-- A plan that has linked code is made of the instructions of plans. -/
theorem Linked.uses : ∀ {plan : Plan} {code : LinkedCode},
    Linked R messages plan code →
    plan.Uses Instruction.Plain Instruction.Opens R
  | _, _, .nothing => trivial
  | _, _, .op h | _, _, .call h => h
  | _, _, .seq h h' => ⟨h.uses, h'.uses⟩
  | _, _, .within hopens h => ⟨hopens, h.uses⟩
  | _, _, .blocks h => h.uses
  | _, _, .switch _ h => h.uses

theorem LinkedAll.uses : ∀ {cases : PlanCases} {cases' : LinkedCases},
    LinkedAll R messages cases cases' →
    Plan.AllUse Instruction.Plain Instruction.Opens R cases
  | _, _, .none => trivial
  | _, _, .case h h' => ⟨h.uses, h'.uses⟩

end

end Uses

/-! ## Programs -/

namespace Program

variable {σ τ : Type} {p : Program} {K : Sink τ} {k : Sink σ} {plain : τ → σ}
  {maxDepth : Nat}

/-- What a run yields with a sink, it yields with what the sink forgets to. -/
theorem Yields.forget (hforgets : K.Forgets k plain) {input : Input}
    {state : τ} {o : Outcome τ Unit}
    (h : p.Yields K maxDepth input state o) :
    p.Yields k maxDepth input (plain state) (o.forget plain) := by
  obtain ⟨enough, h⟩ := h
  refine ⟨enough, fun steps hsteps => ?_⟩
  rw [← run_forgets hforgets, h steps hsteps]
  rfl

/-- **The run of a program that realizes a plan calls its sink in
brackets.** -/
theorem Realizes.exists_brackets {body : Demand → Plan} {R : Demand → Prop}
    {address : String → Nat} (hp : p.Realizes body R address) {plan : Plan}
    {code : LinkedCode} {label : String}
    (hlinked : Linked R p.errors plan code)
    (hcode : p.Holds 0 (Code.lower address 0 code ++ [⟨.halt, 0, label⟩]))
    (k : Sink σ) (maxDepth : Nat) (input : Input) (state : σ) :
    ∃ o : Outcome (Placed σ) Unit,
      p.Yields k.placed maxDepth input (.start state) o
      ∧ match o.result with
        | .ok () => (Placed.start state).Advances o.state
        | .error _ => (Placed.start state).Breaks o.state := by
  have hbody : ∀ d, R d →
      (body d).Uses Instruction.Plain Instruction.Opens R := by
    intro d hd
    obtain ⟨_, _, hmethod, -⟩ := hp.method d hd
    exact hmethod.uses
  have hbrackets : Running.Brackets (Plan.eval k.placed maxDepth body maxDepth
      plan .blank) :=
    Plan.evalClosed_brackets.eval hbody maxDepth hlinked.uses .blank
  have hyields := hp.yields k.placed maxDepth hlinked hcode
    (input, .start state)
  have hcalls := hbrackets (input, .start state)
  cases hr : Plan.eval k.placed maxDepth body maxDepth plan .blank
      (input, .start state) with
  | ok frame t =>
    rw [hr] at hyields hcalls
    exact ⟨_, hyields, hcalls⟩
  | error cause t =>
    rw [hr] at hyields hcalls
    obtain ⟨e, -, hyields⟩ := hyields
    exact ⟨_, hyields, hcalls⟩

end Program

section

variable {writer reader : Schema} {p : Program}

/-- **Compiled programs call their sinks in brackets**, on every input and
whatever the sink is.

* If a run succeeds, its calls are well bracketed.
* If it fails, nothing follows the instruction that failed, and its calls are
  the first of some that are well bracketed. -/
theorem compile_brackets (h : compile writer reader = .ok p) (hfits : p.Fits)
    {σ : Type} (k : Sink σ) (maxDepth : Nat) (input : Input) (state : σ) :
    ∃ o : Outcome (Placed σ) Unit,
      p.Yields k.placed maxDepth input (.start state) o
      ∧ p.Yields k maxDepth input state (o.forget Placed.plain)
      ∧ match o.result with
        | .ok () => WellBracketed o.state.calls
        | .error e => p.FailsLast k maxDepth input state e o.state.calls
          ∧ ∃ more, WellBracketed (o.state.calls ++ more) := by
  obtain ⟨body, R, address, code, -, -, -, hp, hlinked, hcode⟩ :=
    Plan.program_realizes (encloses_ofRecords writer reader) h hfits
  obtain ⟨o, hyields, hcalls⟩ :=
    hp.exists_brackets hlinked hcode k maxDepth input state
  refine ⟨o, hyields, hyields.forget k.placed_forgets, ?_⟩
  obtain ⟨result, left, t⟩ := o
  cases result with
  | ok u =>
    obtain ⟨-, calls, hcalls, hbrackets⟩ := hcalls
    rw [show t.calls = calls from hcalls]
    exact hbrackets.wellBracketed
  | error e =>
    obtain ⟨calls, more, n, hcalls, hbrackets⟩ := hcalls
    obtain ⟨enough, hrun⟩ := hyields
    refine ⟨Program.run_failsLast (hrun enough (Nat.le_refl _)), more, ?_⟩
    rw [show t.calls = calls from hcalls]
    exact hbrackets.wellBracketed

end

namespace Person

/-- Runs that read persons are in brackets. -/
theorem runs_bracketed : ∃ p, compile writer reader = .ok p ∧ p.Fits
    ∧ ∀ (maxDepth : Nat) (input : Input), ∃ o : Outcome (Placed Builder) Unit,
      p.Yields (Builder.sink reader).placed maxDepth input
          (.start (Builder.fresh reader reader.root)) o
        ∧ p.Yields (Builder.sink reader) maxDepth input
          (Builder.fresh reader reader.root) (o.forget Placed.plain)
        ∧ match o.result with
          | .ok () => WellBracketed o.state.calls
          | .error e => p.FailsLast (Builder.sink reader) maxDepth input
              (Builder.fresh reader reader.root) e o.state.calls
            ∧ ∃ more, WellBracketed (o.state.calls ++ more) := by
  obtain ⟨p, hp⟩ := exists_compiled
  exact ⟨p, hp.compiled, hp.fits, fun maxDepth input =>
    compile_brackets hp.compiled hp.fits (Builder.sink reader) maxDepth input
      (Builder.fresh reader reader.root)⟩

end Person

end Avro
