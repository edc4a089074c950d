import Avro.Proofs.Plan.Soundness

/-!
# Emitting symbolic code

A plan can be walked without building a tree of linked code. The walk emits
symbolic code, giving the next number to each loop over blocks and each switch
that it meets (`Plan.emit`), and what it has emitted is then measured and
lowered (`compileSymbolic`). The number of methods that may be compiled inside
one another is a parameter.

Emitting shadows linking (`shadows_link`): it fails where linking fails, and
otherwise emits code that numbers the linked code. Numbers are given in their
order, so none is given twice, although the code of a method, which is emitted
where the method is first called, has numbers between those of its caller.
Hence the programs are the same (`compileSymbolic_eq_of_link`).
-/

namespace Avro

open Symbolic

/-! ## Emitting -/

/-- A computation that gives numbers, registers methods and messages, and may
reject. -/
abbrev Emitting (α : Type) := StateT Counters Assembling α

/-- Gives a number to a loop over blocks. -/
def nextBlock : Emitting Nat := fun numbers =>
  pure (numbers.blocks, { numbers with blocks := numbers.blocks + 1 })

/-- Gives a number to a switch. -/
def nextSwitch : Emitting Nat := fun numbers =>
  pure (numbers.switches, { numbers with switches := numbers.switches + 1 })

/-- A computation that gives no numbers. -/
def unnumbered {α : Type} (m : Assembling α) : Emitting α := fun numbers => do
  let a ← m
  return (a, numbers)

namespace Plan

mutual

/-- **Emits a plan**: its symbolic code, and the methods that are met in it for
the first time, in the order of their registration. `onCall` emits a call. -/
def emit (onCall : Demand → Emitting (String × List SymbolicMethod)) :
    Plan → Emitting (List Symbolic × List SymbolicMethod)
  | .nothing => return ([], [])
  | .seq first second => do
    let (first, methods) ← emit onCall first
    let (second, others) ← emit onCall second
    return (first ++ second, methods ++ others)
  | .op i => return ([.literal i], [])
  | .within opening label body => do
    let (body, methods) ← emit onCall body
    return (.literal opening :: (body ++ [.literal ⟨.exit, 0, label⟩]), methods)
  | .blocks label body => do
    let number ← nextBlock
    let (body, methods) ← emit onCall body
    return (.blockStart number label :: (body ++ [.blockEnd number label]),
      methods)
  | .switch label message cases => do
    let error ← unnumbered (registerMessage message)
    let number ← nextSwitch
    let (body, methods) ← emitCases onCall label number cases
    return (.switchStart number (Code.tags cases) error label ::
      (body ++ [.switchEnd number]), methods)
  | .call demand => do
    let (name, methods) ← onCall demand
    return ([.call name], methods)
  | .reject reason => unnumbered (throw reason)

/-- Emits the cases of a switch. -/
def emitCases (onCall : Demand → Emitting (String × List SymbolicMethod))
    (label : String) (number : Nat) :
    PlanCases → Emitting (List Symbolic × List SymbolicMethod)
  | .none => return ([], [])
  | .case tag delivered body rest => do
    let (body, methods) ← emit onCall body
    let (rest, others) ← emitCases onCall label number rest
    return (.switchCase number tag delivered label :: (body ++ rest),
      methods ++ others)

end

end Plan

/-- **Emits a call.** The plan of a method that is not registered yet is
emitted at once; at most `budget` methods are emitted inside one another. -/
def emitCall (writer reader : Schema) :
    (budget : Nat) → Demand → Emitting (String × List SymbolicMethod)
  | 0, demand =>
    unnumbered (throw (.internal s!"no method left for `{demand.methodName}`"))
  | budget + 1, demand => do
    let name := demand.methodName
    let registry ← unnumbered get
    if registry.methods.contains name then return (name, [])
    unnumbered (set { registry with methods := registry.methods ++ [name] })
    let (code, others) ←
      (demand.body writer reader).emit (emitCall writer reader budget)
    return (name,
      ⟨name, code ++ [.literal ⟨.return, 0, name⟩]⟩ :: others)

/-- **Compiles a pair of schemas by symbolic code**, at most `budget` methods
inside one another. -/
def compileSymbolic (budget : Nat) (writer reader : Schema) :
    Except CompileError Program :=
  match (mainPlan writer reader).emit (emitCall writer reader budget) ⟨0, 0⟩
    .empty with
  | .error e => .error e
  | .ok (((main, methods), numbers), registry) =>
    Symbolic.program numbers (main ++ [.literal ⟨.halt, 0, "end"⟩]) methods
      registry.messages

/-! ## Numbers that are given -/

/-- Whether a number was given between two states. -/
def Symbol.Between (first last : Counters) : Symbol → Prop
  | block number => first.blocks ≤ number ∧ number < last.blocks
  | switch number => first.switches ≤ number ∧ number < last.switches

/-- **Symbols have their numbers between two states**, each its own. -/
structure Allots (first last : Counters) (symbols : List Symbol) : Prop where
  /-- The numbers of loops over blocks grow. -/
  blocks_le : first.blocks ≤ last.blocks
  /-- The numbers of switches grow. -/
  switches_le : first.switches ≤ last.switches
  /-- No number is given twice. -/
  nodup : symbols.Nodup
  /-- The numbers are given in between. -/
  between : ∀ x ∈ symbols, x.Between first last

namespace Allots

variable {first second third : Counters} {symbols others all : List Symbol}

theorem nil (n : Counters) : Allots n n [] :=
  ⟨Nat.le_refl _, Nat.le_refl _, List.nodup_nil, nofun⟩

theorem block (n : Counters) :
    Allots n { n with blocks := n.blocks + 1 } [.block n.blocks] :=
  ⟨Nat.le_succ _, Nat.le_refl _, by simp, by
    simp [Symbol.Between]⟩

theorem switch (n : Counters) :
    Allots n { n with switches := n.switches + 1 } [.switch n.switches] :=
  ⟨Nat.le_refl _, Nat.le_succ _, by simp, by
    simp [Symbol.Between]⟩

/-- **What is numbered first and what is numbered then** have different
numbers, in whichever order they stand. -/
theorem trans (h : Allots first second symbols) (h' : Allots second third others)
    (hall : all.Perm (symbols ++ others)) : Allots first third all where
  blocks_le := Nat.le_trans h.blocks_le h'.blocks_le
  switches_le := Nat.le_trans h.switches_le h'.switches_le
  nodup := by
    refine hall.nodup_iff.mpr (List.nodup_append.mpr
      ⟨h.nodup, h'.nodup, fun x hx y hy heq => ?_⟩)
    have hx := h.between x hx
    have hy := h'.between y hy
    subst heq
    cases x <;> simp only [Symbol.Between] at hx hy <;> omega
  between := by
    intro x hx
    have hblocks := h'.blocks_le
    have hswitches := h'.switches_le
    have hfirst := h.blocks_le
    have hfirst' := h.switches_le
    rcases List.mem_append.mp (hall.mem_iff.mp hx) with hx | hx
    · have hx := h.between x hx
      cases x <;> simp only [Symbol.Between] at hx ⊢ <;> omega
    · have hx := h'.between x hx
      cases x <;> simp only [Symbol.Between] at hx ⊢ <;> omega

end Allots

/-! ## Emitting shadows linking -/

section

variable {α β γ δ : Type} {n n' : Counters} {m : Assembling α}
  {e : Emitting β} {R R' : Counters → α → β → Prop}

/-- **An emission shadows a walk**: it fails with the same reason, or it has
registered the same, and `R` says what it gives and which numbers come next. -/
def Shadows (n : Counters) (m : Assembling α) (e : Emitting β)
    (R : Counters → α → β → Prop) : Prop :=
  ∀ registry, match m registry with
    | .error reason => e n registry = .error reason
    | .ok (a, after) => ∃ b n', e n registry = .ok ((b, n'), after) ∧ R n' a b

namespace Shadows

theorem pure {a : α} {b : β} (h : R n a b) :
    Shadows n (Pure.pure a) (Pure.pure b) R :=
  fun _ => ⟨b, n, rfl, h⟩

/-- What gives no numbers is shadowed by itself. -/
theorem unnumbered (n : Counters) (m : Assembling α) :
    Shadows n m (Avro.unnumbered m) fun n' a b => n' = n ∧ b = a := by
  intro registry
  cases hr : m registry with
  | error reason =>
    show (m registry >>= _) = _
    rw [hr]
    rfl
  | ok result =>
    refine ⟨result.1, n, ?_, rfl, rfl⟩
    show (m registry >>= _) = _
    rw [hr]
    rfl

theorem bind {f : α → Assembling γ} {g : β → Emitting δ}
    {S : Counters → γ → δ → Prop} (h : Shadows n m e R)
    (hfg : ∀ n' a b, R n' a b → Shadows n' (f a) (g b) S) :
    Shadows n (m >>= f) (e >>= g) S := by
  intro registry
  have h := h registry
  simp only [Bind.bind, StateT.bind, Except.bind]
  cases hr : m registry with
  | error reason =>
    rw [hr] at h
    dsimp only
    rw [h]
  | ok result =>
    obtain ⟨a, after⟩ := result
    rw [hr] at h
    obtain ⟨b, n', he, hR⟩ := h
    rw [he]
    exact hfg n' a b hR after

/-- A number may be given first. -/
theorem block {g : Nat → Emitting β}
    (h : Shadows { n with blocks := n.blocks + 1 } m (g n.blocks) R) :
    Shadows n m (nextBlock >>= g) R := h

theorem switch {g : Nat → Emitting β}
    (h : Shadows { n with switches := n.switches + 1 } m (g n.switches) R) :
    Shadows n m (nextSwitch >>= g) R := h

end Shadows

end

/-- **What is emitted**, from some numbers on: code that numbers linked code,
methods that number methods, and each symbol with its own number. -/
structure Emitted (n n' : Counters) (linked : LinkedCode × List Method)
    (emitted : List Symbolic × List SymbolicMethod) : Prop where
  /-- The code. -/
  code : Numbered linked.1 emitted.1
  /-- The methods. -/
  methods : List.Forall₂ NumberedMethod linked.2 emitted.2
  /-- The numbers. -/
  allots : Allots n n'
    (opened emitted.1 ++ opened (emitted.2.flatMap (·.code)))

/-- What is emitted for the cases of a switch. -/
structure EmittedCases (label : String) (number : Nat) (cases : PlanCases)
    (n n' : Counters) (linked : LinkedCases × List Method)
    (emitted : List Symbolic × List SymbolicMethod) : Prop where
  /-- The code. -/
  code : NumberedCases label number linked.1 emitted.1
  /-- The tags are those of the plan. -/
  tags : Code.tags linked.1 = Code.tags cases
  /-- The methods. -/
  methods : List.Forall₂ NumberedMethod linked.2 emitted.2
  /-- The numbers. -/
  allots : Allots n n'
    (opened emitted.1 ++ opened (emitted.2.flatMap (·.code)))

/-- What is emitted for a call. -/
structure EmittedCall (n n' : Counters) (linked : String × List Method)
    (emitted : String × List SymbolicMethod) : Prop where
  /-- The name. -/
  name : emitted.1 = linked.1
  /-- The methods. -/
  methods : List.Forall₂ NumberedMethod linked.2 emitted.2
  /-- The numbers. -/
  allots : Allots n n' (opened (emitted.2.flatMap (·.code)))

/-- Parts of two walks, put side by side. -/
theorem perm_parts (code code' methods methods' : List Symbol) :
    (code ++ code' ++ (methods ++ methods')).Perm
      (code ++ methods ++ (code' ++ methods')) := by
  rw [List.append_assoc, List.append_assoc]
  exact (List.perm_append_comm_assoc code' methods methods').append_left code

section

variable {D : Demand → Prop}
  {onCall : Demand → Assembling (String × List Method)}
  {onCall' : Demand → Emitting (String × List SymbolicMethod)}

mutual

/-- **Emitting a plan shadows linking it.** -/
theorem shadows_link
    (hcall : ∀ d, D d → ∀ n, Shadows n (onCall d) (onCall' d) (EmittedCall n)) :
    ∀ plan : Plan, plan.Regular D → plan.Sound →
      ∀ n, Shadows n (plan.link onCall) (plan.emit onCall') (Emitted n)
  | .nothing, _, _, n => by
    rw [Plan.link, Plan.emit]
    exact .pure ⟨.nothing, .nil, .nil n⟩
  | .seq first second, hregular, hsound, n => by
    rw [Plan.link, Plan.emit]
    refine .bind (shadows_link hcall first hregular.1 hsound.1 n) ?_
    rintro n' ⟨code, methods⟩ ⟨code', methods'⟩ h
    refine .bind (shadows_link hcall second hregular.2 hsound.2 n') ?_
    rintro n'' ⟨_, _⟩ ⟨_, _⟩ h'
    refine .pure ⟨.seq h.code h'.code, List.rel_append h.methods h'.methods,
      h.allots.trans h'.allots ?_⟩
    rw [opened_append, List.flatMap_append, opened_append]
    exact perm_parts _ _ _ _
  | .op i, _, _, n => by
    rw [Plan.link, Plan.emit]
    exact .pure ⟨.op i, .nil, .nil n⟩
  | .within opening label inner, hregular, hsound, n => by
    rw [Plan.link, Plan.emit]
    refine .bind (shadows_link hcall inner hregular.2 hsound n) ?_
    rintro n' ⟨code, methods⟩ ⟨code', methods'⟩ h
    refine .pure ⟨.within h.code, h.methods, ?_⟩
    simpa [opens?] using h.allots
  | .blocks label inner, hregular, hsound, n => by
    rw [Plan.link, Plan.emit]
    refine .block (.bind (shadows_link hcall inner hregular hsound _) ?_)
    rintro n' ⟨code, methods⟩ ⟨code', methods'⟩ h
    refine .pure ⟨.blocks _ h.code, h.methods,
      (Allots.block n).trans h.allots ?_⟩
    simp [opens?]
  | .switch label message cases, hregular, hsound, n => by
    rw [Plan.link, Plan.emit]
    refine .bind (.unnumbered n (registerMessage message)) ?_
    rintro _ error _ ⟨rfl, rfl⟩
    refine .switch (.bind (shadows_linkCases hcall label _ cases hregular
      hsound.2 _) ?_)
    rintro n' ⟨code, methods⟩ ⟨code', methods'⟩ h
    rw [← h.tags]
    refine .pure ⟨.switch _ (h.tags ▸ hsound.1.nodup) h.code, h.methods,
      (Allots.switch _).trans h.allots ?_⟩
    simp [opens?]
  | .call demand, hregular, _, n => by
    rw [Plan.link, Plan.emit]
    refine .bind (hcall demand hregular n) ?_
    rintro n' ⟨name, methods⟩ ⟨name', methods'⟩ h
    obtain rfl : name' = name := h.name
    exact .pure ⟨.call _, h.methods, h.allots⟩
  | .reject reason, _, _, n => by
    rw [Plan.link, Plan.emit]
    exact fun _ => rfl

/-- Emitting the cases of a switch shadows linking them. -/
theorem shadows_linkCases
    (hcall : ∀ d, D d → ∀ n, Shadows n (onCall d) (onCall' d) (EmittedCall n))
    (label : String) (number : Nat) :
    ∀ cases : PlanCases, Plan.RegularCases D cases → Plan.AllSound cases →
      ∀ n, Shadows n (Plan.linkCases onCall cases)
        (Plan.emitCases onCall' label number cases)
        (EmittedCases label number cases n)
  | .none, _, _, n => by
    rw [Plan.linkCases, Plan.emitCases]
    exact .pure ⟨.none, rfl, .nil, .nil n⟩
  | .case tag delivered inner rest, hregular, hsound, n => by
    rw [Plan.linkCases, Plan.emitCases]
    refine .bind (shadows_link hcall inner hregular.1 hsound.1 n) ?_
    rintro n' ⟨code, methods⟩ ⟨code', methods'⟩ h
    refine .bind (shadows_linkCases hcall label number rest hregular.2 hsound.2
      n') ?_
    rintro n'' ⟨_, _⟩ ⟨_, _⟩ h'
    refine .pure ⟨.case h.code h'.code, ?_,
      List.rel_append h.methods h'.methods, h.allots.trans h'.allots ?_⟩
    · rw [Code.tags, Code.tags, h'.tags]
    · rw [opened_cons, opened_append, List.flatMap_append, opened_append]
      exact perm_parts (opened code') _ _ _

end

end

variable {writer reader : Schema} {D : Demand → Prop}

/-- **Emitting a call shadows linking it**, with the same budget. -/
theorem shadows_linkCall
    (hregular : ∀ d, D d → (d.body writer reader).Regular D)
    (hsound : ∀ d, D d → (d.body writer reader).Sound) (budget : Nat) :
    ∀ d, D d → ∀ n, Shadows n (linkCall writer reader budget d)
      (emitCall writer reader budget d) (EmittedCall n) := by
  induction budget with
  | zero =>
    intro d _ n registry
    rfl
  | succ budget ih =>
    intro d hd n
    rw [linkCall, emitCall]
    refine .bind (.unnumbered n get) ?_
    rintro _ registry _ ⟨rfl, rfl⟩
    split
    · exact .pure ⟨rfl, .nil, .nil _⟩
    · refine .bind (.unnumbered _ (set _)) ?_
      rintro _ _ _ ⟨rfl, rfl⟩
      -- The methods that are met inside get their numbers in the same walk.
      refine .bind (shadows_link ih _ (hregular d hd) (hsound d hd) _) ?_
      rintro n' ⟨code, methods⟩ ⟨code', methods'⟩ h
      refine .pure ⟨rfl, .cons ⟨rfl, code', h.code, rfl⟩ h.methods, ?_⟩
      simpa [opens?] using h.allots

/-- **Compiling by symbolic code** fails where linking fails, and gives the
program of the assembly that linking leaves. -/
theorem compileSymbolic_eq_of_link (hD : Encloses writer reader D)
    (hmain : (mainPlan writer reader).Sound)
    (hbody : ∀ d, D d → (d.body writer reader).Sound) (budget : Nat) :
    match (mainPlan writer reader).link (linkCall writer reader budget)
      .empty with
    | .error e => compileSymbolic budget writer reader = .error e
    | .ok ((main, methods), registry) =>
      (Assembly.mk main methods registry.messages).unknownCall? = none →
      compileSymbolic budget writer reader
        = (Assembly.mk main methods registry.messages).program := by
  have h := shadows_link (shadows_linkCall hD.body hbody budget) _ hD.main
    hmain ⟨0, 0⟩ .empty
  cases hlink : (mainPlan writer reader).link (linkCall writer reader budget)
    .empty with
  | error e =>
    rw [hlink] at h
    rw [compileSymbolic, h]
  | ok result =>
    obtain ⟨⟨main, methods⟩, registry⟩ := result
    rw [hlink] at h
    obtain ⟨⟨code, methods'⟩, numbers, hemit, hemitted⟩ := h
    intro hcalls
    rw [compileSymbolic, hemit]
    have hallots := hemitted.allots
    rw [← opened_append] at hallots
    refine Assembly.symbolicProgram_eq hemitted.code hemitted.methods
      hallots.nodup (fun x hx => ?_) hcalls
    have hbetween := hallots.between x hx
    cases x with
    | block number => exact hbetween.2
    | switch number => exact hbetween.2

end Avro
