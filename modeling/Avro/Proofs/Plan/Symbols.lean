import Avro.Proofs.Plan.Compilation
import Mathlib.Algebra.GroupWithZero.Nat

/-!
# Symbolic code

Code can also be laid out without its tree. Symbolic code is a list of
instructions in which loops over blocks and switches have numbers instead of
addresses, and methods their names. It is measured from front to back, each
number getting the offsets at which it was met, and then every symbolic
instruction is lowered by itself, looking up what it refers to.

Such a look-up can fail: a number may be met nowhere, a switch may have no case
for a tag, a name may be that of no method. None of this happens to code that
comes from a tree, whichever numbers are given, if no two loops and no two
switches have the same one, and no switch has two cases for one tag
(`Numbered.lower_eq`). What it is lowered to is then what the sizes in the tree
say (`Code.lower`).
-/

namespace Avro

open Code (headerSize footerSize caseHeadSize target header footer caseHead
  casesCount casesSize)

/-! ## Symbolic instructions -/

/-- **What has a number** until it has addresses. -/
inductive Symbol
  /-- A loop over blocks. -/
  | block (number : Nat)
  /-- A switch. -/
  | switch (number : Nat)
  deriving DecidableEq, Repr

/-- **A symbolic instruction.** -/
inductive Symbolic
  /-- An instruction. -/
  | literal (i : Instruction)
  /-- A call of a method. -/
  | call (name : String)
  /-- The header of a loop over blocks. -/
  | blockStart (number : Nat) (label : String)
  /-- The end of a loop over blocks. -/
  | blockEnd (number : Nat) (label : String)
  /-- The tests of a switch for its tags; other tags stop with a message. -/
  | switchStart (number : Nat) (tags : List Nat) (message : Nat)
      (label : String)
  /-- The beginning of the case for a tag. -/
  | switchCase (number tag : Nat) (delivered : Option Nat) (label : String)
  /-- The end of a switch. -/
  | switchEnd (number : Nat)
  deriving Repr

namespace Symbolic

/-- The number of instructions that a symbolic instruction stands for. -/
def size : Symbolic → Nat
  | literal _ | call _ => 1
  | blockStart _ _ => headerSize
  | blockEnd _ _ => footerSize
  | switchStart _ tags _ _ => 2 * tags.length + 1
  | switchCase _ _ delivered _ => caseHeadSize delivered
  | switchEnd _ => 0

/-- The symbol that a symbolic instruction begins. -/
def opens? : Symbolic → Option Symbol
  | blockStart number _ => some (.block number)
  | switchStart number _ _ _ => some (.switch number)
  | _ => none

/-- The symbol whose offsets depend on where a symbolic instruction stands. -/
def symbol? : Symbolic → Option Symbol
  | blockStart number _ | blockEnd number _ => some (.block number)
  | switchCase number _ _ _ | switchEnd number => some (.switch number)
  | _ => none

/-- The number of instructions that symbolic code stands for. -/
def extent (code : List Symbolic) : Nat := (code.map size).sum

@[simp] theorem extent_nil : extent [] = 0 := rfl

@[simp] theorem extent_cons (s : Symbolic) (code : List Symbolic) :
    extent (s :: code) = s.size + extent code := rfl

@[simp] theorem extent_append (code code' : List Symbolic) :
    extent (code ++ code') = extent code + extent code' := by
  simp [extent]

/-- The symbols that symbolic code begins. -/
def opened (code : List Symbolic) : List Symbol := code.filterMap opens?

@[simp] theorem opened_nil : opened [] = [] := rfl

@[simp] theorem opened_cons (s : Symbolic) (code : List Symbolic) :
    opened (s :: code) = s.opens?.toList ++ opened code := by
  unfold opened
  rw [List.filterMap_cons]
  cases s.opens? <;> rfl

@[simp] theorem opened_append (code code' : List Symbolic) :
    opened (code ++ code') = opened code ++ opened code' :=
  List.filterMap_append

/-- Symbolic code has nothing on which the offsets of a symbol depend. -/
def Leaves (x : Symbol) (code : List Symbolic) : Prop :=
  ∀ s ∈ code, s.symbol? ≠ some x

@[simp] theorem leaves_nil {x : Symbol} : Leaves x [] := nofun

@[simp] theorem leaves_cons {x : Symbol} {s : Symbolic}
    {code : List Symbolic} :
    Leaves x (s :: code) ↔ s.symbol? ≠ some x ∧ Leaves x code :=
  List.forall_mem_cons

@[simp] theorem leaves_append {x : Symbol} {code code' : List Symbolic} :
    Leaves x (code ++ code') ↔ Leaves x code ∧ Leaves x code' :=
  List.forall_mem_append

end Symbolic

/-- **A method in symbolic code**, up to and with its return. -/
structure SymbolicMethod where
  /-- The name. -/
  name : String
  /-- The code. -/
  code : List Symbolic

/-! ## Offsets -/

/-- How many loops over blocks and how many switches have a number. -/
structure Counters where
  /-- Loops over blocks. -/
  blocks : Nat
  /-- Switches. -/
  switches : Nat

/-- The offsets of a loop over blocks: of its header and of its end. -/
structure BlockOffsets where
  /-- That of the header. -/
  start : Nat
  /-- That of the end. -/
  finish : Nat

/-- The offsets of a switch: of its cases by their tags, and of its end. -/
structure SwitchOffsets where
  /-- Those of the cases. -/
  cases : List (Nat × Nat)
  /-- That of the end. -/
  finish : Nat

/-- **The offsets** of all that symbolic code refers to. -/
structure Offsets where
  /-- Those of methods by their names. -/
  methods : List (String × Nat)
  /-- Those of loops over blocks by their numbers. -/
  blocks : List BlockOffsets
  /-- Those of switches by their numbers. -/
  switches : List SwitchOffsets

namespace Offsets

/-- The offsets before anything is measured. -/
def blank (numbers : Counters) : Offsets :=
  ⟨[], .replicate numbers.blocks ⟨0, 0⟩, .replicate numbers.switches ⟨[], 0⟩⟩

/-- Notes the offset of a symbolic instruction. -/
def note (o : Offsets) (offset : Nat) : Symbolic → Offsets
  | .blockStart number _ =>
    { o with blocks := o.blocks.modify number fun b =>
        { b with start := offset } }
  | .blockEnd number _ =>
    { o with blocks := o.blocks.modify number fun b =>
        { b with finish := offset } }
  | .switchCase number tag _ _ =>
    { o with switches := o.switches.modify number fun w =>
        { w with cases := w.cases ++ [(tag, offset)] } }
  | .switchEnd number =>
    { o with switches := o.switches.modify number fun w =>
        { w with finish := offset } }
  | _ => o

/-- **Measures symbolic code** that begins at an offset. -/
def measure (o : Offsets) (offset : Nat) : List Symbolic → Offsets
  | [] => o
  | s :: rest => (o.note offset s).measure (offset + s.size) rest

/-- Offsets with those of other methods. -/
def withMethods (o : Offsets) (methods : List (String × Nat)) : Offsets :=
  { o with methods := methods }

/-- Measures methods of which the first begins at an offset. -/
def measureMethods (o : Offsets) (offset : Nat) :
    List SymbolicMethod → Offsets
  | [] => o
  | m :: rest =>
    ((o.withMethods (o.methods ++ [(m.name, offset)])).measure offset
      m.code).measureMethods (offset + Symbolic.extent m.code) rest

end Offsets

/-! ## Lowering -/

namespace Symbolic

/-- What has a number but no offsets. -/
def unlinked (what : String) (number : Nat) : CompileError :=
  .internal (what ++ " " ++ toString number ++ " was never laid out")

/-- The tests of a switch for tags. -/
def tests (label : String) (number : Nat) (cases : List (Nat × Nat)) :
    (tags : List Nat) → Except CompileError (List Instruction)
  | [] => .ok []
  | tag :: rest =>
    match cases.lookup tag with
    | none => .error (unlinked "case" number)
    | some offset => do
      let others ← tests label number cases rest
      return ⟨.evalEqual, target tag, label⟩ ::
        ⟨.condJump, target (offset + 1), label⟩ :: others

/-- **The instructions of a symbolic instruction**, all offsets being known. -/
def lower (o : Offsets) : Symbolic → Except CompileError (List Instruction)
  | literal i => .ok [i]
  | call name =>
    match Entries.find? name o.methods with
    | none => .error (.unknownMethod name)
    | some offset => .ok [⟨.call, target offset, name⟩]
  | blockStart number label =>
    match o.blocks[number]? with
    | none => .error (unlinked "block" number)
    | some b => .ok (header (b.finish + footerSize) (b.start + headerSize - 1)
        label)
  | blockEnd number label =>
    match o.blocks[number]? with
    | none => .error (unlinked "block" number)
    | some b => .ok (footer b.start (b.start + headerSize - 1) label)
  | switchStart number tags message label =>
    match o.switches[number]? with
    | none => .error (unlinked "switch" number)
    | some w => do
      let tests ← tests label number w.cases tags
      return tests ++ [⟨.halt, target message, label⟩]
  | switchCase number tag delivered label =>
    match o.switches[number]? with
    | none => .error (unlinked "switch" number)
    | some w => .ok (caseHead label w.finish tag delivered)
  | switchEnd _ => .ok []

/-- The instructions of symbolic code. -/
def lowerAll (o : Offsets) :
    List Symbolic → Except CompileError (List Instruction)
  | [] => .ok []
  | s :: rest => do
    let first ← s.lower o
    let others ← lowerAll o rest
    return first ++ others

/-- **The program of symbolic code**: it is measured, and then lowered. -/
def program (numbers : Counters) (main : List Symbolic)
    (methods : List SymbolicMethod) (messages : List String) :
    Except CompileError Program := do
  let offsets := ((Offsets.blank numbers).measure 0 main).measureMethods
    (extent main) methods
  let instructions ← lowerAll offsets (main ++ methods.flatMap (·.code))
  return ⟨instructions.toArray, Entries.ofList offsets.methods, messages⟩

variable {o : Offsets} {first second : List Symbolic}
  {code code' : List Instruction}

/-- Symbolic code is lowered part by part. -/
theorem lowerAll_append (h : lowerAll o first = .ok code)
    (h' : lowerAll o second = .ok code') :
    lowerAll o (first ++ second) = .ok (code ++ code') := by
  induction first generalizing code with
  | nil =>
    obtain rfl := Except.ok.inj h
    exact h'
  | cons s rest ih =>
    rw [lowerAll] at h
    cases hs : s.lower o with
    | error e => rw [hs] at h; cases h
    | ok part =>
      rw [hs] at h
      cases hrest : lowerAll o rest with
      | error e => rw [hrest] at h; cases h
      | ok others =>
        rw [hrest] at h
        obtain rfl : part ++ others = code := Except.ok.inj h
        rw [List.cons_append, lowerAll, hs, ih hrest, List.append_assoc]
        rfl

theorem lowerAll_singleton {s : Symbolic} (h : s.lower o = .ok code) :
    lowerAll o [s] = .ok code := by
  rw [lowerAll, h]
  show Except.ok (code ++ []) = _
  rw [List.append_nil]

/-- A symbolic instruction is lowered in front of symbolic code. -/
theorem lowerAll_cons {s : Symbolic} (h : s.lower o = .ok code)
    (h' : lowerAll o second = .ok code') :
    lowerAll o (s :: second) = .ok (code ++ code') :=
  lowerAll_append (lowerAll_singleton h) h'

theorem lowerAll_literal (i : Instruction)
    (h : lowerAll o second = .ok code') :
    lowerAll o (literal i :: second) = .ok (i :: code') :=
  lowerAll_append (lowerAll_singleton (s := literal i) rfl) h

end Symbolic

/-! ## Measuring -/

namespace Offsets

open Symbolic

variable {o : Offsets} {offset number : Nat} {code : List Symbolic}

theorem measure_append (code code' : List Symbolic) :
    ∀ (o : Offsets) (offset : Nat), o.measure offset (code ++ code')
      = (o.measure offset code).measure (offset + extent code) code' := by
  induction code with
  | nil => intro o offset; rfl
  | cons s rest ih =>
    intro o offset
    rw [List.cons_append, measure, ih, measure, extent_cons, Nat.add_assoc]

@[simp] theorem length_blocks_note (s : Symbolic) :
    (o.note offset s).blocks.length = o.blocks.length := by
  cases s <;> simp [note]

@[simp] theorem length_blocks_measure :
    ∀ (code : List Symbolic) (o : Offsets) (offset : Nat),
      (o.measure offset code).blocks.length = o.blocks.length
  | [], _, _ => rfl
  | s :: rest, o, offset => by
    rw [measure, length_blocks_measure rest, length_blocks_note]

/-- Measuring code adds no methods. -/
@[simp] theorem methods_measure :
    ∀ (code : List Symbolic) (o : Offsets) (offset : Nat),
      (o.measure offset code).methods = o.methods
  | [], _, _ => rfl
  | s :: rest, o, offset => by
    rw [measure, methods_measure rest]
    cases s <;> rfl

/-- Measuring code does not look at the methods. -/
theorem measure_withMethods (methods : List (String × Nat)) :
    ∀ (code : List Symbolic) (o : Offsets) (offset : Nat),
      (o.withMethods methods).measure offset code
        = (o.measure offset code).withMethods methods
  | [], _, _ => rfl
  | s :: rest, o, offset => by
    rw [measure, measure, ← measure_withMethods methods rest]
    cases s <;> rfl

/-- **Code that leaves a loop over blocks** does not change its offsets. -/
theorem blocks_measure : ∀ {code : List Symbolic} {o : Offsets} {offset : Nat},
    Leaves (.block number) code →
      (o.measure offset code).blocks[number]? = o.blocks[number]?
  | [], _, _, _ => rfl
  | s :: rest, o, offset, h => by
    obtain ⟨hs, hrest⟩ := List.forall_mem_cons.mp h
    rw [measure, blocks_measure hrest]
    cases s with
    | blockStart n label | blockEnd n label =>
      have hne : n ≠ number := fun heq => hs (by rw [heq]; rfl)
      exact List.getElem?_modify_ne _ _ hne
    | _ => rfl

/-- **Code that leaves a switch** does not change its offsets. -/
theorem switches_measure :
    ∀ {code : List Symbolic} {o : Offsets} {offset : Nat},
      Leaves (.switch number) code →
        (o.measure offset code).switches[number]? = o.switches[number]?
  | [], _, _, _ => rfl
  | s :: rest, o, offset, h => by
    obtain ⟨hs, hrest⟩ := List.forall_mem_cons.mp h
    rw [measure, switches_measure hrest]
    cases s with
    | switchCase n tag delivered label | switchEnd n =>
      have hne : n ≠ number := fun heq => hs (by rw [heq]; rfl)
      exact List.getElem?_modify_ne _ _ hne
    | _ => rfl

end Offsets

/-! ## Numbered code -/

namespace Code

variable {χ μ ε : Type}

/-- The tags of the cases of a switch. -/
def tags : Cases χ μ ε → List Nat
  | .none => []
  | .case tag _ _ rest => tag :: tags rest

@[simp] theorem length_tags : ∀ cases : Cases χ μ ε,
    (tags cases).length = casesCount cases
  | .none => by rw [casesCount]; rfl
  | .case _ _ _ rest => by
    rw [casesCount, tags, List.length_cons, length_tags rest]

/-- The offsets of the cases of a switch of which the first begins at an
offset. -/
def caseOffsets : (offset : Nat) → Cases χ μ ε → List (Nat × Nat)
  | _, .none => []
  | offset, .case tag delivered body rest =>
    (tag, offset) :: caseOffsets (offset + caseHeadSize delivered + body.size)
      rest

theorem map_fst_caseOffsets : ∀ (cases : Cases χ μ ε) (offset : Nat),
    (caseOffsets offset cases).map (·.1) = tags cases
  | .none, _ => rfl
  | .case _ _ _ rest, _ => by
    rw [caseOffsets, tags, List.map_cons, map_fst_caseOffsets rest]

end Code

mutual

/-- **Symbolic code numbers linked code.** No number is looked at, but the
cases of a switch have the number of the switch, and different tags. -/
inductive Numbered : LinkedCode → List Symbolic → Prop
  | nothing : Numbered .nothing []
  | seq {first second : LinkedCode} {code code' : List Symbolic}
      (h : Numbered first code) (h' : Numbered second code') :
      Numbered (.seq first second) (code ++ code')
  | op (i : Instruction) : Numbered (.op i) [.literal i]
  | within {opening : Instruction} {label : String} {body : LinkedCode}
      {code : List Symbolic} (h : Numbered body code) :
      Numbered (.within opening label body)
        (.literal opening :: (code ++ [.literal ⟨.exit, 0, label⟩]))
  | blocks {label : String} {body : LinkedCode} {code : List Symbolic}
      (number : Nat) (h : Numbered body code) :
      Numbered (.blocks label body)
        (.blockStart number label :: (code ++ [.blockEnd number label]))
  | switch {label : String} {message : Nat} {cases : LinkedCases}
      {code : List Symbolic} (number : Nat) (htags : (Code.tags cases).Nodup)
      (h : NumberedCases label number cases code) :
      Numbered (.switch label message cases)
        (.switchStart number (Code.tags cases) message label ::
          (code ++ [.switchEnd number]))
  | call (name : String) : Numbered (.call name) [.call name]

/-- Symbolic code numbers the cases of a switch. -/
inductive NumberedCases : String → Nat → LinkedCases → List Symbolic → Prop
  | none {label : String} {number : Nat} : NumberedCases label number .none []
  | case {label : String} {number tag : Nat} {delivered : Option Nat}
      {body : LinkedCode} {rest : LinkedCases} {code code' : List Symbolic}
      (h : Numbered body code) (h' : NumberedCases label number rest code') :
      NumberedCases label number (.case tag delivered body rest)
        (.switchCase number tag delivered label :: (code ++ code'))

end

open Symbolic

mutual

/-- Symbolic code stands for as many instructions as the code it numbers. -/
theorem Numbered.extent_eq : ∀ {c : LinkedCode} {code : List Symbolic},
    Numbered c code → extent code = c.size
  | _, _, .nothing => by rw [Code.size]; rfl
  | _, _, .seq h h' => by
    rw [Code.size, extent_append, h.extent_eq, h'.extent_eq]
  | _, _, .op _ => by rw [Code.size]; rfl
  | _, _, .within h => by
    rw [Code.size, extent_cons, extent_append, h.extent_eq]
    simp only [extent_cons, extent_nil, Symbolic.size]
    omega
  | _, _, .blocks _ h => by
    rw [Code.size, extent_cons, extent_append, h.extent_eq, Nat.add_assoc]
    rfl
  | _, _, .switch _ _ h => by
    rw [Code.size, extent_cons, extent_append, h.extent_eq]
    simp only [extent_cons, extent_nil, Symbolic.size, Code.length_tags]
    omega
  | _, _, .call _ => by rw [Code.size]; rfl

/-- Symbolic code stands for as many instructions as the cases it numbers. -/
theorem NumberedCases.extent_eq :
    ∀ {label : String} {number : Nat} {cases : LinkedCases}
      {code : List Symbolic}, NumberedCases label number cases code →
      extent code = casesSize cases
  | _, _, _, _, .none => by rw [casesSize]; rfl
  | _, _, _, _, .case h h' => by
    rw [casesSize, extent_cons, extent_append, h.extent_eq, h'.extent_eq,
      Nat.add_assoc]
    rfl

end

mutual

/-- **Numbered code leaves the symbols that it does not begin.** -/
theorem Numbered.leaves {x : Symbol} : ∀ {c : LinkedCode}
    {code : List Symbolic}, Numbered c code → x ∉ opened code → Leaves x code
  | _, _, .nothing, _ => leaves_nil
  | _, _, .seq h h', hx => by
    rw [opened_append, List.mem_append, not_or] at hx
    exact leaves_append.mpr ⟨h.leaves hx.1, h'.leaves hx.2⟩
  | _, _, .op _, _ | _, _, .call _, _ => by simp [symbol?]
  | _, _, .within h, hx => by
    have hbody := h.leaves (x := x) (by simpa [opens?] using hx)
    simpa [symbol?] using hbody
  | _, _, .blocks number h, hx => by
    obtain ⟨hne, hx⟩ : x ≠ .block number ∧ x ∉ opened _ := by
      simpa [opens?] using hx
    have hbody := h.leaves hx
    simpa [symbol?, hne.symm] using hbody
  | _, _, .switch number _ h, hx => by
    obtain ⟨hne, hx⟩ : x ≠ .switch number ∧ x ∉ opened _ := by
      simpa [opens?] using hx
    have hcases := h.leaves hne hx
    simpa [symbol?, hne.symm] using hcases

theorem NumberedCases.leaves {x : Symbol} :
    ∀ {label : String} {number : Nat} {cases : LinkedCases}
      {code : List Symbolic}, NumberedCases label number cases code →
      x ≠ .switch number → x ∉ opened code → Leaves x code
  | _, _, _, _, .none, _, _ => leaves_nil
  | _, _, _, _, .case h h', hne, hx => by
    obtain ⟨hbody, hrest⟩ : x ∉ opened _ ∧ x ∉ opened _ := by
      simpa [opens?] using hx
    have hbody := h.leaves hbody
    have hrest := h'.leaves hne hrest
    simpa [symbol?, hne.symm] using ⟨hbody, hrest⟩

end

/-! ## Lowering numbered code -/

/-- **The cases of a switch are noted** with their offsets, in their order. -/
theorem NumberedCases.switches_measure :
    ∀ {label : String} {number : Nat} {cases : LinkedCases}
      {code : List Symbolic}, NumberedCases label number cases code →
      Symbol.switch number ∉ opened code →
      ∀ {o : Offsets} {offset finish : Nat} {known : List (Nat × Nat)},
        o.switches[number]? = some ⟨known, finish⟩ →
        (o.measure offset code).switches[number]?
          = some ⟨known ++ Code.caseOffsets offset cases, finish⟩
  | _, _, _, _, .none, _, o, offset, finish, known, ho => by
    rw [Code.caseOffsets, List.append_nil]
    exact ho
  | label, number, .case tag delivered _ _, _, .case h h', hx, o, offset,
      finish, known, ho => by
    obtain ⟨hbody, hrest⟩ : Symbol.switch number ∉ opened _
        ∧ Symbol.switch number ∉ opened _ := by
      simpa [opens?] using hx
    have hnoted : (o.note offset (.switchCase number tag delivered
        label)).switches[number]? = some ⟨known ++ [(tag, offset)], finish⟩ := by
      rw [Offsets.note, List.getElem?_modify_eq, ho]
      rfl
    rw [← Offsets.switches_measure (h.leaves hbody)] at hnoted
    rw [Offsets.measure, Offsets.measure_append,
      h'.switches_measure hrest hnoted, h.extent_eq, Code.caseOffsets,
      List.append_assoc]
    rfl

/-- The tests of a switch are those of its cases, if each tag is found at the
offset of its case. -/
theorem Symbolic.tests_eq {label : String} {number : Nat}
    {known : List (Nat × Nat)} : ∀ {cases : LinkedCases} {offset : Nat},
      (∀ x ∈ Code.caseOffsets offset cases, known.lookup x.1 = some x.2) →
      tests label number known (Code.tags cases)
        = .ok (Code.tests label offset cases)
  | .none, _, _ => rfl
  | .case tag delivered body rest, offset, h => by
    rw [Code.caseOffsets] at h
    obtain ⟨hfirst, hrest⟩ := List.forall_mem_cons.mp h
    rw [Code.tags, tests, hfirst, tests_eq hrest]
    rfl

/-- The value of a key that is there once. -/
theorem lookup_of_mem {pairs : List (Nat × Nat)}
    (hnodup : (pairs.map (·.1)).Nodup) {x : Nat × Nat} (hx : x ∈ pairs) :
    pairs.lookup x.1 = some x.2 := by
  obtain ⟨before, behind, rfl⟩ := List.append_of_mem hx
  refine List.lookup_eq_some_iff.mpr ⟨before, behind, rfl, fun y hy => ?_⟩
  rw [List.map_append, List.map_cons] at hnodup
  have hne := (List.nodup_append.mp hnodup).2.2 y.1
    (List.mem_map_of_mem hy) x.1 List.mem_cons_self
  exact bne_iff_ne.mpr hne.symm

/-- **The offsets of code are settled**: each symbol that it begins has, in the
end, the offsets that measuring the code leaves it, and had none before. -/
structure Symbolic.Settled (before after : Offsets) (offset : Nat)
    (code : List Symbolic) : Prop where
  /-- No symbol is begun twice. -/
  nodup : (opened code).Nodup
  /-- Loops over blocks. -/
  block : ∀ number, Symbol.block number ∈ opened code →
    number < before.blocks.length ∧ after.blocks[number]?
      = (before.measure offset code).blocks[number]?
  /-- Switches. -/
  switch : ∀ number, Symbol.switch number ∈ opened code →
    before.switches[number]? = some ⟨[], 0⟩ ∧ after.switches[number]?
      = (before.measure offset code).switches[number]?

namespace Symbolic.Settled

variable {before after : Offsets} {offset : Nat} {code code' : List Symbolic}

/-- **What is in front is settled**, if what is behind leaves it. -/
theorem left (h : Settled before after offset (code ++ code'))
    (hleaves : ∀ x ∈ opened code, Leaves x code') :
    Settled before after offset code where
  nodup := (List.nodup_append.mp (opened_append _ _ ▸ h.nodup)).1
  block number hmem := by
    obtain ⟨hlt, hafter⟩ := h.block number (by simp [hmem])
    rw [Offsets.measure_append, Offsets.blocks_measure (hleaves _ hmem)]
      at hafter
    exact ⟨hlt, hafter⟩
  switch number hmem := by
    obtain ⟨hbefore, hafter⟩ := h.switch number (by simp [hmem])
    rw [Offsets.measure_append, Offsets.switches_measure (hleaves _ hmem)]
      at hafter
    exact ⟨hbefore, hafter⟩

/-- **What is behind is settled**, if what is in front leaves it. -/
theorem right (h : Settled before after offset (code ++ code'))
    (hleaves : ∀ x ∈ opened code', Leaves x code) :
    Settled (before.measure offset code) after (offset + extent code)
      code' where
  nodup := (List.nodup_append.mp (opened_append _ _ ▸ h.nodup)).2.1
  block number hmem := by
    obtain ⟨hlt, hafter⟩ := h.block number (by simp [hmem])
    rw [Offsets.measure_append] at hafter
    exact ⟨by rwa [Offsets.length_blocks_measure], hafter⟩
  switch number hmem := by
    obtain ⟨hbefore, hafter⟩ := h.switch number (by simp [hmem])
    rw [Offsets.measure_append] at hafter
    rw [Offsets.switches_measure (hleaves _ hmem)]
    exact ⟨hbefore, hafter⟩

/-- Two parts of settled code begin different symbols. -/
theorem disjoint (h : Settled before after offset (code ++ code')) :
    ∀ x ∈ opened code, x ∉ opened code' := fun x hx hx' =>
  (List.nodup_append.mp (opened_append _ _ ▸ h.nodup)).2.2 x hx x hx' rfl

/-- Behind a symbolic instruction code is settled, if the instruction is no
part of what the code begins. -/
theorem tail {s : Symbolic} (h : Settled before after offset (s :: code))
    (hleaves : ∀ x ∈ opened code, s.symbol? ≠ some x) :
    Settled (before.note offset s) after (offset + s.size) code := by
  have h' : Settled before after offset ([s] ++ code) := h
  simpa [Offsets.measure] using h'.right fun x hx => by simpa using hleaves x hx

/-- **Between the beginning of a symbol and its end**, which are no part of
anything else, code is settled and does not begin the symbol again. -/
theorem inside {s s' : Symbolic} {x : Symbol}
    (h : Settled before after offset (s :: (code ++ [s'])))
    (hopens : s.opens? = some x) (hs : ∀ y, s.symbol? = some y → y = x)
    (hs' : ∀ y, s'.symbol? = some y → y = x) (hend : s'.opens? = none) :
    x ∉ opened code ∧ Settled (before.note offset s) after (offset + s.size)
      code := by
  have hnew : x ∉ opened code := by
    have hnodup := h.nodup
    simp only [opened_cons, hopens, opened_append, hend] at hnodup
    simpa using (List.nodup_cons.mp hnodup).1
  have hne : ∀ y ∈ opened code, y ≠ x := fun y hy heq => hnew (heq ▸ hy)
  refine ⟨hnew, (h.tail fun y hy hsy => ?_).left fun y hy => ?_⟩
  · rw [opened_append, opened_cons, hend] at hy
    exact hne y (by simpa using hy) (hs y hsy)
  · simpa using fun hsy => hne y hy (hs' y hsy)

end Symbolic.Settled

/-- The cases of a switch begin behind its tests. -/
theorem Symbolic.size_switchStart {offset number message : Nat} {label : String}
    {cases : LinkedCases} :
    offset + (switchStart number (Code.tags cases) message label).size
      = offset + 2 * casesCount cases + 1 := by
  rw [Symbolic.size, Code.length_tags, Nat.add_assoc]

section

variable {before after : Offsets} {offset number : Nat} {label : String}
  {code : List Symbolic}

/-- **The offsets of a loop over blocks are those of its two ends**, since the
body leaves the loop alone. -/
theorem Numbered.blocks_eq {body : LinkedCode} (h : Numbered body code)
    (hs : Settled before after offset
      (blockStart number label :: (code ++ [blockEnd number label]))) :
    after.blocks[number]?
      = some ⟨offset, offset + headerSize + body.size⟩ := by
  have hnew := (hs.inside (x := .block number) rfl (by simp [symbol?])
    (by simp [symbol?]) rfl).1
  obtain ⟨hlt, hafter⟩ := hs.block number (by simp [opens?])
  rw [hafter, Offsets.measure, Offsets.measure_append, h.extent_eq]
  show (Offsets.blocks _ |>.modify number _)[number]? = _
  rw [List.getElem?_modify_eq, Offsets.blocks_measure (h.leaves hnew),
    Offsets.note, List.getElem?_modify_eq, List.getElem?_eq_getElem hlt]
  rfl

/-- **The offsets of a switch are those of its cases and of its end**: nothing
inside the cases has their number, so they are noted in order. -/
theorem NumberedCases.switches_eq {message : Nat} {cases : LinkedCases}
    (h : NumberedCases label number cases code)
    (hs : Settled before after offset
      (switchStart number (Code.tags cases) message label ::
        (code ++ [switchEnd number]))) :
    after.switches[number]? = some
      ⟨Code.caseOffsets (offset + 2 * casesCount cases + 1) cases,
        offset + 2 * casesCount cases + 1 + casesSize cases⟩ := by
  have hnew := (hs.inside (x := .switch number) rfl (by simp [symbol?])
    (by simp [symbol?]) rfl).1
  obtain ⟨hbefore, hafter⟩ := hs.switch number (by simp [opens?])
  rw [hafter, Offsets.measure, Offsets.measure_append, h.extent_eq,
    size_switchStart]
  show (Offsets.switches _ |>.modify number _)[number]? = _
  rw [List.getElem?_modify_eq, show before.note offset _ = before from rfl,
    h.switches_measure hnew hbefore]
  rfl

end

section

variable {after : Offsets} {names : List String} {address : String → Nat}

mutual

/-- **Numbered code is lowered as its tree is**, if its offsets are settled and
the methods that it calls have theirs. -/
theorem Numbered.lower_eq
    (hnames : ∀ name ∈ names,
      Entries.find? name after.methods = some (address name)) :
    ∀ {c : LinkedCode} {code : List Symbolic}, Numbered c code →
      c.unknownCall? names = none →
      ∀ {before : Offsets} {offset : Nat}, Settled before after offset code →
        lowerAll after code = .ok (c.lower address offset)
  | _, _, .nothing, _, _, _, _ => by rw [Code.lower]; rfl
  | _, _, .seq h h', hcalls, before, offset, hs => by
    rw [Code.unknownCall?, Option.or_eq_none_iff] at hcalls
    have hleft := hs.left fun x hx => h'.leaves (hs.disjoint x hx)
    have hright := hs.right fun x hx =>
      h.leaves fun hmem => hs.disjoint x hmem hx
    rw [Code.lower, ← h.extent_eq]
    exact lowerAll_append (h.lower_eq hnames hcalls.1 hleft)
      (h'.lower_eq hnames hcalls.2 hright)
  | _, _, .op i, _, _, _, _ => by rw [Code.lower]; rfl
  | _, _, .within h, hcalls, before, offset, hs => by
    rw [Code.unknownCall?] at hcalls
    have hbody := (hs.tail nofun).left fun x _ => by simp [symbol?]
    rw [Code.lower]
    exact lowerAll_literal _ (lowerAll_append
      (h.lower_eq hnames hcalls hbody) (lowerAll_literal _ rfl))
  | .blocks label body, _, .blocks number h, hcalls, before, offset, hs => by
    rw [Code.unknownCall?] at hcalls
    obtain ⟨-, hbody⟩ := hs.inside (x := .block number) rfl
      (by simp [symbol?]) (by simp [symbol?]) rfl
    have hb := h.blocks_eq hs
    rw [Code.lower, List.append_assoc]
    refine lowerAll_cons (by rw [lower, hb]) (lowerAll_append
      (h.lower_eq hnames hcalls hbody) (lowerAll_singleton ?_))
    rw [lower, hb]
  | .switch label message cases, _, .switch number htags h, hcalls, before,
      offset, hs => by
    rw [Code.unknownCall?] at hcalls
    obtain ⟨hnew, hcases⟩ := hs.inside (x := .switch number) rfl
      (by simp [symbol?]) (by simp [symbol?]) rfl
    rw [size_switchStart] at hcases
    have hw := h.switches_eq hs
    have htests : tests label number
        (Code.caseOffsets (offset + 2 * casesCount cases + 1) cases)
        (Code.tags cases) = .ok (Code.tests label
          (offset + 2 * casesCount cases + 1) cases) :=
      tests_eq fun x hx =>
        lookup_of_mem (by rwa [Code.map_fst_caseOffsets]) hx
    have hstart : lower after (switchStart number (Code.tags cases) message
        label) = .ok (Code.tests label (offset + 2 * casesCount cases + 1) cases
          ++ [⟨.halt, target message, label⟩]) := by
      rw [lower, hw]
      simp only [htests]
      rfl
    have hend : lowerAll after [switchEnd number] = .ok [] := rfl
    have hrest := lowerAll_append (h.lower_eq hnames hcalls hnew hw hcases) hend
    have hall := lowerAll_cons hstart hrest
    rw [List.append_nil, List.append_assoc] at hall
    rw [Code.lower]
    exact hall
  | _, _, .call name, hcalls, _, _, _ => by
    rw [Code.unknownCall?] at hcalls
    have hname : name ∈ names := by
      by_contra hname
      rw [if_neg (mt List.contains_iff_mem.mp hname)] at hcalls
      cases hcalls
    rw [Code.lower]
    refine lowerAll_singleton ?_
    rw [Symbolic.lower, hnames name hname]

/-- Numbered cases are lowered as they are in the tree, if the offset of the
end of their switch is known. -/
theorem NumberedCases.lower_eq
    (hnames : ∀ name ∈ names,
      Entries.find? name after.methods = some (address name)) :
    ∀ {label : String} {number : Nat} {cases : LinkedCases}
      {code : List Symbolic}, NumberedCases label number cases code →
      Code.unknownCallIn? names cases = none →
      Symbol.switch number ∉ opened code →
      ∀ {w : SwitchOffsets}, after.switches[number]? = some w →
      ∀ {before : Offsets} {offset : Nat}, Settled before after offset code →
        lowerAll after code
          = .ok (Code.lowerCases address label w.finish offset cases)
  | _, _, _, _, .none, _, _, _, _, _, _, _ => by rw [Code.lowerCases]; rfl
  | _, number, _, _, .case h h', hcalls, hnew, w, hw, before, offset, hs => by
    rw [Code.unknownCallIn?, Option.or_eq_none_iff] at hcalls
    have hne : ∀ x ∈ opened _, x ≠ .switch number :=
      fun x hx heq => hnew (heq ▸ hx)
    have htail := hs.tail fun x hx heq => hne x
      (opened_cons _ _ ▸ List.mem_append_right _ hx) (Option.some.inj heq).symm
    have hleft := htail.left fun x hx => h'.leaves
      (hne x (by simp [hx])) (htail.disjoint x hx)
    have hright := htail.right fun x hx =>
      h.leaves fun hmem => htail.disjoint x hmem hx
    rw [h.extent_eq] at hright
    rw [Code.lowerCases, List.append_assoc]
    exact lowerAll_cons (by rw [lower, hw]) (lowerAll_append
      (h.lower_eq hnames hcalls.1 hleft)
      (h'.lower_eq hnames hcalls.2 (fun hmem => hne _ (by simp [hmem]) rfl) hw
        hright))

end

end

/-! ## Programs -/

/-- Whether a symbol is among those that have a number. -/
def Symbol.Below (numbers : Counters) : Symbol → Prop
  | block number => number < numbers.blocks
  | switch number => number < numbers.switches

/-- **The offsets of code are settled** if it is measured from the start, no
number is given twice, and every number is below those that are given. -/
theorem Symbolic.settled_blank {numbers : Counters} {code : List Symbolic}
    (hnodup : (opened code).Nodup)
    (hbelow : ∀ x ∈ opened code, x.Below numbers)
    (methods : List (String × Nat)) :
    Settled (.blank numbers)
      (((Offsets.blank numbers).measure 0 code).withMethods methods) 0
      code where
  nodup := hnodup
  block number hmem := by
    have hlt : (Symbol.block number).Below numbers := hbelow _ hmem
    exact ⟨by rwa [Offsets.blank, List.length_replicate], rfl⟩
  switch number hmem := by
    have hlt : (Symbol.switch number).Below numbers := hbelow _ hmem
    exact ⟨List.getElem?_replicate_of_lt hlt, rfl⟩

/-- **Symbolic code numbers a method**: its code, with the return behind it. -/
def NumberedMethod (m : Method) (s : SymbolicMethod) : Prop :=
  s.name = m.name ∧ ∃ code, Numbered m.code code
    ∧ s.code = code ++ [.literal ⟨.return, 0, m.name⟩]

namespace Assembly

/-- The code of methods one after another, each with its return. -/
def methodsCode : List Method → LinkedCode
  | [] => .nothing
  | m :: rest =>
    .seq (.seq m.code (.op ⟨.return, 0, m.name⟩)) (methodsCode rest)

/-- All the code of an assembly. -/
def code (a : Assembly) : LinkedCode :=
  .seq (.seq a.main (.op ⟨.halt, 0, "end"⟩)) (methodsCode a.methods)

theorem unknownCall?_methodsCode (names : List String) :
    ∀ methods : List Method, (methodsCode methods).unknownCall? names
      = methods.findSome? (·.code.unknownCall? names)
  | [] => by rw [methodsCode, Code.unknownCall?]; rfl
  | m :: rest => by
    rw [methodsCode, Code.unknownCall?, Code.unknownCall?, Code.unknownCall?,
      unknownCall?_methodsCode names rest, Option.or_none,
      List.findSome?_cons]
    cases m.code.unknownCall? names <;> rfl

theorem lower_methodsCode (address : String → Nat) :
    ∀ (methods : List Method) (offset : Nat),
      (methodsCode methods).lower address offset
        = methodInstructions address offset methods
  | [], _ => by rw [methodsCode, Code.lower]; rfl
  | m :: rest, offset => by
    rw [methodsCode, Code.lower, Code.lower, Code.lower, Code.size, Code.size,
      lower_methodsCode address rest, List.append_assoc]
    rfl

/-- The instructions of all the code of an assembly. -/
theorem lower_code (address : String → Nat) (a : Assembly) :
    a.code.lower address 0 = a.main.lower address 0 ++ ⟨.halt, 0, "end"⟩ ::
      methodInstructions address (a.main.size + 1) a.methods := by
  rw [code, Code.lower, Code.lower, Code.lower, Code.size, Code.size,
    lower_methodsCode, Nat.zero_add, List.append_assoc]
  rfl

theorem numbered_methodsCode {methods : List Method}
    {methods' : List SymbolicMethod}
    (h : List.Forall₂ NumberedMethod methods methods') :
    Numbered (methodsCode methods) (methods'.flatMap (·.code)) := by
  induction h with
  | nil => exact .nothing
  | cons h _ ih =>
    obtain ⟨-, code, hcode, heq⟩ := h
    rw [List.flatMap_cons, heq]
    exact .seq (.seq hcode (.op _)) ih

/-- **Methods are measured as their code is**, and their offsets are their
addresses. -/
theorem measureMethods_eq {methods : List Method}
    {methods' : List SymbolicMethod}
    (h : List.Forall₂ NumberedMethod methods methods') :
    ∀ (o : Offsets) (offset : Nat), o.measureMethods offset methods'
      = (o.measure offset (methods'.flatMap (·.code))).withMethods
        (o.methods ++ addresses offset methods) := by
  induction h with
  | nil =>
    intro o offset
    rw [addresses, List.append_nil]
    rfl
  | @cons m s methods methods' h _ ih =>
    intro o offset
    obtain ⟨hname, code, hcode, heq⟩ := h
    have hsize : extent s.code = m.code.size + 1 := by
      rw [heq, extent_append, hcode.extent_eq]
      rfl
    rw [Offsets.measureMethods, ih, Offsets.methods_measure,
      Offsets.measure_withMethods, Offsets.measure_withMethods,
      List.flatMap_cons, Offsets.measure_append, hsize, hname, addresses]
    simp only [Offsets.withMethods, List.append_assoc, List.cons_append,
      List.nil_append, Nat.add_assoc]

/-- Every method has an address. -/
theorem find?_addresses {name : String} :
    ∀ {methods : List Method} {offset : Nat}, name ∈ methods.map (·.name) →
      Entries.find? name (addresses offset methods)
        = some ((Entries.find? name (addresses offset methods)).getD 0)
  | [], _, h => absurd h List.not_mem_nil
  | m :: rest, offset, h => by
    rw [addresses, Entries.find?]
    split
    · rfl
    · rename_i hne
      rw [List.map_cons, List.mem_cons] at h
      exact find?_addresses (h.resolve_left (Ne.symm hne))

variable {a : Assembly} {numbers : Counters} {main : List Symbolic}
  {methods : List SymbolicMethod}

/-- **The program of symbolic code is that of the assembly it numbers**, if no
number is given twice and every call is of a method. -/
theorem symbolicProgram_eq (hmain : Numbered a.main main)
    (hmethods : List.Forall₂ NumberedMethod a.methods methods)
    (hnodup : (opened (main ++ methods.flatMap (·.code))).Nodup)
    (hbelow : ∀ x ∈ opened (main ++ methods.flatMap (·.code)),
      x.Below numbers)
    (hcalls : a.unknownCall? = none) :
    Symbolic.program numbers (main ++ [.literal ⟨.halt, 0, "end"⟩]) methods
      a.messages = a.program := by
  have hcode : Numbered a.code
      (main ++ [.literal ⟨.halt, 0, "end"⟩] ++ methods.flatMap (·.code)) :=
    .seq (.seq hmain (.op _)) (numbered_methodsCode hmethods)
  have hopened : opened (main ++ [.literal ⟨.halt, 0, "end"⟩] ++
      methods.flatMap (·.code)) = opened (main ++ methods.flatMap (·.code)) := by
    rw [opened_append, opened_append, opened_append]
    exact congrArg (· ++ _) (List.append_nil _)
  have hmeasured : ((Offsets.blank numbers).measure 0
      (main ++ [.literal ⟨.halt, 0, "end"⟩])).measureMethods
        (extent (main ++ [.literal ⟨.halt, 0, "end"⟩])) methods
      = ((Offsets.blank numbers).measure 0 (main ++
          [.literal ⟨.halt, 0, "end"⟩] ++ methods.flatMap (·.code))).withMethods
          (addresses (a.main.size + 1) a.methods) := by
    rw [measureMethods_eq hmethods, Offsets.measure_append _ (methods.flatMap _),
      Nat.zero_add, Offsets.methods_measure, extent_append, hmain.extent_eq]
    rfl
  have hunknown : a.code.unknownCall? (a.methods.map (·.name)) = none := by
    rw [code, Code.unknownCall?, Code.unknownCall?, Code.unknownCall?,
      unknownCall?_methodsCode, Option.or_none]
    exact hcalls
  have hlowered := hcode.lower_eq (fun name => find?_addresses) hunknown
    (settled_blank (hopened ▸ hnodup) (hopened ▸ hbelow)
      (addresses (a.main.size + 1) a.methods))
  rw [lower_code] at hlowered
  rw [Symbolic.program, hmeasured, Assembly.program, hcalls, hlowered]
  rfl

end Assembly

end Avro
