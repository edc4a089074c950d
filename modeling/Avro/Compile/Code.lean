import Avro.Program.Basic

/-!
# Structured code

Code as a tree: sequences, parts of a sink that are opened and closed, loops over blocks, switches
over tags, and calls. It is what a program looks like before addresses are known, and its nesting is
the nesting of levels at run time, so what a program does can be read off its tree.

The tree is generic in what a call names, in what a switch stops with, and in what stands at a place
for which there is no code.

## Layout

A loop over blocks and a switch become jumps. Sizes are known from the tree alone (`Code.size`), so
`Code.lower` computes every address from the address where the code begins.
-/

namespace Avro

mutual

/-- **Structured code** with calls `χ`, messages `μ` and rejections `ε`. -/
inductive Code (χ μ ε : Type)
  /-- No instructions. -/
  | nothing
  /-- One code after another. -/
  | seq (first second : Code χ μ ε)
  /-- An instruction that works on registers or delivers. -/
  | op (i : Instruction)
  /-- Code on a part of the sink: the instruction that opens it, and the label of its closing. -/
  | within (opening : Instruction) (label : String) (body : Code χ μ ε)
  /-- Code for every item of a sequence of blocks. -/
  | blocks (label : String) (body : Code χ μ ε)
  /-- A choice by the long register; other tags stop with a message. -/
  | switch (label : String) (message : μ) (cases : Cases χ μ ε)
  /-- A call of a method. -/
  | call (target : χ)
  /-- A place for which there is no code. -/
  | reject (reason : ε)

/-- **The cases of a switch.** -/
inductive Cases (χ μ ε : Type)
  /-- No further case. -/
  | none
  /-- A tag, the number it is rewritten to and delivered as, and the code that follows. -/
  | case (tag : Nat) (delivered : Option Nat) (body : Code χ μ ε) (rest : Cases χ μ ε)

end

namespace Code

variable {χ μ ε : Type}

/-- Codes one after another. -/
def sequence : List (Code χ μ ε) → Code χ μ ε
  | [] => nothing
  | [code] => code
  | code :: rest => seq code (sequence rest)

/-- The instructions before the body of a loop over blocks: the header and `pushLoop`. -/
def headerSize : Nat := 8

/-- The instructions after the body of a loop over blocks. -/
def footerSize : Nat := 5

/-- The instructions of a case before its body. -/
def caseHeadSize : Option Nat → Nat
  | some _ => 3
  | none => 1

mutual

/-- **The number of instructions** of code. -/
def size : Code χ μ ε → Nat
  | nothing => 0
  | seq first second => first.size + second.size
  | op _ => 1
  | within _ _ body => body.size + 2
  | blocks _ body => headerSize + body.size + footerSize
  | switch _ _ cases => 2 * casesCount cases + 1 + casesSize cases
  | call _ => 1
  | reject _ => 0

/-- The number of cases. -/
def casesCount : Cases χ μ ε → Nat
  | .none => 0
  | .case _ _ _ rest => casesCount rest + 1

/-- The number of instructions of cases. -/
def casesSize : Cases χ μ ε → Nat
  | .none => 0
  | .case _ delivered body rest => caseHeadSize delivered + body.size + casesSize rest

end

/-- The operand of an address or a count. -/
def target (address : Nat) : Int64 := Int64.ofNat address

/-- **The header of a loop over blocks.** It leaves the number of items of a block in the long
register, going to `exit` when there are none. A negative number has a byte count after it, which is
dropped; otherwise the header goes on at `entry`. -/
def header (exit entry : Nat) (label : String) : List Instruction :=
  [.read .long label,
   ⟨.evalEqual, 0, label⟩,
   ⟨.condJump, target exit, label⟩,
   ⟨.evalGreater, 0, label⟩,
   ⟨.condJump, target entry, label⟩,
   .read .unusedLong label,
   ⟨.multLong, -1, label⟩,
   ⟨.pushLoop, 0, label⟩]

/-- **The end of a loop over blocks.** It counts the item, and goes to `start` for a further block
or to `entry` for a further item. -/
def footer (start entry : Nat) (label : String) : List Instruction :=
  [⟨.popLoop, 0, label⟩,
   ⟨.addLong, -1, label⟩,
   ⟨.evalEqual, 0, label⟩,
   ⟨.condJump, target start, label⟩,
   ⟨.jump, target entry, label⟩]

/-- The tests of a switch whose first case begins at `address`. Each goes past the leading jump of
its case. -/
def tests (label : String) : (address : Nat) → Cases χ μ ε → List Instruction
  | _, .none => []
  | address, .case tag delivered body rest =>
    ⟨.evalEqual, target tag, label⟩ :: ⟨.condJump, target (address + 1), label⟩ ::
      tests label (address + caseHeadSize delivered + body.size) rest

/-- The beginning of a case: the jump with which the case before it ends, and the rewriting of the
tag. -/
def caseHead (label : String) (done tag : Nat) : Option Nat → List Instruction
  | none => [⟨.jump, target done, label⟩]
  | some index =>
    [⟨.jump, target done, label⟩,
     ⟨.addLong, Int64.ofInt ((index : Int) - (tag : Int)), label⟩,
     .set .long label]

end Code

/-- **Code ready to be laid out**: calls name methods, messages are numbered, nothing is
rejected. -/
abbrev LinkedCode := Code String Nat Empty

/-- The cases of linked code. -/
abbrev LinkedCases := Cases String Nat Empty

namespace Code

mutual

/-- The first call of a method that is not among the names. -/
def unknownCall? (names : List String) : LinkedCode → Option String
  | nothing | op _ => none
  | seq first second => (unknownCall? names first).or (unknownCall? names second)
  | within _ _ body | blocks _ body => unknownCall? names body
  | switch _ _ cases => unknownCallIn? names cases
  | call name => if names.contains name then none else some name

/-- The first call in cases of a method that is not among the names. -/
def unknownCallIn? (names : List String) : LinkedCases → Option String
  | .none => none
  | .case _ _ body rest => (unknownCall? names body).or (unknownCallIn? names rest)

/-- **The instructions of code** that begins at an address; `methods` gives the address of each
method. -/
def lower (methods : String → Nat) : (address : Nat) → LinkedCode → List Instruction
  | _, nothing => []
  | address, seq first second =>
    lower methods address first ++ lower methods (address + first.size) second
  | _, op i => [i]
  | address, within opening label body =>
    opening :: (lower methods (address + 1) body ++ [⟨.exit, 0, label⟩])
  | address, blocks label body =>
    let entry := address + headerSize - 1
    let exit := address + headerSize + body.size + footerSize
    header exit entry label ++ lower methods (address + headerSize) body ++
      footer address entry label
  | address, switch label message cases =>
    let first := address + 2 * casesCount cases + 1
    let done := first + casesSize cases
    tests label first cases ++ ⟨.halt, target message, label⟩ ::
      lowerCases methods label done first cases
  | _, call name => [⟨.call, target (methods name), name⟩]

/-- The instructions of cases that begin at an address, `done` being the address after them. -/
def lowerCases (methods : String → Nat) (label : String) (done : Nat) :
    (address : Nat) → LinkedCases → List Instruction
  | _, .none => []
  | address, .case tag delivered body rest =>
    caseHead label done tag delivered ++
      lower methods (address + caseHeadSize delivered) body ++
      lowerCases methods label done (address + caseHeadSize delivered + body.size) rest

end

end Code

end Avro
