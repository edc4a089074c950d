import Avro.Program.Basic
import Avro.Program.Defect
import Avro.Wire.Read
import Avro.Wire.Write

/-!
# Stored programs

A program is stored as its instructions, its methods in the order of their addresses, and its
messages, each list with its length in front. Lengths and addresses are base-128 naturals, operands
are zigzag integers, an operation is one byte and a text is its length and its bytes.

Loading decodes all of the data first, then checks the operations, then the addresses of methods;
bytes after the data are ignored. A natural takes at most ten bytes, of which the tenth is at most 1.
-/

namespace Avro

namespace Program

/-! ## Storing -/

/-- The bytes of a text. -/
def storedText (s : String) : List UInt8 := Wire.varint (utf8 s).length ++ utf8 s

/-- The bytes of an instruction. -/
def storedInstruction (i : Instruction) : List UInt8 :=
  i.op.byte :: (Wire.integer i.operand.toInt ++ storedText i.label)

/-- The bytes of a method. -/
def storedMethod (m : String × Nat) : List UInt8 := storedText m.1 ++ Wire.varint m.2

/-- The bytes of a list, its length in front. -/
def storedList {α : Type} (stored : α → List UInt8) (items : List α) : List UInt8 :=
  Wire.varint items.length ++ items.flatMap stored

/-- **The stored form of a program.** -/
def toBytes (p : Program) : List UInt8 :=
  storedList storedInstruction p.instructions.toList ++ storedList storedMethod p.methodList ++
    storedList storedText p.errors

/-! ## Loading -/

/-- **Why stored data cannot be decoded.** -/
inductive LoadFault
  /-- The data ends too early. -/
  | endOfData
  /-- A natural that is too long. -/
  | badVarint
  /-- A text that is not UTF-8. -/
  | badText
  deriving DecidableEq, Repr

/-- The wording of a fault. -/
def LoadFault.text : LoadFault → String
  | endOfData => "Hit the end of buffer, expected more data"
  | badVarint => "Found a varint that didn't terminate. Is the usize too big for this platform?"
  | badText => "Tried to parse invalid utf-8"

/-- A computation that takes bytes off stored data. -/
abbrev Load (α : Type) := StateT (List UInt8) (Except LoadFault) α

/-- Takes a byte. -/
def loadByte : Load UInt8 := fun data =>
  match data with
  | b :: rest => .ok (b, rest)
  | [] => .error .endOfData

/-- Takes the digits of a natural from a place on, at most `more` further ones after this. -/
def loadVarintFrom : (more place value : Nat) → Load Nat
  | more, place, value => do
    let b ← loadByte
    let value := value + b.toNat % 128 * Nat.pow 2 place
    match more with
    | 0 => if b.toNat ≤ 1 then return value else throw .badVarint
    | more + 1 => if 128 ≤ b.toNat then loadVarintFrom more (place + 7) value else return value

/-- Takes a natural. -/
def loadVarint : Load Nat := loadVarintFrom 9 0 0

/-- Takes a text. -/
def loadText : Load String := do
  let length ← loadVarint
  let data ← get
  let taken := data.take length
  if taken.length < length then throw .endOfData
  set (data.drop length)
  match Wire.textOfBytes? taken with
  | some s => return s
  | none => throw .badText

/-- Takes a number of items. -/
def loadItems {α : Type} (item : Load α) : (count : Nat) → Load (List α)
  | 0 => return []
  | count + 1 => do
    let first ← item
    let others ← loadItems item count
    return first :: others

/-- Takes a list. -/
def loadList {α : Type} (item : Load α) : Load (List α) := do loadItems item (← loadVarint)

/-- **An instruction as it is stored**, its operation not yet checked. -/
structure StoredInstruction where
  /-- The byte of the operation. -/
  byte : UInt8
  /-- The operand. -/
  operand : Int64
  /-- The label. -/
  label : String
  deriving DecidableEq, Repr

/-- Takes an instruction. -/
def loadInstruction : Load StoredInstruction := do
  let byte ← loadByte
  let operand ← loadVarint
  let label ← loadText
  return ⟨byte, Int64.ofInt (Wire.unzigzag operand), label⟩

/-- Takes a method. -/
def loadMethod : Load (String × Nat) := do
  let name ← loadText
  let address ← loadVarint
  return (name, address)

/-- Takes a program, its operations not yet checked. -/
def loadParts : Load (List StoredInstruction × List (String × Nat) × List String) := do
  let instructions ← loadList loadInstruction
  let methods ← loadList loadMethod
  let errors ← loadList loadText
  return (instructions, methods, errors)

/-- Checks operations. -/
def checkOpcodes : List StoredInstruction → Except Defect (List Instruction)
  | [] => .ok []
  | i :: rest =>
    match Opcode.ofByte? i.byte with
    | none => .error (.unknownOpcode i.byte)
    | some op => (checkOpcodes rest).map (⟨op, i.operand, i.label⟩ :: ·)

/-- **Loads a stored program.** -/
def ofBytes? (bytes : List UInt8) : Except Defect Program :=
  match loadParts.run bytes with
  | .error fault => .error (.malformed fault.text)
  | .ok ((stored, methods, errors), _) =>
    match checkOpcodes stored with
    | .error e => .error e
    | .ok instructions =>
      match methods.find? (instructions.length ≤ ·.2) with
      | some (name, address) =>
        .error (.malformed s!"method `{name}` starts at {address}, past the end of the program")
      | none => .ok ⟨instructions.toArray, Entries.ofList methods, errors⟩

end Program

end Avro
