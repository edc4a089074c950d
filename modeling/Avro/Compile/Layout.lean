import Avro.Compile.Assembly

/-!
# Laying programs out

A program is the main code, ended by a halt, and then each method, ended by a return, in the order
of their registration. Addresses follow from the sizes.
-/

namespace Avro

namespace Assembly

/-- The addresses of methods of which the first begins at an address. -/
def addresses : (address : Nat) → List Method → List (String × Nat)
  | _, [] => []
  | address, m :: rest => (m.name, address) :: addresses (address + m.code.size + 1) rest

/-- The instructions of methods of which the first begins at an address. -/
def methodInstructions (methods : String → Nat) : (address : Nat) → List Method → List Instruction
  | _, [] => []
  | address, m :: rest =>
    m.code.lower methods address ++ ⟨.return, 0, m.name⟩ ::
      methodInstructions methods (address + m.code.size + 1) rest

/-- The first call of a method that the assembly does not have. -/
def unknownCall? (a : Assembly) : Option String :=
  let names := a.methods.map (·.name)
  (a.main.unknownCall? names).or (a.methods.findSome? (·.code.unknownCall? names))

/-- **The program of an assembly.** -/
def program (a : Assembly) : Except CompileError Program :=
  match a.unknownCall? with
  | some name => .error (.unknownMethod name)
  | none =>
    let first := a.main.size + 1
    let table := addresses first a.methods
    let methods (name : String) : Nat := (Entries.find? name table).getD 0
    let instructions :=
      a.main.lower methods 0 ++ ⟨.halt, 0, "end"⟩ :: methodInstructions methods first a.methods
    .ok ⟨instructions.toArray, Entries.ofList table, a.messages⟩

end Assembly

/-- **Compiles a pair of schemas**: the program that reads data of the writer's schema into sinks of
the reader's. -/
def compile (writer reader : Schema) : Except CompileError Program :=
  match Assembly.ofSchemas writer reader with
  | .error e => .error e
  | .ok assembly => assembly.program

end Avro
