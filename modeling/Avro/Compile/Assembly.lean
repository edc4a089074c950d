import Avro.Compile.Plan

/-!
# Assemblies

An assembly is the linked code of a pair of schemas: the main code and a method for every demand
that is met. Plans are walked depth first, in the order in which their instructions will stand. A
switch registers its message when it is met, a call its method; a method's own plan is walked right
where it is first called, so its messages are numbered, and the methods that it calls are
registered, before those of what follows the call. A rejection ends the walk with its reason.

Methods are known by their names alone. Two demands of one name share one method, that of the demand
met first.

The walk of a plan recurses on the plan. Going into the plan of a method uses up one of a number of
methods, which suffices because each of them registers a new name.
-/

namespace Avro

/-- **A method** of an assembly. -/
structure Method where
  /-- The name. -/
  name : String
  /-- The code, up to the final return. -/
  code : LinkedCode

/-- **What has been registered so far.** -/
structure Registry where
  /-- The names of the methods. -/
  methods : List String
  /-- The messages; the first has number 1. -/
  messages : List String
  deriving DecidableEq, Repr, Inhabited

namespace Registry

/-- Nothing registered. -/
def empty : Registry := ⟨[], []⟩

end Registry

/-- A computation that registers methods and messages and may reject. -/
abbrev Assembling (α : Type) := StateT Registry (Except CompileError) α

/-- Registers a message and gives its number. -/
def registerMessage (message : String) : Assembling Nat := fun registry =>
  .ok (registry.messages.length + 1,
    { registry with messages := registry.messages ++ [message] })

namespace Plan

mutual

/-- **Links a plan**: its linked code and the methods that are met in it for the first time, in the
order of their registration. `onCall` links a call. -/
def link (onCall : Demand → Assembling (String × List Method)) :
    Plan → Assembling (LinkedCode × List Method)
  | .nothing => return (.nothing, [])
  | .seq first second => do
    let (first, methods) ← link onCall first
    let (second, others) ← link onCall second
    return (.seq first second, methods ++ others)
  | .op i => return (.op i, [])
  | .within opening label body => do
    let (body, methods) ← link onCall body
    return (.within opening label body, methods)
  | .blocks label body => do
    let (body, methods) ← link onCall body
    return (.blocks label body, methods)
  | .switch label message cases => do
    let number ← registerMessage message
    let (cases, methods) ← linkCases onCall cases
    return (.switch label number cases, methods)
  | .call demand => do
    let (name, methods) ← onCall demand
    return (.call name, methods)
  | .reject reason => throw reason

/-- Links the cases of a switch. -/
def linkCases (onCall : Demand → Assembling (String × List Method)) :
    PlanCases → Assembling (LinkedCases × List Method)
  | .none => return (.none, [])
  | .case tag delivered body rest => do
    let (body, methods) ← link onCall body
    let (rest, others) ← linkCases onCall rest
    return (.case tag delivered body rest, methods ++ others)

end

end Plan

/-- **Links a call.** The plan of a method that is not registered yet is linked at once; at most
`budget` methods are linked inside one another. -/
def linkCall (writer reader : Schema) : (budget : Nat) → Demand → Assembling (String × List Method)
  | 0, demand => throw (.internal s!"no method left for `{demand.methodName}`")
  | budget + 1, demand => do
    let name := demand.methodName
    let registry ← get
    if registry.methods.contains name then return (name, [])
    set { registry with methods := registry.methods ++ [name] }
    let (code, others) ← (demand.body writer reader).link (linkCall writer reader budget)
    return (name, ⟨name, code⟩ :: others)

/-- The number of records that a schema declares. -/
def Schema.recordCount (s : Schema) : Nat :=
  (s.definitions.filter fun
    | .record _ => true
    | _ => false).length

/-- **The linked code of a pair of schemas.** -/
structure Assembly where
  /-- The code of the root, up to the final halt. -/
  main : LinkedCode
  /-- The methods in the order of their registration. -/
  methods : List Method
  /-- The messages; the first has number 1. -/
  messages : List String

namespace Assembly

/-- **Assembles a pair of schemas.** There are at most as many methods as pairs of a writer's record
with a reader's record or nothing; one more step meets a method that is registered. -/
def ofSchemas (writer reader : Schema) : Except CompileError Assembly :=
  let budget := writer.recordCount * (reader.recordCount + 1) + 1
  let plan := Plan.deliver writer writer.root reader reader.root "root"
  match (plan.link (linkCall writer reader budget)).run .empty with
  | .error e => .error e
  | .ok ((main, methods), registry) => .ok ⟨main, methods, registry.messages⟩

end Assembly

end Avro
