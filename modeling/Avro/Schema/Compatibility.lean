import Avro.Schema.Basic

/-!
# Compatibility of types

Two questions about a type of a writer's schema and a type of a reader's schema. *Can data of the
one be read as the other* (`Schema.readable`): primitives by promotion, arrays and maps by their
parts, named types by their names, and a union if some branch can – fields of records are not
looked at, so the answer does not depend on recursion through names. *Are they the same type*
(`Schema.exact`): equal primitives, arrays and maps of the same, and definitions of one kind whose
names agree.

Both recurse on the writer's type. Reader unions are taken apart first (`TypeExpr.someBranch`), so
that the reader's type never has to shrink on its own.
-/

namespace Avro

namespace TypeExpr

mutual

/-- Whether a test holds of a type or, for a union, of some branch of it. -/
def someBranch (test : TypeExpr → Bool) : TypeExpr → Bool
  | union branches => someBranchOf test branches
  | t => test t

/-- Whether a test holds of some type of a list, with unions taken apart. -/
def someBranchOf (test : TypeExpr → Bool) : List TypeExpr → Bool
  | [] => false
  | t :: rest => someBranch test t || someBranchOf test rest

end

end TypeExpr

namespace Schema

/-- Whether data of the named type `w` can be read as the named type `r`. -/
def readableName (writer : Schema) (w : FullName) (reader : Schema) (r : FullName) : Bool :=
  match writer.definition? w, reader.definition? r with
  | some (.record wd), some (.record rd) => rd.name.standsFor rd.aliases wd.name
  | some (.enum wd), some (.enum rd) => rd.name.standsFor rd.aliases wd.name
  | some (.fixed wd), some (.fixed rd) =>
    wd.size = rd.size && rd.name.standsFor rd.aliases wd.name
  | _, _ => false

mutual

/-- **Whether data of a writer's type can be read as a reader's type.** -/
def readable (writer : Schema) : TypeExpr → (reader : Schema) → TypeExpr → Bool
  | .union branches, reader, r => readableSome writer branches reader r
  | .primitive p, _, r =>
    r.someBranch fun
      | .primitive q => p.promotesTo q
      | _ => false
  | .array items, reader, r =>
    r.someBranch fun
      | .array items' => readable writer items reader items'
      | _ => false
  | .map values, reader, r =>
    r.someBranch fun
      | .map values' => readable writer values reader values'
      | _ => false
  | .named name, reader, r =>
    r.someBranch fun
      | .named name' => readableName writer name reader name'
      | _ => false

/-- Whether data of some branch can be read as a reader's type. -/
def readableSome (writer : Schema) : List TypeExpr → (reader : Schema) → TypeExpr → Bool
  | [], _, _ => false
  | branch :: rest, reader, r =>
    readable writer branch reader r || readableSome writer rest reader r

end

/-- **Whether two types are the same** without any promotion. Unions are never the same. -/
def exact (writer : Schema) : TypeExpr → (reader : Schema) → TypeExpr → Bool
  | .primitive p, _, .primitive q => p = q
  | .named w, reader, .named r =>
    match writer.definition? w, reader.definition? r with
    | some wd, some rd => wd.kind = rd.kind && rd.acceptsName w
    | _, _ => false
  | .array items, reader, .array items' => exact writer items reader items'
  | .map values, reader, .map values' => exact writer values reader values'
  | _, _, _ => false

/-- **The branch of a reader union that receives data of a writer's type**: the first that is the
same type, else the first as which the data can be read. -/
def branchFor? (writer : Schema) (w : TypeExpr) (reader : Schema) (branches : List TypeExpr) :
    Option Nat :=
  (branches.findIdx? fun branch => writer.exact w reader branch).or
    (branches.findIdx? fun branch => writer.readable w reader branch)

end Schema

end Avro
