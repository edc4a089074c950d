import Avro.Proofs.Resolution.OwnBranch

/-!
# What switches choose between

A plan has a switch where it reads a union, whether it delivers the union or
not, and where it delivers an enum (`Plan.SwitchOver`). What it chooses between
are the alternatives of the written tags: one for each branch or symbol in
order, which is a case or, if the reader has nothing to receive it, none.

The cases of all three are numbered alike (`Plan.casesOf`), so where they stand
is a matter of the alternatives alone.
-/

namespace Avro

/-- **An alternative of a switch**: what is delivered for a tag and what is run
then, or nothing if there is no case for the tag. -/
abbrev Alternative := Option (Option Nat × Plan)

/-- The number of instructions of the case. -/
def Alternative.size : Alternative → Nat
  | none => 0
  | some (delivered, inner) => Code.caseHeadSize delivered + inner.size

namespace Plan

/-- **The cases of alternatives**, numbered from a tag on. -/
def casesOf : (tag : Nat) → List Alternative → PlanCases
  | _, [] => .none
  | tag, none :: rest => casesOf (tag + 1) rest
  | tag, some (delivered, inner) :: rest =>
    .case tag delivered inner (casesOf (tag + 1) rest)

theorem casesSize_casesOf : ∀ (alternatives : List Alternative) (tag : Nat),
    Code.casesSize (casesOf tag alternatives)
      = (alternatives.map Alternative.size).sum
  | [], _ => by
    rw [casesOf, Code.casesSize]
    rfl
  | none :: rest, tag => by
    rw [casesOf, casesSize_casesOf rest, List.map_cons, List.sum_cons,
      Alternative.size, Nat.zero_add]
  | some (delivered, inner) :: rest, tag => by
    rw [casesOf, Code.casesSize, casesSize_casesOf rest, List.map_cons,
      List.sum_cons, Alternative.size]

theorem casesCount_casesOf : ∀ (alternatives : List Alternative) (tag : Nat),
    Code.casesCount (casesOf tag alternatives)
      = alternatives.countP Option.isSome
  | [], _ => by
    rw [casesOf, Code.casesCount]
    rfl
  | none :: rest, tag => by
    rw [casesOf, casesCount_casesOf rest, List.countP_cons_of_neg (by simp)]
  | some (delivered, inner) :: rest, tag => by
    rw [casesOf, Code.casesCount, casesCount_casesOf rest,
      List.countP_cons_of_pos rfl]

/-! ## The alternatives of unions and enums -/

variable {writer reader : Schema} {label : String}

/-- What is done with a branch of a writer's union that is read as a type: it
is entered as a branch of a reader's union, or delivered as it is if it can be
read as a type that is no union. -/
def branchAlternative (writer : Schema) (label : String) (reader : Schema)
    (r branch : TypeExpr) : Alternative :=
  match r with
  | .union readers => branchCase? writer label reader readers branch
  | r =>
    if writer.readable branch reader r then
      some (none, deliver writer branch reader r label)
    else none

/-- What is done with a symbol of a writer's enum: the position of the reader's
symbol is delivered, or that of its default symbol. -/
def symbolAlternative (r : EnumType) (symbol : String) : Alternative :=
  ((r.symbolIndex? symbol).or (r.default.bind r.symbolIndex?)).map
    fun index => (some index, .nothing)

theorem branchCases_eq (r : TypeExpr) :
    ∀ (branches : List TypeExpr) (tag : Nat),
      branchCases writer label tag branches reader r
        = casesOf tag (branches.map (branchAlternative writer label reader r))
  | [], _ => by
    rw [branchCases]
    rfl
  | branch :: rest, tag => by
    have hrest := branchCases_eq r rest (tag + 1)
    cases hr : r.isUnion with
    | true =>
      obtain ⟨readers, rfl⟩ := TypeExpr.isUnion_iff.mp hr
      rw [branchCases_cons_union, hrest, List.map_cons, branchAlternative]
      cases branchCase? writer label reader readers branch <;> rfl
    | false =>
      have halternative : branchAlternative writer label reader r branch
          = if writer.readable branch reader r then
              some (none, deliver writer branch reader r label)
            else none := by
        cases r <;> first | rfl | cases hr
      rw [branchCases_cons hr, hrest, List.map_cons, halternative]
      split <;> rfl

theorem discardCases_eq : ∀ (branches : List TypeExpr) (tag : Nat),
    discardCases writer label tag branches
      = casesOf tag (branches.map fun branch =>
          some (none, discard writer branch label))
  | [], _ => by
    rw [discardCases]
    rfl
  | branch :: rest, tag => by
    rw [discardCases, discardCases_eq rest, List.map_cons, casesOf]

theorem symbolCases_eq (r : EnumType) : ∀ (symbols : List String) (tag : Nat),
    symbolCases r (r.default.bind r.symbolIndex?) tag symbols
      = casesOf tag (symbols.map (symbolAlternative r))
  | [], _ => by
    rw [symbolCases]
    rfl
  | symbol :: rest, tag => by
    rw [symbolCases, symbolCases_eq r rest, List.map_cons, symbolAlternative]
    cases (r.symbolIndex? symbol).or (r.default.bind r.symbolIndex?) <;> rfl

/-- **A plan is a switch over alternatives**: how the tag is read, the message
for a tag without a case, and an alternative for each tag. -/
inductive SwitchOver (writer reader : Schema) (label : String) :
    Plan → Kind → String → List Alternative → Prop
  /-- A union is delivered. -/
  | delivered (branches : List TypeExpr) (r : TypeExpr) :
    SwitchOver writer reader label
      (deliver writer (.union branches) reader r label) .long
      s!"written branch of `{(TypeExpr.union branches).text}` cannot be read as `{r.text}`"
      (branches.map (branchAlternative writer label reader r))
  /-- A union is discarded. -/
  | discarded (branches : List TypeExpr) :
    SwitchOver writer reader label (discard writer (.union branches) label)
      .long s!"union tag out of range for `{(TypeExpr.union branches).text}`"
      (branches.map fun branch => some (none, discard writer branch label))
  /-- An enum is delivered. -/
  | enum (w r : EnumType) :
    SwitchOver writer reader label (deliverEnum w r label) .intAsLong
      s!"symbol of `{w.name.text}` is not declared by `{r.name.text}`"
      (w.symbols.map (symbolAlternative r))

/-- **The plan of a switch**, if it is not rejected: the tag is read, and then
comes the switch. -/
theorem SwitchOver.eq_of_accepted {R : Demand → Prop} {plan : Plan}
    {kind : Kind} {message : String} {alternatives : List Alternative}
    (h : SwitchOver writer reader label plan kind message alternatives)
    (haccepted : plan.Accepted R) :
    plan = .seq (read kind label)
      (.switch label message (casesOf 0 alternatives)) := by
  cases h with
  | delivered branches r =>
    rw [deliver] at haccepted ⊢
    cases hshape : reader.shape? r with
    | none =>
      rw [hshape] at haccepted
      exact haccepted.elim
    | some shape =>
      rw [hshape] at haccepted
      dsimp only at haccepted ⊢
      split at haccepted
      · exact haccepted.elim
      · rename_i hcases
        rw [if_neg hcases, branchCases_eq]
  | discarded branches => rw [discard, discardCases_eq]
  | enum w r => rw [deliverEnum, symbolCases_eq]

/-- The tag is a 64-bit or a 32-bit integer. -/
theorem SwitchOver.ofOperand?_operand {plan : Plan} {kind : Kind}
    {message : String} {alternatives : List Alternative}
    (h : SwitchOver writer reader label plan kind message alternatives) :
    Kind.ofOperand? kind.operand = some kind := by
  cases h <;> rfl

end Plan

end Avro
