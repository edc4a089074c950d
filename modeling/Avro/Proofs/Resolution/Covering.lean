import Avro.Proofs.Decoding.Covering
import Avro.Proofs.Decoding.Plans
import Avro.Proofs.Resolution.Skipping

/-!
# Skipping keeps up with delivering

Whatever a plan reads of data of a type in order to deliver it as another
type, skipping the type reads as well (`Plan.covered_deliver`), and the same
is true of a plan that discards (`Plan.covered_discard`), which matters when
fewer levels are left to it.

The recursion follows the writer's type, and the records come from an induction
on the depth. A union is the place where the two could read different data:
the reader's cases leave out branches that cannot be read, so the case that is
met must be the case of the branch that skipping finds by the same number.
-/

namespace Avro

open Running (CoveredBy)
open Decoding (onInput deeper)

/-! ## Primitive types -/

/-- **A promotion reads the bytes that are dropped.** -/
theorem Plan.promotion?_readLike {w r : Primitive} {kind : Kind}
    (h : promotion? w r = some kind) : kind.ReadLike w.dropped := by
  cases w <;> cases r <;> cases h <;>
    first
    | exact .refl _
    | exact .string
    | exact .of_read rfl rfl

/-- The writer's record that a demand is for. -/
def Demand.written : Demand → FullName
  | deliver w _ | discard w => w

namespace Plan

variable {σ : Type} {k : Sink σ} {limit levels levels' : Nat}
  {body : Demand → Plan} {writer reader : Schema} {R : Demand → Prop}
  {depth : Nat} {record : RecordType → Decoding Unit} {m : Decoding Unit}

/-! ## Types without parts -/

/-- Delivering a primitive. -/
theorem covered_primitive (w r : Primitive) (label : String)
    (h : Accepted R (deliverPrimitive w r label)) :
    Covered k limit levels levels' body (deliverPrimitive w r label)
      w.skip := by
  unfold deliverPrimitive at h ⊢
  unfold Primitive.skip
  by_cases hnull : w = .null ∧ r = .null
  · rw [if_pos hnull, if_pos hnull.1]
    exact .nothing
  · rw [if_neg hnull] at h ⊢
    cases hkind : promotion? w r with
    | none => simp only [hkind] at h; exact h.elim
    | some kind =>
      have hw : w ≠ .null := by
        rintro rfl
        cases r <;> simp [promotion?] at hkind
        exact hnull ⟨rfl, rfl⟩
      rw [if_neg hw]
      exact .seq_op (.read (promotion?_operand hkind)
        (promotion?_readLike hkind) label) (by simp [Instruction.set])

/-- The cases of an enum do not read. -/
theorem unread_symbolCases (e : EnumType) (fallback : Option Nat)
    (message : String) (below : Option (Plan → Running σ Frame)) :
    ∀ (symbols : List String) (tag : Nat) (frame : Frame),
      (evalCases k limit body below message
        (symbolCases e fallback tag symbols) frame).Unread
  | [], tag, frame => by
    rw [symbolCases, evalCases]
    exact .throw (by simp)
  | symbol :: rest, tag, frame => by
    have ih := unread_symbolCases e fallback message below rest (tag + 1)
      frame
    rw [symbolCases]
    cases (e.symbolIndex? symbol).or fallback with
    | none => exact ih
    | some index =>
      dsimp only
      rw [evalCases]
      split
      · refine .bind (.bind (.calling _) fun _ => .pure _) fun frame => ?_
        rw [evalWith]
        exact .pure frame
      · exact ih

/-- Delivering an enum. -/
theorem covered_enum (w r : EnumType) (label : String) :
    Covered k limit levels levels' body (deliverEnum w r label)
      Kind.int.skip := by
  intro frame
  have hread : Covered k limit levels levels' body (read .intAsLong label)
      Kind.int.skip := .read rfl (.of_read rfl rfl) label
  unfold deliverEnum
  dsimp only
  rw [eval_seq]
  refine .bind_unread (hread frame) fun frame => ?_
  rw [eval_eq, evalWith]
  exact unread_symbolCases r _ _ _ w.symbols 0 frame

/-- Delivering a fixed. -/
theorem covered_fixed {w r : FixedType}
    (hkind : Kind.ofOperand? (Kind.fixed w.size).operand
      = some (.fixed w.size)) (label : String)
    (h : Accepted R (deliverFixed w r label)) :
    Covered k limit levels levels' body (deliverFixed w r label)
      (Kind.fixed w.size).skip := by
  unfold deliverFixed at h ⊢
  split at h
  · rename_i hsize
    rw [if_pos hsize]
    exact .seq_op (.read hkind (.refl _) label) (by simp [Instruction.set])
  · exact h.elim

/-! ## Selecting a branch -/

section

variable {w : TypeExpr} {label : String}
  {pick : List TypeExpr → Option Nat} {leaf : TypeExpr → Plan}

mutual

/-- **Deciding a reader's union reads nothing.** -/
theorem covered_choosing
    (hpick : ∀ branches index, pick branches = some index →
      index < branches.length)
    (hleaf : ∀ t, Accepted R (leaf t) → ∀ l, l ≤ levels →
      Covered k limit l levels' body (leaf t) m) :
    ∀ r : TypeExpr, Accepted R (choosing w label pick leaf r) →
      ∀ l, l ≤ levels →
        Covered k limit l levels' body (choosing w label pick leaf r) m
  | .union branches, h, l, hl => by
    rw [choosing] at h ⊢
    cases hp : pick branches with
    | none => simp only [hp] at h; exact h.elim
    | some index =>
      simp only [hp] at h ⊢
      exact .op_seq (by simp) (.op_seq (by simp)
        (.op_seq (by simp [Instruction.set])
          (covered_choosingBranch hpick hleaf index index branches
            (hpick branches index hp) h.2.2.2 l hl)))
  | .primitive p, h, l, hl => by
    rw [choosing_leaf rfl] at h ⊢
    exact hleaf _ h l hl
  | .array items, h, l, hl => by
    rw [choosing_leaf rfl] at h ⊢
    exact hleaf _ h l hl
  | .map values, h, l, hl => by
    rw [choosing_leaf rfl] at h ⊢
    exact hleaf _ h l hl
  | .named name, h, l, hl => by
    rw [choosing_leaf rfl] at h ⊢
    exact hleaf _ h l hl

/-- Going on with a branch. -/
theorem covered_choosingBranch
    (hpick : ∀ branches index, pick branches = some index →
      index < branches.length)
    (hleaf : ∀ t, Accepted R (leaf t) → ∀ l, l ≤ levels →
      Covered k limit l levels' body (leaf t) m) (index : Nat) :
    ∀ (position : Nat) (branches : List TypeExpr),
      position < branches.length →
      Accepted R (choosingBranch w label pick leaf index position branches) →
      ∀ l, l ≤ levels → Covered k limit l levels' body
        (choosingBranch w label pick leaf index position branches) m
  | _, [], hlt, _, _, _ => absurd hlt (by simp)
  | 0, branch :: _, _, h, l, hl => by
    rw [choosingBranch] at h ⊢
    exact .entering (fun l' hl' => covered_choosing hpick hleaf branch
      (accepted_entering.mp h) l' (Nat.le_trans hl' hl)) label
  | position + 1, _ :: rest, hlt, h, l, hl => by
    rw [choosingBranch] at h ⊢
    exact covered_choosingBranch hpick hleaf index position rest
      (Nat.lt_of_succ_lt_succ hlt) h l hl

end

end

/-! ## Records -/

variable (k limit body writer R depth record) in
/-- What is meant for the records on the levels below: methods that read them
are covered. -/
def CoversRecords : Prop :=
  ∀ d r, writer.definition? d.written = some (.record r) → R d →
    ∀ l l', l < depth → l ≤ l' → Covered k limit l l' body (body d) (record r)

/-- Delivering a named type as a type that is no union. -/
theorem covered_named (hwriter : writer.Fits)
    (hrecord : CoversRecords k limit body writer R depth record)
    (hlevels : levels ≤ depth) (hle : levels ≤ levels') {name : FullName}
    {r : TypeExpr} {label : String}
    (h : Accepted R (deliverNamed writer name reader r label)) :
    Covered k limit levels levels' body
      (deliverNamed writer name reader r label)
      (skipWith limit writer record (.named name)) := by
  have hmatch := namesMatch_of_accepted h
  unfold deliverNamed at h ⊢
  rw [skipWith]
  cases hmatch with
  | @record wd rd hw hr hstands =>
    obtain ⟨-, hwd⟩ := Schema.shape?_named (d := .record wd) hw
    simp only [hw, hr, if_pos hstands] at h ⊢
    exact .call hle fun l l' hl hl' =>
      hrecord (.deliver wd.name rd.name) wd hwd h l l' (by omega) hl'
  | @enum we re hw hr hstands =>
    simp only [hw, hr, if_pos hstands]
    exact covered_enum we re label
  | fixed hw hr hstands =>
    simp only [hw, hr, if_pos hstands] at h ⊢
    exact covered_fixed (Kind.ofOperand?_fixed hwriter hw) label h

/-! ## Unions -/

/-- **The case of a branch**, if there is one, delivers the branch, and
perhaps enters a branch of the reader's union before. -/
theorem branchCases_eq_or (label : String) (tag : Nat) (branch : TypeExpr)
    (rest : List TypeExpr) (r : TypeExpr) :
    branchCases writer label tag (branch :: rest) reader r
        = branchCases writer label (tag + 1) rest reader r
      ∨ ∃ delivered inner r',
        branchCases writer label tag (branch :: rest) reader r
          = .case tag delivered inner
            (branchCases writer label (tag + 1) rest reader r)
        ∧ (inner = deliver writer branch reader r' label
          ∨ ∃ index, inner
            = entering r' index label (deliver writer branch reader r' label))
    := by
  cases hr : r.isUnion with
  | false =>
    rw [branchCases_cons hr]
    split
    · exact .inr ⟨_, _, r, rfl, .inl rfl⟩
    · exact .inl rfl
  | true =>
    obtain ⟨readers, rfl⟩ := TypeExpr.isUnion_iff.mp hr
    rw [branchCases]
    split
    · exact .inl rfl
    · split
      · exact .inl rfl
      · exact .inr ⟨_, _, _, rfl, .inr ⟨_, rfl⟩⟩

/-- Beyond the number in the long register there is no case. -/
theorem evalCases_branchCases_of_lt {label message : String} {n : Nat}
    {r : TypeExpr} {below : Option (Plan → Running σ Frame)} :
    ∀ {branches : List TypeExpr} {tag : Nat} {frame : Frame},
      frame.long = Int64.ofNat n → n < tag →
      tag + branches.length ≤ 0x8000000000000000 →
      evalCases k limit body below message
        (branchCases writer label tag branches reader r) frame
        = throw (.halt message)
  | [], tag, frame, _, _, _ => by rw [branchCases, evalCases]
  | branch :: rest, tag, frame, hlong, hlt, hcount => by
    have hbound : tag + rest.length + 1 ≤ 0x8000000000000000 := hcount
    have hrest := @evalCases_branchCases_of_lt label message n r below rest
      (tag + 1) frame hlong (by omega) (by omega)
    rcases @branchCases_eq_or writer reader label tag branch rest r with
      heq | ⟨delivered, inner, r', heq, -⟩
    · rw [heq]
      exact hrest
    · have hne : frame.long ≠ Int64.ofNat tag := by
        rw [hlong]
        exact Int64.ofNat_ne_of_lt hlt (by omega)
      rw [heq, evalCases, if_neg hne]
      exact hrest

/-- The case that is met is the case of the branch of the number. -/
theorem covered_branchCases {label message message' : String} {r : TypeExpr}
    (frame : Frame) :
    ∀ {branches : List TypeExpr} {tag : Nat},
      tag + branches.length ≤ 0x8000000000000000 →
      (∀ branch ∈ branches, ∀ r', Accepted R
          (deliver writer branch reader r' label) →
        ∀ l, l ≤ levels → Covered k limit l levels' body
          (deliver writer branch reader r' label)
          (skipWith limit writer record branch)) →
      AcceptedAll R (branchCases writer label tag branches reader r) →
      CoveredBy (fun _ _ => True)
        (evalCases k limit body (evalBelow k limit body levels) message
          (branchCases writer label tag branches reader r) frame)
        (onInput (skipBranch limit writer record message' frame.long tag
          branches levels') : Running Unit Unit)
  | [], tag, _, _, _ => by
    rw [branchCases, evalCases]
    exact .throw (by rintro ⟨_, ⟨⟩⟩) _
  | branch :: rest, tag, hcount, hbranch, h => by
    have hbound : tag + rest.length + 1 ≤ 0x8000000000000000 := hcount
    have ih := @covered_branchCases label message message' r frame rest
      (tag + 1) (by omega) fun b hb => hbranch b (List.mem_cons_of_mem _ hb)
    rw [skipBranch]
    by_cases htag : frame.long = Int64.ofNat tag
    · rw [if_pos htag]
      rcases @branchCases_eq_or writer reader label tag branch rest r with
        heq | ⟨delivered, inner, r', heq, hinner⟩
      · rw [heq, evalCases_branchCases_of_lt htag (Nat.lt_succ_self tag)
          (by omega)]
        exact .throw (by rintro ⟨_, ⟨⟩⟩) _
      · rw [heq] at h ⊢
        rw [evalCases, if_pos htag]
        have hdeliver := hbranch branch List.mem_cons_self r'
        have hcovered : Covered k limit levels levels' body inner
            (skipWith limit writer record branch) := by
          rcases hinner with rfl | ⟨index, rfl⟩
          · exact hdeliver h.1 levels (Nat.le_refl _)
          · exact .entering (hdeliver (accepted_entering.mp h.1)) label
        refine .of_unread_bind ?_ fun frame => ?_
        · cases delivered with
          | none => exact .pure _
          | some index => exact .bind (.calling _) fun _ => .pure _
        · rw [← eval_eq]
          exact hcovered frame
    · rw [if_neg htag]
      rcases @branchCases_eq_or writer reader label tag branch rest r with
        heq | ⟨delivered, inner, r', heq, -⟩
      · rw [heq] at h ⊢
        exact ih h
      · rw [heq] at h ⊢
        rw [evalCases, if_neg htag]
        exact ih h.2

/-! ## Types -/

mutual

/-- A plan that delivers is covered by skipping, if the records are. -/
theorem covered_deliverWith (hwriter : writer.Fits)
    (hrecord : CoversRecords k limit body writer R depth record) :
    ∀ (w r : TypeExpr) (label : String), w.Fits →
      Accepted R (deliver writer w reader r label) →
      ∀ levels levels', levels ≤ depth → levels ≤ levels' →
      Covered k limit levels levels' body (deliver writer w reader r label)
        (skipWith limit writer record w)
  | .primitive p, r, label, _, h, levels, levels', _, _ => by
    rw [deliver] at h ⊢
    rw [skipWith]
    refine covered_choosing (fun _ _ => branchFor?_lt) (fun t ht l hl => ?_) r
      h levels (Nat.le_refl _)
    cases t with
    | primitive q => exact covered_primitive p q label ht
    | _ => exact absurd ht not_accepted_mismatched
  | .array items, r, label, hfits, h, levels, levels', hlevels, hle => by
    rw [deliver] at h ⊢
    rw [skipWith]
    refine covered_choosing (fun _ _ => branchFor?_lt) (fun t ht l hl => ?_) r
      h levels (Nat.le_refl _)
    cases t with
    | array items' =>
      refine .blocks (Nat.le_trans hl hle) (fun l₁ l' hl₁ hl' => ?_) label
      exact .within (.inr (.inl rfl)) (fun l₂ hl₂ =>
        covered_deliverWith hwriter hrecord items items' _ hfits ht l₂ l'
          (by omega) (by omega)) label
    | _ => exact absurd ht not_accepted_mismatched
  | .map values, r, label, hfits, h, levels, levels', hlevels, hle => by
    rw [deliver] at h ⊢
    rw [skipWith]
    refine covered_choosing (fun _ _ => branchFor?_lt) (fun t ht l hl => ?_) r
      h levels (Nat.le_refl _)
    cases t with
    | map values' =>
      refine .blocks (Nat.le_trans hl hle) (fun l₁ l' hl₁ hl' => ?_) label
      refine .seq (.read rfl .string _) ?_
      exact .within (.inr (.inr rfl)) (fun l₂ hl₂ =>
        covered_deliverWith hwriter hrecord values values' _ hfits ht.2 l₂ l'
          (by omega) (by omega)) label
    | _ => exact absurd ht not_accepted_mismatched
  | .named name, r, label, _, h, levels, levels', hlevels, hle => by
    rw [deliver] at h ⊢
    cases hw : writer.shape? (.named name) with
    | none => simp only [hw] at h; exact h.elim
    | some wshape =>
      simp only [hw] at h ⊢
      exact covered_choosing (fun _ _ => branchFor?_lt) (fun t ht l hl =>
        covered_named hwriter hrecord (Nat.le_trans hl hlevels)
          (Nat.le_trans hl hle) ht) r h levels (Nat.le_refl _)
  | .union branches, r, label, hfits, h, levels, levels', hlevels, hle => by
    rw [deliver] at h ⊢
    rw [skipWith]
    cases hshape : reader.shape? r with
    | none => simp only [hshape] at h; exact h.elim
    | some rshape =>
      simp only [hshape] at h ⊢
      split at h
      · exact h.elim
      rename_i hcases
      rw [if_neg hcases]
      intro frame input s t
      rw [eval_long_switch]
      simp only [onInput, bind, ReaderT.bind, EStateM.bind, Decoding.reading]
      cases hread : Wire.readLong input with
      | error e left => exact fun _ => ⟨t, rfl⟩
      | ok n left =>
        have hcount : branches.length < 0x8000000000000000 := hfits.1
        exact covered_branchCases { frame with long := n } (by omega)
          (fun branch hbranch r' h' l hl =>
            covered_deliverAll hwriter hrecord branches hfits.2 branch hbranch
              r' label h' l levels' (Nat.le_trans hl hlevels)
              (Nat.le_trans hl hle)) h.2 left s t

/-- Every branch of a union is covered. -/
theorem covered_deliverAll (hwriter : writer.Fits)
    (hrecord : CoversRecords k limit body writer R depth record) :
    ∀ (branches : List TypeExpr), TypeExpr.AllFit branches →
      ∀ branch ∈ branches, ∀ (r : TypeExpr) (label : String),
      Accepted R (deliver writer branch reader r label) →
      ∀ levels levels', levels ≤ depth → levels ≤ levels' →
      Covered k limit levels levels' body
        (deliver writer branch reader r label)
        (skipWith limit writer record branch)
  | [], _, _, hmem, _, _, _, _, _, _, _ => absurd hmem List.not_mem_nil
  | first :: rest, hfits, branch, hmem, r, label, h, levels, levels', hlevels,
      hle => by
    rcases List.mem_cons.mp hmem with heq | hmem
    · rw [heq] at h ⊢
      exact covered_deliverWith hwriter hrecord first r label hfits.1 h levels
        levels' hlevels hle
    · exact covered_deliverAll hwriter hrecord rest hfits.2 branch hmem r label
        h levels levels' hlevels hle

end

mutual

/-- A plan that discards is covered by skipping, if the records are. -/
theorem covered_discardWith (hwriter : writer.Fits)
    (hrecord : CoversRecords k limit body writer R depth record) :
    ∀ (w : TypeExpr) (label : String),
      Accepted R (discard writer w label) →
      ∀ levels levels', levels ≤ depth → levels ≤ levels' →
      Covered k limit levels levels' body (discard writer w label)
        (skipWith limit writer record w)
  | .primitive p, label, _, levels, levels', _, _ => by
    rw [discard_primitive, skipWith, Primitive.skip]
    split
    · exact .nothing
    · exact .read p.operand_dropped (.refl _) label
  | .array items, label, h, levels, levels', hlevels, hle => by
    rw [discard] at h ⊢
    rw [skipWith]
    exact .blocks hle (fun l l' hl hl' =>
      covered_discardWith hwriter hrecord items _ h l l' (by omega) hl') label
  | .map values, label, h, levels, levels', hlevels, hle => by
    rw [discard] at h ⊢
    rw [skipWith]
    exact .blocks hle (fun l l' hl hl' => .seq (.read rfl (.refl _) _)
      (covered_discardWith hwriter hrecord values _ h.2 l l' (by omega) hl'))
      label
  | .union branches, label, h, levels, levels', hlevels, hle => by
    rw [discard] at h ⊢
    rw [skipWith]
    intro frame input s t
    rw [eval_long_switch]
    simp only [onInput, bind, ReaderT.bind, EStateM.bind, Decoding.reading]
    cases Wire.readLong input with
    | error e left => exact fun _ => ⟨t, rfl⟩
    | ok n left =>
      exact covered_discardCases hwriter hrecord label _ _ branches 0 h.2
        levels levels' hlevels hle { frame with long := n } left s t
  | .named name, label, h, levels, levels', hlevels, hle => by
    rw [discard] at h ⊢
    rw [skipWith]
    cases hs : writer.shape? (.named name) with
    | none => simp only [hs] at h; exact h.elim
    | some shape =>
      simp only [hs] at h ⊢
      cases shape with
      | record r =>
        have hr := (Schema.shape?_named (d := .record r) hs).2
        exact .call hle fun l l' hl hl' =>
          hrecord (.discard r.name) r hr h l l' (by omega) hl'
      | enum e =>
        have hint : Kind.ofOperand? Kind.int.operand = some .int := rfl
        exact .read hint (.refl _) label
      | fixed f => exact .read (Kind.ofOperand?_fixed hwriter hs) (.refl _) label
      | _ => exact h.elim

/-- The case of a number discards the branch of the number. -/
theorem covered_discardCases (hwriter : writer.Fits)
    (hrecord : CoversRecords k limit body writer R depth record)
    (label message message' : String) :
    ∀ (branches : List TypeExpr) (tag : Nat),
      AcceptedAll R (discardCases writer label tag branches) →
      ∀ levels levels', levels ≤ depth → levels ≤ levels' →
      ∀ frame, CoveredBy (fun _ _ => True)
        (evalCases k limit body (evalBelow k limit body levels) message
          (discardCases writer label tag branches) frame)
        (onInput (skipBranch limit writer record message' frame.long tag
          branches levels') : Running Unit Unit)
  | [], tag, _, levels, levels', _, _, frame => by
    rw [discardCases, evalCases]
    exact .throw (by rintro ⟨_, ⟨⟩⟩) _
  | branch :: rest, tag, h, levels, levels', hlevels, hle, frame => by
    rw [discardCases] at h ⊢
    rw [skipBranch, evalCases]
    split
    · have hcovered := covered_discardWith hwriter hrecord branch label h.1
        levels levels' hlevels hle
      rw [← eval_eq]
      exact hcovered { frame with condition := true }
    · exact covered_discardCases hwriter hrecord label message message' rest
        (tag + 1) h.2 levels levels' hlevels hle frame

end

/-! ## Bodies of records -/

/-- The plans of the written fields are covered by skipping the fields. -/
theorem covered_writtenFields {skip : TypeExpr → Decoding Unit}
    {wd rd : RecordType} {more : List Plan}
    (hdeliver : ∀ w r label, w.Fits →
      Accepted R (deliver writer w reader r label) → ∀ l, l ≤ levels →
      Covered k limit l levels' body (deliver writer w reader r label)
        (skip w))
    (hdiscard : ∀ w label, Accepted R (discard writer w label) →
      Covered k limit levels levels' body (discard writer w label) (skip w))
    (hmore : Covered k limit levels levels' body (Code.sequence more)
      (Pure.pure ())) :
    ∀ fields : List Field, (∀ wf ∈ fields, wf.type.Fits) →
      Accepted R (Code.sequence
        (writtenFields writer wd reader rd fields ++ more)) →
      Covered k limit levels levels' body (Code.sequence
        (writtenFields writer wd reader rd fields ++ more))
        (skipFields skip fields)
  | [], _, _ => hmore
  | wf :: rest, hfits, h => by
    rw [writtenFields, List.cons_append] at h ⊢
    obtain ⟨hfirst, hrest⟩ := accepted_sequence_cons h
    rw [skipFields]
    refine .sequence_cons ?_ (covered_writtenFields hdeliver hdiscard hmore rest
      (fun wf hwf => hfits wf (List.mem_cons_of_mem _ hwf)) hrest)
    cases hindex : rd.receivingIndex? wf.name with
    | none =>
      simp only [hindex] at hfirst ⊢
      exact hdiscard _ _ hfirst
    | some index =>
      have hlt := RecordType.receivingIndex?_lt hindex
      simp only [hindex, List.getElem?_eq_getElem hlt] at hfirst ⊢
      exact .entering (hdeliver _ _ _ (hfits wf List.mem_cons_self)
        (accepted_entering.mp hfirst)) _

/-- Defaults are not read. -/
theorem covered_defaultedFields {rd : RecordType} {written : List Nat} :
    ∀ (index : Nat) (fields : List Field),
      Accepted R (Code.sequence
        (defaultedFields reader rd written index fields)) →
      Covered k limit levels levels' body (Code.sequence
        (defaultedFields reader rd written index fields)) (Pure.pure ())
  | _, [], _ => .nothing
  | index, rf :: rest, h => by
    rw [defaultedFields] at h ⊢
    split at h
    · rename_i hwritten
      rw [if_pos hwritten]
      exact covered_defaultedFields (index + 1) rest h
    · rename_i hwritten
      rw [if_neg hwritten]
      obtain ⟨hfirst, hrest⟩ := accepted_sequence_cons h
      refine .sequence_cons (m := Pure.pure ()) ?_
        (covered_defaultedFields (index + 1) rest hrest)
      unfold defaulted at hfirst ⊢
      split at hfirst
      · exact hfirst.elim
      · split at hfirst
        · exact hfirst.elim
        · exact .op (by simp)

/-- The plans that discard fields are covered by skipping them. -/
theorem covered_discardedFields {skip : TypeExpr → Decoding Unit}
    (label : Field → String)
    (hdiscard : ∀ w label, Accepted R (discard writer w label) →
      Covered k limit levels levels' body (discard writer w label) (skip w)) :
    ∀ fields : List Field,
      Accepted R (Code.sequence (fields.map fun wf =>
        discard writer wf.type (label wf))) →
      Covered k limit levels levels' body (Code.sequence (fields.map fun wf =>
        discard writer wf.type (label wf))) (skipFields skip fields)
  | [], _ => .nothing
  | wf :: rest, h => by
    rw [List.map_cons] at h ⊢
    obtain ⟨hfirst, hrest⟩ := accepted_sequence_cons h
    rw [skipFields]
    exact .sequence_cons (hdiscard _ _ hfirst)
      (covered_discardedFields label hdiscard rest hrest)

/-- **Methods read what is asked for**: the plan of a method is the plan of
some demand for the same record of the writer. -/
structure ReadsDemands (writer reader : Schema) (body : Demand → Plan)
    (R : Demand → Prop) : Prop where
  /-- The plan is that of a demand for the record. -/
  demand : ∀ d, R d → ∃ d' : Demand, d'.OfRecords writer reader
    ∧ d'.written = d.written ∧ body d = d'.body writer reader
  /-- The plan is accepted. -/
  accepted : ∀ d, R d → (body d).Accepted R

/-- Methods of a closed class have the plans of their own demands. -/
theorem ReadsDemands.of_closed (h : ClosedClass writer reader R) :
    ReadsDemands writer reader (Demand.body writer reader) R :=
  ⟨fun d hd => ⟨d, h.ofRecords d hd, rfl, rfl⟩, h.body⟩

/-- **Records are covered** at every depth. -/
theorem coversRecords (hwriter : writer.Fits)
    (hreads : ReadsDemands writer reader body R) (depth : Nat) :
    CoversRecords k limit body writer R depth
      (skipRecord limit writer depth) := by
  induction depth with
  | zero => exact fun _ _ _ _ _ _ hl => absurd hl (Nat.not_lt_zero _)
  | succ depth ih =>
    intro d wd hwd hd l l' hl hl'
    have hdiscard : ∀ w label, Accepted R (discard writer w label) →
        Covered k limit l l' body (discard writer w label)
          (skip limit writer depth w) := fun w label h => by
      rw [skip_eq]
      exact covered_discardWith hwriter ih w label h l l'
        (Nat.le_of_lt_succ hl) hl'
    have haccepted := hreads.accepted d hd
    obtain ⟨d', hd', hwritten, hbody⟩ := hreads.demand d hd
    rw [hbody] at haccepted ⊢
    cases d' with
    | deliver w r =>
      obtain rfl : w = d.written := hwritten
      obtain ⟨rd, hrd⟩ := hd'.2
      unfold Demand.body at haccepted ⊢
      simp only [hwd, hrd] at haccepted ⊢
      unfold recordBody at haccepted ⊢
      refine covered_writtenFields (fun w r label hfits h l₁ hl₁ => ?_)
        hdiscard (covered_defaultedFields 0 rd.fields
          (accepted_sequence_append haccepted)) wd.fields
        (hwriter.definition? hwd).2 haccepted
      rw [skip_eq]
      exact covered_deliverWith hwriter ih w r label hfits h l₁ l' (by omega)
        (by omega)
    | discard w =>
      obtain rfl : w = d.written := hwritten
      unfold Demand.body at haccepted ⊢
      simp only [hwd] at haccepted ⊢
      exact covered_discardedFields _ hdiscard wd.fields haccepted

/-- **A plan that delivers a type is covered by skipping it.** -/
theorem covered_deliver (hwriter : writer.Fits)
    (hreads : ReadsDemands writer reader body R) (w r : TypeExpr)
    (label : String) (hfits : w.Fits)
    (h : Accepted R (deliver writer w reader r label))
    (hlevels : levels ≤ depth) (hle : levels ≤ levels') :
    Covered k limit levels levels' body (deliver writer w reader r label)
      (skip limit writer depth w) := by
  rw [skip_eq]
  exact covered_deliverWith hwriter (coversRecords hwriter hreads depth) w r
    label hfits h levels levels' hlevels hle

/-- **A plan that discards a type is covered by skipping it**, with more
levels. -/
theorem covered_discard (hwriter : writer.Fits)
    (hreads : ReadsDemands writer reader body R) (w : TypeExpr)
    (label : String) (h : Accepted R (discard writer w label))
    (hlevels : levels ≤ depth) (hle : levels ≤ levels') :
    Covered k limit levels levels' body (discard writer w label)
      (skip limit writer depth w) := by
  rw [skip_eq]
  exact covered_discardWith hwriter (coversRecords hwriter hreads depth) w
    label h levels levels' hlevels hle

end Plan

end Avro
