import Avro.Proofs.Decoding.Records

/-!
# Plans deliver what is decoded

An accepted plan that delivers a writer's type as a reader's type delivers
what `decode` gives (`delivers_deliver`): on a builder that has received
nothing it leaves the builder of the decoded value, it fails for the reason
for which decoding fails, and it leaves the same rest of the input.

The proof has the shape of the skipping of types: the recursion follows the
writer's type, and the records come from an induction on the depth.
-/

namespace Avro

namespace Plan

variable {reader writer : Schema} {limit levels : Nat} {body : Demand → Plan}
  {R : Demand → Prop} {depth : Nat}
  {record : RecordType → RecordType → Decoding Value}

/-- A type that does not match is not accepted. -/
theorem not_accepted_mismatched {w r : TypeExpr} {label : String} :
    ¬ Accepted R (mismatched w reader r label) := by
  unfold mismatched
  cases reader.shape? r <;> exact id

/-- **A named type matches a type**: both are records, enums or fixed values,
and the reader's one stands for the writer's name. -/
inductive NamesMatch (writer reader : Schema) (w : FullName) (r : TypeExpr) :
    Prop
  | record {wd rd : RecordType}
    (hw : writer.shape? (.named w) = some (.record wd))
    (hr : reader.shape? r = some (.record rd))
    (hstands : rd.name.standsFor rd.aliases wd.name = true)
  | enum {wd rd : EnumType}
    (hw : writer.shape? (.named w) = some (.enum wd))
    (hr : reader.shape? r = some (.enum rd))
    (hstands : rd.name.standsFor rd.aliases wd.name = true)
  | fixed {wd rd : FixedType}
    (hw : writer.shape? (.named w) = some (.fixed wd))
    (hr : reader.shape? r = some (.fixed rd))
    (hstands : rd.name.standsFor rd.aliases wd.name = true)

/-- **A named type is only delivered as one that it matches.** -/
theorem namesMatch_of_accepted {w : FullName} {r : TypeExpr} {label : String}
    (h : Accepted R (deliverNamed writer w reader r label)) :
    NamesMatch writer reader w r := by
  unfold deliverNamed at h
  split at h
  · exact h.elim
  · exact h.elim
  · rename_i hw hr
    split at h
    · exact .record hw hr ‹_›
    · exact h.elim
  · rename_i hw hr
    split at h
    · exact .enum hw hr ‹_›
    · exact h.elim
  · rename_i hw hr
    split at h
    · exact .fixed hw hr ‹_›
    · exact h.elim
  · exact h.elim

/-- A branch that is picked is one of the union. -/
theorem branchFor?_lt {w : TypeExpr} {branches : List TypeExpr} {index : Nat}
    (h : writer.branchFor? w reader branches = some index) :
    index < branches.length := by
  have hlt : ∀ {p : TypeExpr → Bool}, branches.findIdx? p = some index →
      index < branches.length := by
    intro p hp
    obtain ⟨hlt, _⟩ := List.findIdx?_eq_some_iff_getElem.mp hp
    exact hlt
  rcases Option.or_eq_some_iff.mp h with h | ⟨-, h⟩
  · exact hlt h
  · exact hlt h

variable (reader writer limit body R depth record) in
/-- What is meant for the records that are delivered on the levels below. -/
def DeliversRecords : Prop :=
  ∀ wd rd, writer.definition? wd.name = some (.record wd) →
    reader.definition? rd.name = some (.record rd) →
    R (.deliver wd.name rd.name) → ∀ l, l < depth →
    Delivers reader limit l body (body (.deliver wd.name rd.name))
      (.named rd.name) (record wd rd)

/-- **A named type is delivered** as a type that is no union. -/
theorem delivers_named (hwriter : writer.Fits) (hreader : reader.Fits)
    (hrecord : DeliversRecords reader writer limit body R depth record)
    {levels : Nat} (hlevels : levels ≤ depth) {name : FullName} {r : TypeExpr}
    {label : String} (h : Accepted R (deliverNamed writer name reader r label)) :
    Delivers reader limit levels body
      (deliverNamed writer name reader r label) r
      (decodeNamed limit writer reader record name r) := by
  have hmatch := namesMatch_of_accepted h
  unfold deliverNamed at h ⊢
  unfold decodeNamed
  cases hmatch with
  | @record wd rd hw hr hstands =>
    obtain ⟨-, hwd⟩ := Schema.shape?_named (d := .record wd) hw
    obtain ⟨rfl, hrd⟩ := Schema.shape?_named (d := .record rd) hr
    simp only [hw, hr, if_pos hstands] at h ⊢
    exact .call fun l hl => hrecord wd rd hwd hrd h l (by omega)
  | @enum we re hw hr hstands =>
    obtain ⟨rfl, hre⟩ := Schema.shape?_named (d := .enum re) hr
    simp only [hw, hr, if_pos hstands]
    exact delivers_enum hr (hreader.definition? hre) we label
  | @fixed wf rf hw hr hstands =>
    obtain ⟨rfl, -⟩ := Schema.shape?_named (d := .fixed rf) hr
    simp only [hw, hr, if_pos hstands] at h ⊢
    exact delivers_fixed hr (Kind.ofOperand?_fixed hwriter hw) label h

mutual

/-- **An accepted plan delivers what is decoded**, if the records do. -/
theorem delivers_deliverWith (hwriter : writer.Fits) (hreader : reader.Fits)
    (hrecord : DeliversRecords reader writer limit body R depth record) :
    ∀ (w r : TypeExpr) (label : String), r.Fits →
      Accepted R (deliver writer w reader r label) →
      ∀ levels, levels ≤ depth →
      Delivers reader limit levels body (deliver writer w reader r label) r
        (decodeWith limit writer reader record w r)
  | .primitive p, r, label, hr, h => by
    rw [deliver] at h ⊢
    rw [decodeWith]
    refine delivers_choosing (fun _ _ => branchFor?_lt)
      (fun t ht hfits h l hl => ?_) r hr h
    cases t with
    | primitive q => exact delivers_primitive p q label h
    | _ => exact absurd h not_accepted_mismatched
  | .array items, r, label, hr, h => by
    rw [deliver] at h ⊢
    rw [decodeWith]
    refine delivers_choosing (fun _ _ => branchFor?_lt)
      (fun t ht hfits h l hl => ?_) r hr h
    cases t with
    | array items' =>
      exact delivers_array (fun l' hl' => delivers_deliverWith hwriter hreader
        hrecord items items' _ hfits h l' (by omega)) label
    | _ => exact absurd h not_accepted_mismatched
  | .map values, r, label, hr, h => by
    rw [deliver] at h ⊢
    rw [decodeWith]
    refine delivers_choosing (fun _ _ => branchFor?_lt)
      (fun t ht hfits h l hl => ?_) r hr h
    cases t with
    | map values' =>
      exact delivers_map (fun l' hl' => delivers_deliverWith hwriter hreader
        hrecord values values' _ hfits h.2 l' (by omega)) _ label
    | _ => exact absurd h not_accepted_mismatched
  | .named name, r, label, hr, h => by
    rw [deliver] at h ⊢
    rw [decodeWith]
    cases hw : writer.shape? (.named name) with
    | none => simp only [hw] at h; exact h.elim
    | some wshape =>
      simp only [hw] at h ⊢
      exact delivers_choosing (fun _ _ => branchFor?_lt)
        (fun t ht hfits h l hl =>
          delivers_named hwriter hreader hrecord hl h) r hr h
  | .union branches, r, label, hr, h => by
    intro levels hlevels
    rw [deliver] at h ⊢
    rw [decodeWith]
    cases hshape : reader.shape? r with
    | none => simp only [hshape] at h; exact h.elim
    | some rshape =>
      simp only [hshape] at h ⊢
      cases hcases : noCases (branchCases writer label 0 branches reader r) with
      | true => simp only [hcases] at h; exact h.elim
      | false =>
        simp only [hcases, Bool.false_eq_true, if_false] at h ⊢
        intro frame input s hs
        rw [eval_long_switch]
        cases hread : Wire.readLong input with
        | error e left =>
          rw [Decoding.bind_error (Decoding.reading_error hread levels)]
          exact ⟨s, rfl⟩
        | ok n left =>
          rw [Decoding.bind_ok (Decoding.reading_ok hread levels)]
          exact delivers_branchCases hwriter hreader hrecord label _ hlevels
            branches 0 r hr h.2 { frame with long := n } left s hs

/-- The cases of a written union deliver the branch of the number in the long
register. -/
theorem delivers_branchCases (hwriter : writer.Fits) (hreader : reader.Fits)
    (hrecord : DeliversRecords reader writer limit body R depth record)
    (label message : String) {levels : Nat} (hlevels : levels ≤ depth) :
    ∀ (branches : List TypeExpr) (tag : Nat) (r : TypeExpr), r.Fits →
      AcceptedAll R (branchCases writer label tag branches reader r) →
      ∀ frame input s, (r.isNull = false → s = Builder.fresh reader r) →
      Decoding.Gives
        (decodeBranch limit writer reader record message frame.long tag
          branches r levels input)
        (fun v left => ∃ frame' s', evalCases (Builder.sink reader) limit body
          (evalBelow (Builder.sink reader) limit body levels) message
          (branchCases writer label tag branches reader r) frame (input, s)
          = .ok frame' (left, s') ∧ Builder.Received reader r s s' v)
        (fun cause left => ∃ s', evalCases (Builder.sink reader) limit body
          (evalBelow (Builder.sink reader) limit body levels) message
          (branchCases writer label tag branches reader r) frame (input, s)
          = .error cause (left, s'))
  | [], tag, r, _, _, frame, input, s, _ => by
    rw [branchCases, decodeBranch, evalCases]
    exact ⟨s, rfl⟩
  | branch :: rest, tag, r, hr, h, frame, input, s, hs => by
    cases hunion : r.isUnion with
    | false =>
      rw [branchCases_cons hunion] at h ⊢
      rw [decodeBranch_cons hunion]
      cases hreadable : writer.readable branch reader r with
      | false =>
        simp only [hreadable, Bool.false_eq_true, if_false] at h ⊢
        exact delivers_branchCases hwriter hreader hrecord label message
          hlevels rest (tag + 1) r hr h frame input s hs
      | true =>
        simp only [hreadable, if_true] at h ⊢
        rw [evalCases]
        split
        · have hd := delivers_deliverWith hwriter hreader hrecord branch r
            label hr h.1 levels hlevels { frame with condition := true } input
            s hs
          rw [eval_eq] at hd
          exact hd
        · exact delivers_branchCases hwriter hreader hrecord label message
            hlevels rest (tag + 1) r hr h.2 frame input s hs
    | true =>
      obtain ⟨readers, rfl⟩ := TypeExpr.isUnion_iff.mp hunion
      obtain rfl := hs rfl
      rw [branchCases] at h ⊢
      rw [decodeBranch]
      cases hpick : writer.branchFor? branch reader readers with
      | none =>
        simp only [hpick] at h ⊢
        exact delivers_branchCases hwriter hreader hrecord label message
          hlevels rest (tag + 1) _ hr h frame input _ (fun _ => rfl)
      | some index =>
        have hlt := branchFor?_lt hpick
        have hget := List.getElem?_eq_getElem hlt
        simp only [hpick, hget] at h ⊢
        rw [evalCases]
        split
        · have hset : (Builder.sink reader).set (.long (Int64.ofNat index))
              (Builder.fresh reader (.union readers))
              = .ok () (.union readers (some (index, none))) := by
            simp only [Builder.sink, Builder.fresh, Schema.shape?, Builder.set,
              Builder.position?_ofNat hlt (Nat.le_of_lt hr.1), Sink.accept]
          have hrun := renumbered_some (Builder.sink reader) index
            { frame with condition := true } input
            (Builder.fresh reader (.union readers))
          rw [hset] at hrun
          have hopen : readers[index].isNull = false →
              Builder.enter reader (.field index)
                (.union readers (some (index, none)))
                = .ok (fun child => .union readers (some (index, some child)))
                  (Builder.fresh reader readers[index]) := fun _ => by
            simp only [Builder.enter, hget, Sink.accept]
          have hd := Delivers.entering
            (fun l (hl : l ≤ levels) => delivers_deliverWith hwriter hreader
              hrecord branch readers[index] label (hr.2.getElem? hget)
              (accepted_entering.mp h.1) l (Nat.le_trans hl hlevels))
            (Nat.lt_trans hlt hr.1) hopen label
            { frame with condition := true, long := Int64.ofNat index } input
          rw [eval_eq] at hd
          rw [Running.bind_ok hrun]
          exact hd.bind (fun _ _ ⟨frame', s', hd, hvalue⟩ =>
            ⟨frame', s', hd, value?_selected hget hvalue⟩) fun _ _ hd => hd
        · exact delivers_branchCases hwriter hreader hrecord label message
            hlevels rest (tag + 1) _ hr h.2 frame input _ (fun _ => rfl)

end

/-- The plan of the method that delivers a record. -/
theorem body_deliver {wd rd : RecordType}
    (hw : writer.definition? wd.name = some (.record wd))
    (hr : reader.definition? rd.name = some (.record rd)) :
    Demand.body writer reader (.deliver wd.name rd.name)
      = recordBody writer wd reader rd := by
  rw [Demand.body, hw, hr]

/-- **An accepted plan delivers what is decoded.** -/
theorem delivers_deliver (hwriter : writer.Fits) (hreader : reader.Fits)
    (hclosed : ClosedClass writer reader R) (depth : Nat) :
    ∀ (w r : TypeExpr) (label : String), r.Fits →
      Accepted R (deliver writer w reader r label) →
      ∀ levels, levels ≤ depth →
      Delivers reader limit levels (Demand.body writer reader)
        (deliver writer w reader r label) r
        (decode limit writer reader depth w r) := by
  induction depth with
  | zero =>
    exact delivers_deliverWith hwriter hreader
      fun wd rd _ _ _ l hl => absurd hl (Nat.not_lt_zero l)
  | succ depth ih =>
    refine delivers_deliverWith hwriter hreader
      fun wd rd hwd hrd hdemand l hl => ?_
    have haccepted := hclosed.body _ hdemand
    have hle := Nat.le_of_lt_succ hl
    rw [body_deliver hwd hrd] at haccepted ⊢
    refine delivers_recordBody (hreader.definition? hrd)
      (fun w r label hr h l' hl' => ih w r label hr h l' (Nat.le_trans hl' hle))
      (fun t label h => skips_discard hwriter hclosed depth t label l hle h)
      haccepted ?_
    rw [Schema.shape?_eq, hrd]
    rfl

end Plan

end Avro
