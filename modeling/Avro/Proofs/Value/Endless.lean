import Avro.Proofs.Value.Approximations
import Avro.Schema.Parser
import Mathlib

/-!
# Conversions that do not end

A record default that leaves a field out takes the declared default of the
field, and that may leave out the same field. So a conversion need not end.

A conversion that has no result, however many calls are made inside one
another, goes on with another one that has none. The parts of JSON become
smaller, so it comes to a declared default without a result, and from there to
another one. There are finitely many declared defaults; one of them comes to
itself. The other way round, what comes to itself has no result
(`Conversion.ends_iff`).
-/

namespace Avro

namespace Conversion

open Converted (Refines)

section

variable {s : Schema} {c : Conversion} {f : Conversion → Converted Value}

/-! ## Calls that come back -/

/-- The conversion that a step makes. -/
def Step.next? : Step → Option Conversion
  | .part c => some c
  | .leftOut _ field => field.default.map fun j => ⟨field.type, j⟩

variable (s) in
/-- **A conversion calls another one**: it makes a step that does, and the steps
before have values. -/
def Calls (c c' : Conversion) : Prop :=
  ∃ before x after, c.steps s = before ++ x :: after ∧ x.next? = some c'
    ∧ ∀ y ∈ before, ∃ depth v,
      y.result (within s depth) (declared (within s depth)) = .ok v

/-- A step that makes a conversion gives its result. -/
theorem Step.result_of_next {x : Step} {c' : Conversion}
    (h : x.next? = some c') : x.result f (declared f) = f c' := by
  cases x with
  | part c => exact congrArg f (Option.some.inj h)
  | leftOut r field =>
    obtain ⟨j, hj, rfl⟩ := Option.map_eq_some_iff.mp h
    simp only [Step.result, declared, hj]

/-- **A step without a result makes a conversion without one.** -/
theorem Step.exists_next {x : Step}
    (h : x.result f (declared f) = .error .endless) :
    ∃ c', x.next? = some c' ∧ f c' = .error .endless := by
  cases x with
  | part c => exact ⟨c, rfl, h⟩
  | leftOut r field =>
    cases hdefault : field.default with
    | none =>
      simp only [Step.result, declared, hdefault] at h
      cases h
    | some j =>
      simp only [Step.result, declared, hdefault] at h
      exact ⟨⟨field.type, j⟩, by rw [next?, hdefault]; rfl, h⟩

/-- A default that is not put together is there at once, or does not fit. -/
theorem ofScalarDefault_ne_endless (j : Json) (t : TypeExpr) :
    Value.ofScalarDefault s j t ≠ .error .endless := by
  unfold Value.ofScalarDefault
  cases s.shape? t with
  | none => nofun
  | some shape =>
    cases shape with
    | primitive p =>
      dsimp only
      cases Value.primitiveOfJson? p j <;> nofun
    | enum e =>
      cases j with
      | string symbol =>
        dsimp only
        cases e.symbolIndex? symbol <;> nofun
      | _ => nofun
    | fixed f =>
      dsimp only
      cases Value.bytesOfJson? j with
      | none => nofun
      | some b =>
        dsimp only
        by_cases hsize : b.length = f.size
        · rw [if_pos hsize]
          nofun
        · rw [if_neg hsize]
          nofun
    | _ => nofun

/-- Values are put together, or do not fit. -/
theorem assembled_ne_endless (c : Conversion) (values : List Value) :
    c.assembled s values ≠ .error .endless := by
  unfold assembled
  split
  · cases values <;> nofun
  · nofun
  · nofun
  · nofun
  · exact ofScalarDefault_ne_endless _ _

/-- **A conversion without a result calls one without a result.** -/
theorem exists_calls (h : c.result s = .error .endless) :
    ∃ c', Calls s c c' ∧ c'.result s = .error .endless := by
  rw [result_eq, stepped] at h
  cases hsteps : (c.steps s).mapM
      (Step.result (result s) (declared (result s))) with
  | ok values =>
    rw [hsteps] at h
    exact absurd h (assembled_ne_endless c values)
  | error e =>
    rw [hsteps] at h
    obtain rfl : e = .endless := Except.error.inj h
    obtain ⟨before, x, after, hlist, hbefore, hx⟩ :=
      Converted.mapM_error hsteps
    obtain ⟨c', hnext, hc'⟩ := Step.exists_next hx
    refine ⟨c', ⟨before, x, after, hlist, hnext, fun y hy => ?_⟩, hc'⟩
    obtain ⟨v, hv⟩ := hbefore y hy
    have hne : y.result (result s) (declared (result s)) ≠ .error .endless := by
      rw [hv]
      exact Converted.ok_ne_endless v
    obtain ⟨depth, hdepth⟩ : ∃ depth,
        y.result (within s depth) (declared (within s depth))
          = y.result (result s) (declared (result s)) := by
      cases y with
      | part c => exact exists_within hne
      | leftOut r field => exact exists_declared (fun _ => exists_within) hne
    exact ⟨depth, v, hdepth.trans hv⟩

/-- **A conversion with a result calls only conversions with a result**, to a
depth that is less. -/
theorem Calls.within_ne {c' : Conversion} (h : Calls s c c') {depth : Nat}
    (hne : c.within s (depth + 1) ≠ .error .endless) :
    c'.within s depth ≠ .error .endless := by
  obtain ⟨before, x, after, hlist, hnext, hbefore⟩ := h
  have hsteps : (before ++ x :: after).mapM
      (Step.result (within s depth) (declared (within s depth)))
        ≠ .error .endless := by
    intro h
    rw [within, stepped, hlist, h] at hne
    exact hne rfl
  rw [← Step.result_of_next (f := within s depth) hnext]
  refine Converted.ne_endless_of_mapM (fun y hy => ?_) hsteps
  obtain ⟨depth', v, hv⟩ := hbefore y hy
  rcases Nat.le_total depth depth' with hle | hle
  · exact ⟨v, hv ▸ within_step_mono hle y⟩
  · have hup := within_step_mono (s := s) hle y
    rw [hv] at hup
    exact ⟨v, .inr hup.eq_of_ok.symm⟩

/-- Conversions that a conversion comes to have results to lesser depths. -/
theorem exists_within_of_transGen {c' : Conversion}
    (h : Relation.TransGen (Calls s) c c') {depth : Nat}
    (hne : c.within s depth ≠ .error .endless) :
    ∃ less, less < depth ∧ c'.within s less ≠ .error .endless := by
  induction h with
  | @single c' hcall =>
    cases depth with
    | zero => exact absurd rfl hne
    | succ depth => exact ⟨depth, Nat.lt_succ_self depth, hcall.within_ne hne⟩
  | @tail c' c'' _ hcall ih =>
    obtain ⟨less, hless, hne'⟩ := ih
    cases less with
    | zero => exact absurd rfl hne'
    | succ less => exact ⟨less, by omega, hcall.within_ne hne'⟩

/-- **A conversion that comes to itself has no result.** -/
theorem endless_of_cycle (h : Relation.TransGen (Calls s) c c) (depth : Nat) :
    c.within s depth = .error .endless := by
  induction depth using Nat.strong_induction_on with
  | _ depth ih =>
    by_contra hne
    obtain ⟨less, hless, hne'⟩ := exists_within_of_transGen h hne
    exact hne' (ih less hless)

variable (s) in
/-- **The conversion of a declared default.** -/
def IsDeclared (c : Conversion) : Prop :=
  ∃ r field j, s.Declares r field ∧ field.default = some j
    ∧ c = ⟨field.type, j⟩

/-- **A conversion without a result comes to a declared default without one.**
Its parts are smaller, so it is not only parts that it comes to. -/
theorem exists_declared_of_endless (c : Conversion) :
    c.result s = .error .endless → ∃ c', Relation.TransGen (Calls s) c c'
      ∧ IsDeclared s c' ∧ c'.result s = .error .endless := by
  induction c using wellFounded_part.induction with
  | _ c ih =>
    intro h
    obtain ⟨c', hcall, hc'⟩ := exists_calls h
    obtain ⟨before, x, after, hlist, hnext, -⟩ := id hcall
    have hx : x ∈ c.steps s := by
      rw [hlist]
      exact List.mem_append_right _ List.mem_cons_self
    rcases steps_cases hx with ⟨part, rfl, hpart⟩ |
      ⟨r, field, rfl, hdeclares⟩
    · obtain rfl : part = c' := Option.some.inj hnext
      obtain ⟨c'', hreach, hdeclared, hendless⟩ := ih part hpart hc'
      exact ⟨c'', .head hcall hreach, hdeclared, hendless⟩
    · obtain ⟨j, hj, rfl⟩ := Option.map_eq_some_iff.mp hnext
      exact ⟨_, .single hcall, ⟨r, field, j, hdeclares, hj, rfl⟩, hc'⟩

/-- There are finitely many declared defaults. -/
theorem finite_isDeclared : {c' | IsDeclared s c'}.Finite := by
  refine (List.finite_toSet ((declarations s).filterMap fun x =>
    x.2.default.map fun j => (⟨x.2.type, j⟩ : Conversion))).subset ?_
  rintro c' ⟨r, field, j, hdeclares, hj, rfl⟩
  exact List.mem_filterMap.mpr
    ⟨(r, field), mem_declarations hdeclares, by rw [hj]; rfl⟩

/-- **A conversion without a result comes to a declared default that comes to
itself**: there are finitely many of them. -/
theorem exists_cycle (h : c.result s = .error .endless) :
    ∃ c', Relation.TransGen (Calls s) c c' ∧ IsDeclared s c'
      ∧ Relation.TransGen (Calls s) c' c' := by
  by_contra hnone
  push Not at hnone
  -- Coming to one another is then an order without descent on what is reached.
  let Reached := {c' // IsDeclared s c' ∧ Relation.TransGen (Calls s) c c'}
  let calledBy : Reached → Reached → Prop := fun a b =>
    Relation.TransGen (Calls s) b.1 a.1
  have : Finite Reached :=
    (finite_isDeclared.subset fun c' (hc' : _ ∧ _) => hc'.1).to_subtype
  have : IsTrans Reached calledBy := ⟨fun _ _ _ hab hbd => hbd.trans hab⟩
  have : Std.Irrefl calledBy := ⟨fun a => hnone a.1 a.2.2 a.2.1⟩
  have hends : ∀ a : Reached, a.1.result s ≠ .error .endless := by
    intro a
    induction a using
      (Finite.wellFounded_of_trans_of_irrefl calledBy).induction with
    | _ a ih =>
      intro ha
      obtain ⟨c', hreach, hdeclared, hendless⟩ :=
        exists_declared_of_endless a.1 ha
      exact ih ⟨c', hdeclared, a.2.2.trans hreach⟩ hreach hendless
  obtain ⟨c', hreach, hdeclared, hendless⟩ := exists_declared_of_endless c h
  exact hends ⟨c', hdeclared, hreach⟩ hendless

/-- **A conversion ends, or it comes to a declared default that comes to
itself.** For every schema, every type and every JSON:

* The results to all depths of calls inside one another are one, and it is what
  `Value.ofDefault` gives.
* There is no result to any depth exactly if the conversion comes to a declared
  default whose conversion comes to itself. -/
theorem ends_iff (s : Schema) (c : Conversion) :
    (∀ r, r ≠ .error .endless →
      ((∃ depth, c.within s depth = r) ↔ Value.ofDefault s c.type c.json = r))
    ∧ ((∀ depth, c.within s depth = .error .endless) ↔
      ∃ c', Relation.TransGen (Calls s) c c' ∧ IsDeclared s c'
        ∧ Relation.TransGen (Calls s) c' c') := by
  refine ⟨fun r hr => ⟨?_, ?_⟩, fun h => ?_, ?_⟩
  · rintro ⟨depth, rfl⟩
    exact ((within_result depth c).eq_of_ne hr).symm
  · rintro rfl
    exact exists_within hr
  · refine exists_cycle (by_contra fun hne => ?_)
    obtain ⟨depth, hdepth⟩ := exists_within hne
    exact hne (hdepth.symm.trans (h depth))
  · rintro ⟨c', hreach, -, hcycle⟩ depth
    by_contra hne
    obtain ⟨less, -, hne'⟩ := exists_within_of_transGen hreach hne
    exact hne' (endless_of_cycle hcycle less)

end

end Conversion

/-! ### A record in its own default -/

namespace Recurring

/-- A field of the record itself, whose default leaves the field out. -/
def field : Field := ⟨"f", .named ⟨"R", ""⟩, [], some (.object []), none⟩

/-- The record. -/
def record : RecordType := ⟨⟨"R", ""⟩, [], [field], none⟩

/-- The document. -/
def source : String :=
  "\x7b\"type\":\"record\",\"name\":\"R\",\"fields\":[\x7b\"name\":\"f\","
    ++ "\"type\":\"R\",\"default\":\x7b\x7d\x7d]\x7d"

/-- The schema. -/
def schema : Schema := ⟨.named ⟨"R", ""⟩, [.record record], source⟩

/-- The default of the field, converted to the record. -/
def conversion : Conversion := ⟨schema.root, .object []⟩

theorem parse_source : Schema.parse source = .ok schema := by cbv

/-- The conversion has one step, the field that is left out. -/
theorem steps_conversion :
    conversion.steps schema = [.leftOut record field] := by cbv

/-- **The conversion has no result to any depth**: what it goes on with is the
conversion itself. -/
theorem unending : Schema.parse source = .ok schema
    ∧ ∀ depth, conversion.within schema depth = .error .endless := by
  refine ⟨parse_source, fun depth => ?_⟩
  induction depth with
  | zero => rfl
  | succ depth ih =>
    have hstep : (Conversion.Step.leftOut record field).result
        (Conversion.within schema depth)
        (Conversion.declared (Conversion.within schema depth))
        = .error .endless := ih
    rw [Conversion.within, Conversion.stepped, steps_conversion,
      List.mapM_cons, hstep]
    rfl

end Recurring

end Avro
