import Avro.Proofs.Value.Conversions
import Avro.Proofs.Value.Entries

/-!
# Conversions to a depth

How much is known of the result of a conversion depends on how many calls may
be made inside one another. More calls never change a result that is there
(`Conversion.within_mono`).

`Value.ofDefault` counts something else: the declared defaults that are inside
one another, of which it allows as many as the schema has fields. Allowing one
more gives some field a result that had none, or changes nothing from then on,
and there are no more fields (`Conversion.settled_fieldCount`). Hence its result
is the result of the steps (`Conversion.result_eq`), and it is there after
finitely many calls, if there is one (`Conversion.exists_within`).
-/

namespace Avro

/-! ## Results that are known so far -/

namespace Converted

variable {α β : Type}

/-- **A result refines another**: it is the same, or the other one was not
known yet. -/
def Refines (a b : Converted α) : Prop := a = .error .endless ∨ a = b

/-- A value is known. -/
theorem ok_ne_endless (v : α) : (.ok v : Converted α) ≠ .error .endless := nofun

theorem Refines.refl (a : Converted α) : Refines a a := .inr rfl

theorem Refines.trans {a b c : Converted α} (h : Refines a b)
    (h' : Refines b c) : Refines a c := by
  rcases h with h | rfl
  · exact .inl h
  · exact h'

/-- Results that refine each other are the same. -/
theorem Refines.antisymm {a b : Converted α} (h : Refines a b)
    (h' : Refines b a) : a = b := by
  rcases h with rfl | h
  · exact h'.elim Eq.symm Eq.symm
  · exact h

/-- A result that is known is not refined further. -/
theorem Refines.eq_of_ne {a b : Converted α} (h : Refines a b)
    (hne : a ≠ .error .endless) : a = b := h.resolve_left hne

theorem Refines.eq_of_ok {v : α} {b : Converted α} (h : Refines (.ok v) b) :
    .ok v = b := h.eq_of_ne (ok_ne_endless v)

theorem Refines.bind {a b : Converted α} {f g : α → Converted β}
    (h : Refines a b) (hfg : ∀ x, Refines (f x) (g x)) :
    Refines (a >>= f) (b >>= g) := by
  rcases h with rfl | rfl
  · exact .inl rfl
  · cases a with
    | error e => exact .inr rfl
    | ok x => exact hfg x

theorem Refines.mapM {f g : α → Converted β} :
    ∀ {l : List α}, (∀ x ∈ l, Refines (f x) (g x)) →
      Refines (l.mapM f) (l.mapM g)
  | [], _ => .refl _
  | x :: rest, h => by
    rw [List.mapM_cons, List.mapM_cons]
    exact .bind (h x List.mem_cons_self) fun v =>
      .bind (mapM fun y hy => h y (List.mem_cons_of_mem _ hy)) fun _ => .refl _

/-- **A list is converted up to the first element that fails.** -/
theorem mapM_error {f : α → Converted β} {e : DefaultError} :
    ∀ {l : List α}, l.mapM f = .error e → ∃ before x after,
      l = before ++ x :: after ∧ (∀ y ∈ before, ∃ v, f y = .ok v)
        ∧ f x = .error e
  | [], h => by
    rw [List.mapM_nil] at h
    cases h
  | x :: rest, h => by
    rw [List.mapM_cons] at h
    cases hx : f x with
    | error e' =>
      rw [hx] at h
      obtain rfl : e' = e := Except.error.inj h
      exact ⟨[], x, rest, rfl, nofun, hx⟩
    | ok v =>
      rw [hx] at h
      cases hrest : rest.mapM f with
      | error e' =>
        rw [hrest] at h
        obtain rfl : e' = e := Except.error.inj h
        obtain ⟨before, y, after, rfl, hbefore, hy⟩ := mapM_error hrest
        exact ⟨x :: before, y, after, rfl,
          List.forall_mem_cons.mpr ⟨⟨v, hx⟩, hbefore⟩, hy⟩
      | ok values =>
        rw [hrest] at h
        cases h

/-- What is converted behind values is known if the list is. -/
theorem ne_endless_of_mapM {f : α → Converted β} {x : α} {after : List α} :
    ∀ {before : List α},
      (∀ y ∈ before, ∃ v, Refines (f y) (.ok v)) →
      (before ++ x :: after).mapM f ≠ .error .endless → f x ≠ .error .endless
  | [], _, h, hx => by
    rw [List.nil_append, List.mapM_cons, hx] at h
    exact h rfl
  | y :: before, hbefore, h, hx => by
    obtain ⟨⟨v, hy⟩, hrest⟩ := List.forall_mem_cons.mp hbefore
    rw [List.cons_append, List.mapM_cons] at h
    rcases hy with hy | hy
    · rw [hy] at h
      exact h rfl
    · have hlist : (before ++ x :: after).mapM f ≠ .error .endless := by
        intro hlist
        rw [hy, hlist] at h
        exact h rfl
      exact ne_endless_of_mapM hrest hlist hx

/-- **A list is converted by an approximation** if each element is, up to the
first one that fails. -/
theorem exists_mapM {f : Nat → α → Converted β} {g : α → Converted β}
    (hmono : ∀ {n m : Nat}, n ≤ m → ∀ x, Refines (f n x) (f m x)) :
    ∀ {l : List α},
      (∀ x ∈ l, g x ≠ .error .endless → ∃ n, f n x = g x) →
      l.mapM g ≠ .error .endless → ∃ n, l.mapM (f n) = l.mapM g
  | [], _, _ => ⟨0, rfl⟩
  | x :: rest, h, hlist => by
    obtain ⟨hx, hrest⟩ := List.forall_mem_cons.mp h
    rw [List.mapM_cons] at hlist
    cases hg : g x with
    | error e =>
      rw [hg] at hlist hx
      have he : Except.error e ≠ (.error .endless : Converted β) := fun he =>
        hlist (by rw [Except.error.inj he]; rfl)
      obtain ⟨n, hn⟩ := hx he
      refine ⟨n, ?_⟩
      rw [List.mapM_cons, List.mapM_cons, hn, hg]
      rfl
    | ok v =>
      rw [hg] at hx
      obtain ⟨n, hn⟩ := hx (ok_ne_endless v)
      have hothers : rest.mapM g ≠ .error .endless := by
        intro hothers
        rw [hg, hothers] at hlist
        exact hlist rfl
      obtain ⟨m, hm⟩ := exists_mapM hmono hrest hothers
      -- What is known at `n` and at `m` is still known at the greater of them.
      have hfirst : f (max n m) x = .ok v := by
        have hup := hmono (Nat.le_max_left n m) x
        rw [hn] at hup
        exact hup.eq_of_ok.symm
      have hbehind : rest.mapM (f (max n m)) = rest.mapM g := by
        have hup : Refines (rest.mapM (f m)) (rest.mapM (f (max n m))) :=
          .mapM fun y _ => hmono (Nat.le_max_right n m) y
        rw [hm] at hup
        exact (hup.eq_of_ne hothers).symm
      refine ⟨max n m, ?_⟩
      rw [List.mapM_cons, List.mapM_cons, hfirst, hbehind, hg]

end Converted

/-! ## What conversions go on with -/

/-- **A schema declares a field** of one of its records. -/
def Schema.Declares (s : Schema) (r : RecordType) (field : Field) : Prop :=
  .record r ∈ s.definitions ∧ field ∈ r.fields

namespace Conversion

open Converted (Refines)

/-- **A conversion is a part of another**: of a part of its JSON, or of all of
it for the first branch of a union. -/
inductive Part : Conversion → Conversion → Prop
  /-- The first branch. -/
  | branch {first : TypeExpr} {rest : List TypeExpr} {j : Json} :
    Part ⟨first, j⟩ ⟨.union (first :: rest), j⟩
  /-- An item. -/
  | item {t t' : TypeExpr} {j : Json} {items : List Json} : j ∈ items →
    Part ⟨t', j⟩ ⟨t, .array items⟩
  /-- A member. -/
  | member {t t' : TypeExpr} {key : String} {j : Json}
    {members : List (String × Json)} : (key, j) ∈ members →
    Part ⟨t', j⟩ ⟨t, .object members⟩

/-- There are no parts of parts without end. -/
theorem wellFounded_part : WellFounded Part := by
  refine Subrelation.wf (r := InvImage (Prod.Lex (· < ·) (· < ·))
    fun c : Conversion => (sizeOf c.json, sizeOf c.type)) ?_
    (InvImage.wf _ (WellFounded.prod_lex Nat.lt_wfRel.wf Nat.lt_wfRel.wf))
  intro c c' h
  cases h with
  | branch =>
    refine .right _ ?_
    simp only [TypeExpr.union.sizeOf_spec, List.cons.sizeOf_spec]
    omega
  | item h =>
    refine .left _ _ ?_
    have := List.sizeOf_lt_of_mem h
    simp only [Json.array.sizeOf_spec]
    omega
  | member h =>
    refine .left _ _ ?_
    have := List.sizeOf_lt_of_mem h
    simp only [Prod.mk.sizeOf_spec] at this
    simp only [Json.object.sizeOf_spec]
    omega

section

variable {s : Schema} {c : Conversion} {f g : Conversion → Converted Value}
  {o o' : RecordType → Field → Converted Value}

/-- **A step is a part, or a declared field that is left out.** -/
theorem steps_cases {x : Step} (h : x ∈ c.steps s) :
    (∃ part, x = .part part ∧ part.Part c)
      ∨ ∃ r field, x = .leftOut r field ∧ s.Declares r field := by
  obtain ⟨t, j⟩ := c
  unfold steps at h
  dsimp only at h
  split at h
  · rename_i first rest hs
    obtain rfl := List.mem_singleton.mp h
    obtain rfl := eq_union hs
    exact .inl ⟨_, rfl, .branch⟩
  · obtain ⟨j, hj, rfl⟩ := List.mem_map.mp h
    exact .inl ⟨_, rfl, .item hj⟩
  · obtain ⟨m, hm, rfl⟩ := List.mem_map.mp h
    exact .inl ⟨_, rfl, .member hm⟩
  · rename_i r members hs
    obtain ⟨field, hfield, rfl⟩ := List.mem_map.mp h
    unfold fieldStep
    cases hfind : Entries.find? field.name members with
    | some j => exact .inl ⟨_, rfl, .member (Entries.mem_of_find? hfind)⟩
    | none =>
      have hr : .record r ∈ s.definitions :=
        List.mem_of_find?_eq_some (Schema.shape?_named (d := .record r) hs).2
      exact .inr ⟨r, field, rfl, hr, hfield⟩
  · cases h

/-- **A conversion is refined with its steps.** -/
theorem stepped_refines (hpart : ∀ c', c'.Part c → Refines (f c') (g c'))
    (hothers : ∀ r field, s.Declares r field → Refines (o r field) (o' r field)) :
    Refines (c.stepped s f o) (c.stepped s g o') := by
  refine .bind (.mapM fun x hx => ?_) fun _ => .refl _
  rcases steps_cases hx with ⟨c', rfl, hc'⟩ | ⟨r, field, rfl, hdeclares⟩
  · exact hpart c' hc'
  · exact hothers r field hdeclares

/-- A declared default is refined with its conversion. -/
theorem declared_refines (h : ∀ c', Refines (f c') (g c')) (r : RecordType)
    (field : Field) : Refines (declared f r field) (declared g r field) := by
  unfold declared
  cases field.default with
  | none => exact .refl _
  | some j => exact h _

/-! ## Defaults inside one another -/

/-- **A conversion is refined with what fields give that are left out.** -/
theorem run_refines
    (hothers : ∀ r field, s.Declares r field → Refines (o r field) (o' r field))
    (c : Conversion) : Refines (run s o c) (run s o' c) := by
  induction c using wellFounded_part.induction with
  | _ c ih =>
    rw [ofDefaultWith_eq o, ofDefaultWith_eq o']
    exact stepped_refines ih hothers

/-- Of the fields that are left out, only declared ones matter. -/
theorem run_congr
    (hothers : ∀ r field, s.Declares r field → o r field = o' r field)
    (c : Conversion) : run s o c = run s o' c :=
  Refines.antisymm (run_refines (fun r field h => .inr (hothers r field h)) c)
    (run_refines (fun r field h => .inr (hothers r field h).symm) c)

variable (s) in
/-- What conversions give if a number of declared defaults may be inside one
another, and what nothing gives. -/
def nested : (count : Nat) → Conversion → Converted Value
  | 0, _ => .error .endless
  | count + 1, c => run s (Value.restarted s count) c

/-- A field that is left out takes its declared default. -/
theorem restarted_eq (count : Nat) (r : RecordType) (field : Field) :
    Value.restarted s count r field = declared (nested s count) r field := by
  cases count <;> cases hdefault : field.default <;>
    simp only [Value.restarted, declared, hdefault, nested, run]

/-- One more default inside the others refines what fields give. -/
theorem restarted_refines (count : Nat) :
    ∀ r field, s.Declares r field →
      Refines (Value.restarted s count r field)
        (Value.restarted s (count + 1) r field) := by
  induction count with
  | zero =>
    intro r field _
    rw [restarted_eq, restarted_eq]
    exact declared_refines (fun _ => .inl rfl) r field
  | succ count ih =>
    intro r field _
    rw [restarted_eq, restarted_eq]
    exact declared_refines (run_refines ih) r field

variable (s) in
/-- **One more default inside the others changes nothing.** -/
def Settled (count : Nat) : Prop :=
  ∀ r field, s.Declares r field →
    Value.restarted s count r field = Value.restarted s (count + 1) r field

theorem Settled.mono {n m : Nat} (h : Settled s n) (hle : n ≤ m) :
    Settled s m := by
  induction hle with
  | refl => exact h
  | @step m _ ih =>
    intro r field _
    have hnested : nested s (m + 1) = nested s (m + 2) :=
      funext fun c => run_congr ih c
    rw [restarted_eq, restarted_eq, hnested]

variable (s) in
/-- The fields that a schema declares, with their records. -/
def declarations : List (RecordType × Field) :=
  s.definitions.flatMap fun
    | .record r => r.fields.map (r, ·)
    | _ => []

theorem length_declarations :
    (declarations s).length = Value.fieldCount s := by
  rw [declarations, Value.fieldCount, List.length_flatMap, List.length_flatMap]
  refine congrArg List.sum (List.map_congr_left fun d _ => ?_)
  cases d with
  | record r => exact List.length_map _
  | _ => rfl

theorem mem_declarations {r : RecordType} {field : Field}
    (h : s.Declares r field) : (r, field) ∈ declarations s :=
  List.mem_flatMap.mpr ⟨_, h.1, List.mem_map.mpr ⟨field, h.2, rfl⟩⟩

open Classical in
/-- **Allowing one default more settles a field, or all of them are settled**:
the fields without a result become fewer. -/
theorem settled_or (count : Nat) : Settled s count
    ∨ ∃ waiting : List (RecordType × Field),
      waiting.length + count ≤ Value.fieldCount s
      ∧ ∀ r field, s.Declares r field →
        Value.restarted s count r field = .error .endless →
        (r, field) ∈ waiting := by
  induction count with
  | zero =>
    exact .inr ⟨declarations s, Nat.le_of_eq length_declarations,
      fun r field h _ => mem_declarations h⟩
  | succ count ih =>
    rcases ih with h | ⟨waiting, hlength, hwaiting⟩
    · exact .inl (h.mono (Nat.le_succ count))
    by_cases hsettled : Settled s count
    · exact .inl (hsettled.mono (Nat.le_succ count))
    -- Some field has a result now that had none before.
    unfold Settled at hsettled
    push Not at hsettled
    obtain ⟨r, field, hdeclares, hnew⟩ := hsettled
    have hup := restarted_refines count r field hdeclares
    have hbefore : Value.restarted s count r field = .error .endless :=
      hup.resolve_right hnew
    right
    refine ⟨waiting.filter fun x =>
      Value.restarted s (count + 1) x.1 x.2 = .error .endless, ?_,
      fun r field h hendless => List.mem_filter.mpr
        ⟨hwaiting r field h ?_, decide_eq_true hendless⟩⟩
    · have hfewer : (waiting.filter fun x =>
          Value.restarted s (count + 1) x.1 x.2 = .error .endless).length
          < waiting.length := by
        refine List.length_filter_lt_length_iff_exists.mpr
          ⟨(r, field), hwaiting r field hdeclares hbefore, fun h => hnew ?_⟩
        rw [hbefore]
        exact (of_decide_eq_true h).symm
      omega
    · rcases restarted_refines count r field h with hsame | hsame
      · exact hsame
      · exact hsame.trans hendless

variable (s) in
/-- **As many defaults inside one another as there are fields are enough.** -/
theorem settled_fieldCount : Settled s (Value.fieldCount s) := by
  rcases settled_or (s := s) (Value.fieldCount s) with h |
    ⟨waiting, hlength, hwaiting⟩
  · exact h
  · intro r field hdeclares
    have hnone : waiting = [] := List.length_eq_zero_iff.mp (by omega)
    refine (restarted_refines _ r field hdeclares).eq_of_ne fun hendless => ?_
    have hmem := hwaiting r field hdeclares hendless
    rw [hnone] at hmem
    exact absurd hmem List.not_mem_nil

/-! ## The result of a conversion -/

variable (s) in
/-- **The result of a conversion.** -/
def result (c : Conversion) : Converted Value :=
  Value.ofDefault s c.type c.json

/-- **A conversion has the result of its steps**, fields that are left out
taking their declared defaults. -/
theorem result_eq (c : Conversion) :
    c.result s = c.stepped s (result s) (declared (result s)) := by
  have hfixed : ∀ r field, s.Declares r field →
      Value.restarted s (Value.fieldCount s) r field
        = declared (result s) r field := fun r field h =>
    (settled_fieldCount s r field h).trans (restarted_eq _ r field)
  have hsame : Refines (c.result s)
      (c.stepped s (result s) (declared (result s))) := by
    show Refines (run s (Value.restarted s (Value.fieldCount s)) c) _
    rw [ofDefaultWith_eq]
    exact stepped_refines (fun _ _ => .refl _)
      fun r field h => .inr (hfixed r field h)
  refine hsame.antisymm ?_
  show Refines _ (run s (Value.restarted s (Value.fieldCount s)) c)
  rw [ofDefaultWith_eq]
  exact stepped_refines (fun _ _ => .refl _)
    fun r field h => .inr (hfixed r field h).symm

/-! ## Calls inside one another -/

/-- A call more refines the result. -/
theorem within_succ (depth : Nat) (c : Conversion) :
    Refines (c.within s depth) (c.within s (depth + 1)) := by
  induction depth generalizing c with
  | zero => exact .inl rfl
  | succ depth ih =>
    exact stepped_refines (fun c' _ => ih c')
      fun r field _ => declared_refines ih r field

/-- **More calls inside one another refine the result.** -/
theorem within_mono {n m : Nat} (hle : n ≤ m) (c : Conversion) :
    Refines (c.within s n) (c.within s m) := by
  induction hle with
  | refl => exact .refl _
  | step _ ih => exact ih.trans (within_succ _ c)

/-- What is known of the result to a depth is so. -/
theorem within_result (depth : Nat) (c : Conversion) :
    Refines (c.within s depth) (c.result s) := by
  induction depth generalizing c with
  | zero => exact .inl rfl
  | succ depth ih =>
    rw [result_eq]
    exact stepped_refines (fun c' _ => ih c')
      fun r field _ => declared_refines ih r field

/-- More calls inside one another refine the result of a step. -/
theorem within_step_mono {n m : Nat} (hle : n ≤ m) (x : Step) :
    Refines (x.result (within s n) (declared (within s n)))
      (x.result (within s m) (declared (within s m))) := by
  cases x with
  | part c' => exact within_mono hle c'
  | leftOut r field => exact declared_refines (within_mono hle) r field

/-- A field that is left out has its result to some depth, if conversions
have. -/
theorem exists_declared
    (h : ∀ c', g c' ≠ .error .endless → ∃ depth, c'.within s depth = g c')
    {r : RecordType} {field : Field}
    (hne : declared g r field ≠ .error .endless) :
    ∃ depth, declared (within s depth) r field = declared g r field := by
  unfold declared at hne ⊢
  cases hdefault : field.default with
  | none => exact ⟨0, rfl⟩
  | some j =>
    rw [hdefault] at hne
    exact h _ hne

/-- **A conversion gives its result to some depth** if its steps do. -/
theorem exists_stepped
    (hpart : ∀ c', c'.Part c → g c' ≠ .error .endless →
      ∃ depth, c'.within s depth = g c')
    (hothers : ∀ r field, s.Declares r field → o r field ≠ .error .endless →
      ∃ depth, declared (within s depth) r field = o r field)
    (hne : c.stepped s g o ≠ .error .endless) :
    ∃ depth, c.within s depth = c.stepped s g o := by
  have hsteps : (c.steps s).mapM (Step.result g o) ≠ .error .endless := by
    intro h
    unfold stepped at hne
    rw [h] at hne
    exact hne rfl
  obtain ⟨depth, hdepth⟩ := Converted.exists_mapM within_step_mono (fun x hx => by
    rcases steps_cases hx with ⟨c', rfl, hc'⟩ | ⟨r, field, rfl, hdeclares⟩
    · exact hpart c' hc'
    · exact hothers r field hdeclares) hsteps
  refine ⟨depth + 1, ?_⟩
  rw [within, stepped, stepped]
  exact congrArg (· >>= c.assembled s) hdepth

/-- What is given with a number of defaults inside one another is given to some
depth. -/
theorem exists_within_nested (count : Nat) :
    ∀ c, nested s count c ≠ .error .endless →
      ∃ depth, c.within s depth = nested s count c := by
  induction count with
  | zero => exact fun c hne => absurd rfl hne
  | succ count ihcount =>
    intro c
    induction c using wellFounded_part.induction with
    | _ c ih =>
      show run s _ c ≠ _ → ∃ depth, _ = run s _ c
      rw [ofDefaultWith_eq]
      refine exists_stepped ih fun r field _ => ?_
      rw [restarted_eq]
      exact exists_declared ihcount

/-- **The result is there after finitely many calls**, if there is one. -/
theorem exists_within (hne : c.result s ≠ .error .endless) :
    ∃ depth, c.within s depth = c.result s :=
  exists_within_nested (Value.fieldCount s + 1) c hne

end

end Conversion

end Avro
