import Avro.Proofs.Machine.Requests
import Mathlib.Data.List.Infix

/-!
# Calls in brackets

Opening a part of a sink hands out a sink of its own, and the part is ended by
a call on that sink. Which calls reach which part is not to be seen from the
calls alone, so `Sink.placed` makes of any sink one that writes down the place
at which a call is made: the parts that were opened on the way there, each by
its number among those opened on the same sink. No two parts have one place.

Calls are in brackets (`Bracketed`) if they are what a grammar generates: calls
that deliver something, and parts, each opened, used and ended before anything
else is done. What the grammar says about positions is `WellBracketed`, which
does not mention it: the calls on a part and on the parts of that part stand
between the opening of the part and its only ending, with no other call between
them, and nothing reaches the part before or after.
-/

namespace Avro

/-! ## Places -/

/-- **A place in a sink**: the numbers of the parts that were opened on the way
there, the innermost first. -/
abbrev Place := List Nat

/-- **A call that was made**, and where. -/
structure Made where
  /-- The place of the sink that received it. -/
  place : Place
  /-- The call. -/
  call : SinkCall
  /-- The place of the part that it opens. -/
  opens : Option Place
  deriving DecidableEq, Repr

/-- The opening of a part. -/
abbrev Made.opening (place : Place) (n : Nat) (part : Opening) : Made :=
  ⟨place, .enter part, some (n :: place)⟩

/-- The ending of a part. -/
abbrev Made.ending (place : Place) : Made := ⟨place, .finalize, none⟩

/-- **The state of a sink that knows its place**, with the calls made so far. -/
structure Placed (σ : Type) where
  /-- The state of the sink itself. -/
  plain : σ
  /-- Its place. -/
  place : Place
  /-- How many parts have been opened on it. -/
  opened : Nat
  /-- The calls, here and elsewhere, the latest first. -/
  latest : List Made

namespace Placed

variable {σ : Type}

/-- A root on which no call was made. -/
def start (s : σ) : Placed σ := ⟨s, [], 0, []⟩

/-- The calls in the order they were made. -/
def calls (s : Placed σ) : List Made := s.latest.reverse

/-- The place of the next part. -/
def next (s : Placed σ) : Place := s.opened :: s.place

/-- Writes a call down and passes it on. -/
def pass (call : SinkCall) (m : SinkEffect σ Unit) :
    SinkEffect (Placed σ) Unit := fun s =>
  match m s.plain with
  | .ok () plain =>
    .ok () ⟨plain, s.place, s.opened, ⟨s.place, call, none⟩ :: s.latest⟩
  | .error e plain =>
    .error e ⟨plain, s.place, s.opened, ⟨s.place, call, none⟩ :: s.latest⟩

/-- Writes the opening of a part down and passes it on. -/
def enter (part : Opening) (m : SinkEffect σ (σ → σ)) :
    SinkEffect (Placed σ) (Placed σ → Placed σ) := fun s =>
  match m s.plain with
  | .ok close child =>
    .ok (fun below => ⟨close below.plain, s.place, s.opened + 1, below.latest⟩)
      ⟨child, s.next, 0, ⟨s.place, .enter part, some s.next⟩ :: s.latest⟩
  | .error e plain =>
    .error e ⟨plain, s.place, s.opened + 1,
      ⟨s.place, .enter part, some s.next⟩ :: s.latest⟩

end Placed

/-- **The sink that writes down where calls are made.** -/
def Sink.placed {σ : Type} (k : Sink σ) : Sink (Placed σ) where
  typeName s := k.typeName s.plain
  set x := Placed.pass (.set x) (k.set x)
  setDefault index := Placed.pass (.setDefault index) (k.setDefault index)
  enter part := Placed.enter part (k.enter part)
  finalize := Placed.pass .finalize k.finalize

/-- **A sink that knows its place forgets to the sink itself.** -/
theorem Sink.placed_forgets {σ : Type} (k : Sink σ) :
    k.placed.Forgets k Placed.plain := by
  have hpass : ∀ (call : SinkCall) (m : SinkEffect σ Unit) (s : Placed σ),
      forgetting Placed.plain (Placed.pass call m s) = m s.plain := by
    intro call m s
    unfold Placed.pass
    cases m s.plain <;> rfl
  refine ⟨fun x => hpass _ _, fun index => hpass _ _, fun part s => ?_,
    hpass _ _⟩
  dsimp only [Sink.placed, Placed.enter]
  cases hr : k.enter part s.plain with
  | ok put child => exact ⟨put, rfl, fun _ => rfl⟩
  | error e s' => rfl

/-! ## The grammar -/

/-- Calls that deliver something. -/
def SinkCall.Delivers : SinkCall → Prop
  | .set _ | .setDefault _ => True
  | .enter _ | .finalize => False

/-- **Calls in brackets**: what is done at a place and below, where parts have
been opened up to a number before and up to a number after. -/
inductive Bracketed : (place : Place) → (before : Nat) → List Made →
    (after : Nat) → Prop
  /-- Nothing. -/
  | nil {place : Place} {n : Nat} : Bracketed place n [] n
  /-- Something is delivered. -/
  | call {place : Place} {n m : Nat} {call : SinkCall} {rest : List Made}
    (delivers : call.Delivers) (hrest : Bracketed place n rest m) :
    Bracketed place n (⟨place, call, none⟩ :: rest) m
  /-- A part is opened, used and ended. -/
  | part {place : Place} {n m l : Nat} {part : Opening}
    {inside rest : List Made} (hinside : Bracketed (n :: place) 0 inside l)
    (hrest : Bracketed place (n + 1) rest m) :
    Bracketed place n (.opening place n part
      :: (inside ++ .ending (n :: place) :: rest)) m

namespace Bracketed

variable {place : Place} {n m l : Nat} {calls more : List Made}

/-- One after the other. -/
theorem append (h : Bracketed place n calls m)
    (hmore : Bracketed place m more l) :
    Bracketed place n (calls ++ more) l := by
  induction h with
  | nil => exact hmore
  | call delivers _ ih => exact .call delivers (ih hmore)
  | part hinside _ _ ih =>
    simp only [List.cons_append, List.append_assoc]
    exact .part hinside (ih hmore)

/-- One call. -/
theorem single {call : SinkCall} (delivers : call.Delivers) :
    Bracketed place n [⟨place, call, none⟩] n :=
  .call delivers .nil

/-- One part. -/
theorem within {part : Opening} (h : Bracketed (n :: place) 0 calls l) :
    Bracketed place n (.opening place n part
      :: (calls ++ [.ending (n :: place)])) (n + 1) :=
  .part h .nil

end Bracketed

/-! ## Positions -/

/-- **A part ends once**, if it was opened between calls before and calls
after. Behind its opening come the calls on it and on its own parts, and then
its ending; before and after, nothing is called that belongs to it. -/
def EndsOnce (child : Place) (before after : List Made) : Prop :=
  ∃ inside rest, after = inside ++ .ending child :: rest
    ∧ (∀ d ∈ inside, child <:+ d.place
      ∧ (d.place = child → d.call ≠ .finalize))
    ∧ ∀ d ∈ before ++ rest, ¬ child <:+ d.place

namespace EndsOnce

variable {child : Place} {before after more : List Made}

/-- Other calls may come later. -/
theorem append (h : EndsOnce child before after)
    (hmore : ∀ d ∈ more, ¬ child <:+ d.place) :
    EndsOnce child before (after ++ more) := by
  obtain ⟨inside, rest, rfl, hinside, houtside⟩ := h
  refine ⟨inside, rest ++ more, by simp, hinside, fun d hd => ?_⟩
  rw [← List.append_assoc] at hd
  exact (List.mem_append.mp hd).elim (houtside d) (hmore d)

/-- Other calls may come earlier. -/
theorem prepend (h : EndsOnce child before after)
    (hmore : ∀ d ∈ more, ¬ child <:+ d.place) :
    EndsOnce child (more ++ before) after := by
  obtain ⟨inside, rest, rfl, hinside, houtside⟩ := h
  refine ⟨inside, rest, rfl, hinside, fun d hd => ?_⟩
  rw [List.append_assoc] at hd
  exact (List.mem_append.mp hd).elim (hmore d) (houtside d)

end EndsOnce

/-- **Calls are well bracketed.** -/
structure WellBracketed (calls : List Made) : Prop where
  /-- An opening hands out a place directly below the one that is asked. -/
  opens : ∀ c ∈ calls, ∀ part, c.call = .enter part →
    ∃ n, c.opens = some (n :: c.place)
  /-- What is opened ends once. -/
  part : ∀ before c after child, calls = before ++ c :: after →
    c.opens = some child → EndsOnce child before after
  /-- Whatever receives a call is the root or was opened. -/
  opened : ∀ c ∈ calls, c.place ≠ [] → ∃ d ∈ calls, d.opens = some c.place
  /-- The root is not ended. -/
  root : ∀ c ∈ calls, c.place = [] → c.call ≠ .finalize

/-! ## What the grammar says about positions -/

/-- A place is at or below one of the parts that a place has opened from one
number up to another. -/
def Place.Under (place : Place) (n m : Nat) (below : Place) : Prop :=
  ∃ i, n ≤ i ∧ i < m ∧ (i :: place) <:+ below

namespace Place.Under

variable {place below : Place} {n m l : Nat}

/-- A place is not below itself. -/
theorem irrefl : ¬ Under place n m place := by
  rintro ⟨i, -, -, h⟩
  have := h.length_le
  rw [List.length_cons] at this
  omega

/-- Parts opened at different times have nothing in common. -/
theorem disjoint (h : Under place n m below) (h' : Under place m l below) :
    False := by
  obtain ⟨i, -, hi, h⟩ := h
  obtain ⟨j, hj, -, h'⟩ := h'
  have hsame : i :: place <:+ j :: place :=
    List.suffix_of_suffix_length_le h h' (Nat.le_refl _)
  have hij : i :: place = j :: place := hsame.eq_of_length rfl
  obtain ⟨rfl, -⟩ := List.cons.inj hij
  omega

/-- What is below a place that is under another. -/
theorem trans {further : Place} (h : Under place n m below)
    (hfurther : below <:+ further) : Under place n m further := by
  obtain ⟨i, hn, hm, h⟩ := h
  exact ⟨i, hn, hm, h.trans hfurther⟩

/-- What is under a part. -/
theorem of_part (h : (n :: place) <:+ below) (hm : n < m) :
    Under place n m below :=
  ⟨n, Nat.le_refl n, hm, h⟩

/-- More parts. -/
theorem mono {n' m' : Nat} (h : Under place n m below) (hn : n' ≤ n)
    (hm : m ≤ m') : Under place n' m' below := by
  obtain ⟨i, hni, him, h⟩ := h
  exact ⟨i, by omega, by omega, h⟩

end Place.Under

namespace Bracketed

variable {place : Place} {n m : Nat} {calls : List Made}

/-- Parts are opened one after the other. -/
theorem le (h : Bracketed place n calls m) : n ≤ m := by
  induction h with
  | nil => exact Nat.le_refl _
  | call _ _ ih => exact ih
  | part _ _ _ ih => omega

/-- **Who is called**: the place itself, which is not ended, and parts that it
has opened. -/
theorem called (h : Bracketed place n calls m) :
    ∀ c ∈ calls, c.place = place ∧ c.call ≠ .finalize
      ∨ Place.Under place n m c.place := by
  induction h with
  | nil => exact fun c hc => absurd hc List.not_mem_nil
  | call delivers _ ih =>
    rintro c (_ | ⟨_, hc⟩)
    · refine .inl ⟨rfl, ?_⟩
      rintro rfl
      exact delivers
    · exact ih c hc
  | part hinside hrest ihinside ihrest =>
    have hle := hrest.le
    intro c hc
    rcases List.mem_cons.mp hc with rfl | hc
    · exact .inl ⟨rfl, nofun⟩
    rcases List.mem_append.mp hc with hc | hc
    · right
      rcases ihinside c hc with ⟨hplace, -⟩ | ⟨i, -, -, hunder⟩
      · exact .of_part (hplace ▸ List.suffix_refl _) hle
      · exact .of_part ((List.suffix_cons _ _).trans hunder) hle
    rcases List.mem_cons.mp hc with rfl | hc
    · exact .inr (.of_part (List.suffix_refl _) hle)
    · exact (ihrest c hc).imp id fun hunder =>
        hunder.mono (Nat.le_succ _) (Nat.le_refl _)

/-- What receives calls in the part that is opened next is that part or below
it. -/
theorem called_part (h : Bracketed (n :: place) 0 calls m) :
    ∀ c ∈ calls, (n :: place) <:+ c.place := by
  intro c hc
  rcases h.called c hc with ⟨hplace, -⟩ | ⟨i, -, -, hunder⟩
  · rw [hplace]
  · exact (List.suffix_cons _ _).trans hunder

/-- **What is opened** is a part of the place, or below one. -/
theorem opens_under (h : Bracketed place n calls m) :
    ∀ c ∈ calls, ∀ child, c.opens = some child →
      Place.Under place n m child := by
  induction h with
  | nil => exact fun c hc => absurd hc List.not_mem_nil
  | call _ _ ih =>
    rintro c (_ | ⟨_, hc⟩) child hchild
    · exact absurd hchild nofun
    · exact ih c hc child hchild
  | part hinside hrest ihinside ihrest =>
    have hle := hrest.le
    intro c hc child hchild
    rcases List.mem_cons.mp hc with rfl | hc
    · obtain rfl := Option.some.inj hchild
      exact .of_part (List.suffix_refl _) hle
    rcases List.mem_append.mp hc with hc | hc
    · obtain ⟨i, -, -, hunder⟩ := ihinside c hc child hchild
      exact .of_part ((List.suffix_cons _ _).trans hunder) hle
    rcases List.mem_cons.mp hc with rfl | hc
    · exact absurd hchild nofun
    · exact (ihrest c hc child hchild).mono (Nat.le_succ _) (Nat.le_refl _)

/-- What comes after a part does not belong to it. -/
theorem after_part (h : Bracketed place (n + 1) calls m) {child : Place}
    (hchild : (n :: place) <:+ child) : ∀ d ∈ calls, ¬ child <:+ d.place := by
  intro d hd hsuffix
  have hpart : Place.Under place n (n + 1) d.place :=
    .of_part (hchild.trans hsuffix) (Nat.lt_succ_self n)
  rcases h.called d hd with ⟨hplace, -⟩ | hunder
  · exact Place.Under.irrefl (hplace ▸ hpart)
  · exact hpart.disjoint hunder

/-- **The part that is opened next ends once.** -/
theorem endsOnce_next (hinside : Bracketed (n :: place) 0 calls m)
    {rest : List Made} {l : Nat} (hrest : Bracketed place (n + 1) rest l) :
    EndsOnce (n :: place) [] (calls ++ .ending (n :: place) :: rest) := by
  refine ⟨calls, rest, rfl, fun d hd => ⟨hinside.called_part d hd, ?_⟩,
    hrest.after_part (List.suffix_refl _)⟩
  intro hplace
  rcases hinside.called d hd with ⟨-, hcall⟩ | hunder
  · exact hcall
  · exact absurd (hplace ▸ hunder) Place.Under.irrefl

/-- **What is opened ends once.** -/
theorem endsOnce (h : Bracketed place n calls m) :
    ∀ before c after child, calls = before ++ c :: after →
      c.opens = some child → EndsOnce child before after := by
  induction h with
  | nil =>
    intro before c after child hcalls
    exact absurd hcalls (by simp)
  | @call place n m call rest delivers hrest ih =>
    intro before c after child hcalls hchild
    rcases List.append_eq_cons_iff.mp hcalls.symm with
      ⟨rfl, hc⟩ | ⟨before, rfl, rfl⟩
    · obtain ⟨rfl, -⟩ := List.cons.inj hc
      exact absurd hchild nofun
    · have hunder := hrest.opens_under c (by simp) child hchild
      have hfirst : ∀ d ∈ [Made.mk place call none], ¬ child <:+ d.place := by
        intro d hd hsuffix
        obtain rfl := List.mem_singleton.mp hd
        exact Place.Under.irrefl (hunder.trans hsuffix)
      exact (ih before c after child rfl hchild).prepend hfirst
  | @part place n m l part inside rest hinside hrest ihinside ihrest =>
    intro before c after child hcalls hchild
    rcases List.append_eq_cons_iff.mp hcalls.symm with
      ⟨rfl, hc⟩ | ⟨before, rfl, hmid⟩
    · obtain ⟨rfl, rfl⟩ := List.cons.inj hc
      obtain rfl := Option.some.inj hchild
      exact hinside.endsOnce_next hrest
    rcases List.append_eq_append_iff.mp hmid with
      ⟨mid, rfl, htail⟩ | ⟨mid, rfl, htail⟩
    · rcases List.append_eq_cons_iff.mp htail.symm with
        ⟨rfl, hc⟩ | ⟨mid, rfl, rfl⟩
      · obtain ⟨rfl, -⟩ := List.cons.inj hc
        exact absurd hchild nofun
      -- What is opened is a part of what comes after this part.
      have hunder := hrest.opens_under c (by simp) child hchild
      have hpart : ∀ {d : Made}, (n :: place) <:+ d.place →
          ¬ child <:+ d.place := fun hplace hsuffix =>
        Place.Under.disjoint (.of_part hplace (Nat.lt_succ_self n))
          (hunder.trans hsuffix)
      have hfront : ∀ d ∈ Made.opening place n part :: inside
          ++ [.ending (n :: place)], ¬ child <:+ d.place := by
        intro d hd hsuffix
        rcases List.mem_append.mp hd with (_ | ⟨_, hd⟩) | hd
        · exact Place.Under.irrefl (hunder.trans hsuffix)
        · exact hpart (hinside.called_part d hd) hsuffix
        · obtain rfl := List.mem_singleton.mp hd
          exact hpart (List.suffix_refl _) hsuffix
      simpa using (ihrest mid c after child rfl hchild).prepend hfront
    · rcases List.append_eq_cons_iff.mp htail.symm with
        ⟨rfl, hc⟩ | ⟨mid, rfl, rfl⟩
      · obtain ⟨rfl, -⟩ := List.cons.inj hc
        exact absurd hchild nofun
      -- What is opened is a part of this part.
      have hunder := hinside.opens_under c (by simp) child hchild
      have hpart : (n :: place) <:+ child := by
        obtain ⟨i, -, -, hsuffix⟩ := hunder
        exact (List.suffix_cons _ _).trans hsuffix
      have hfirst : ∀ d ∈ [Made.opening place n part],
          ¬ child <:+ d.place := by
        intro d hd hsuffix
        obtain rfl := List.mem_singleton.mp hd
        exact Place.Under.irrefl (.of_part (hpart.trans hsuffix)
          (Nat.lt_succ_self n))
      have hlast : ∀ d ∈ Made.ending (n :: place) :: rest,
          ¬ child <:+ d.place := by
        rintro d (_ | ⟨_, hd⟩) hsuffix
        · exact Place.Under.irrefl (hunder.trans hsuffix)
        · exact hrest.after_part hpart d hd hsuffix
      exact ((ihinside before c mid child rfl hchild).prepend hfirst).append
        hlast

/-- An opening hands out a place directly below the one that is asked. -/
theorem opens_next (h : Bracketed place n calls m) :
    ∀ c ∈ calls, ∀ part, c.call = .enter part →
      ∃ i, c.opens = some (i :: c.place) := by
  induction h with
  | nil => exact fun c hc => absurd hc List.not_mem_nil
  | call delivers _ ih =>
    rintro c (_ | ⟨_, hc⟩) part hcall
    · obtain rfl : _ = SinkCall.enter part := hcall
      exact delivers.elim
    · exact ih c hc part hcall
  | part _ _ ihinside ihrest =>
    intro c hc part hcall
    rcases List.mem_cons.mp hc with rfl | hc
    · exact ⟨_, rfl⟩
    rcases List.mem_append.mp hc with hc | hc
    · exact ihinside c hc part hcall
    rcases List.mem_cons.mp hc with rfl | hc
    · exact absurd hcall nofun
    · exact ihrest c hc part hcall

/-- What is called was opened, if it is not the place itself. -/
theorem opened_of_called (h : Bracketed place n calls m) :
    ∀ c ∈ calls, c.place ≠ place → ∃ d ∈ calls, d.opens = some c.place := by
  induction h with
  | nil => exact fun c hc => absurd hc List.not_mem_nil
  | call _ _ ih =>
    rintro c (_ | ⟨_, hc⟩) hplace
    · exact absurd rfl hplace
    · obtain ⟨d, hd, hopens⟩ := ih c hc hplace
      exact ⟨d, List.mem_cons_of_mem _ hd, hopens⟩
  | @part place n m l part inside rest _ _ ihinside ihrest =>
    intro c hc hplace
    by_cases hpart : c.place = n :: place
    · exact ⟨_, List.mem_cons_self, congrArg some hpart.symm⟩
    rcases List.mem_cons.mp hc with rfl | hc
    · exact absurd rfl hplace
    rcases List.mem_append.mp hc with hc | hc
    · obtain ⟨d, hd, hopens⟩ := ihinside c hc hpart
      exact ⟨d, by simp [hd], hopens⟩
    rcases List.mem_cons.mp hc with rfl | hc
    · exact absurd rfl hpart
    · obtain ⟨d, hd, hopens⟩ := ihrest c hc hplace
      exact ⟨d, by simp [hd], hopens⟩

/-- **Calls in brackets are well bracketed.** -/
theorem wellBracketed (h : Bracketed [] n calls m) : WellBracketed calls where
  opens := h.opens_next
  part := h.endsOnce
  opened := h.opened_of_called
  root c hc hplace := by
    rcases h.called c hc with ⟨-, hcall⟩ | hunder
    · exact hcall
    · exact absurd (hplace ▸ hunder) Place.Under.irrefl

end Bracketed

end Avro
