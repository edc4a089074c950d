import Avro.Proofs.Plan.Linked
import Mathlib.Data.List.Perm.Subperm

/-!
# Linking

Linking walks a plan and threads a registry through the walk. What it leaves
is linked code in the sense of `Linked`, for the demands whose names have been
registered by then: the names only ever grow, and so do the messages, so what
is linked early stays linked.

A method is registered before its plan is walked, so its name may be called
before its code exists. The statement about a walk (`Linkage`) therefore
speaks of the names that the walk adds and of the methods that it returns at
once: a name is added exactly when a method is returned, and the code of every
returned method is the linked plan of a demand of that name.

Linking a call uses up a budget. It suffices because names are not registered
twice: as many methods can be inside one another as there are names that the
demands of a class can have (`linksCalls_linkCall`). So linking fails only where a
plan rejects, with the reason given there.
-/

namespace Avro

namespace Plan

/-! ## Plans of a class of demands -/

mutual

/-- **A plan is regular** for a class of demands: its instructions stay on
their level, its openings open, and its calls are for demands of the class. -/
def Regular (D : Demand → Prop) : Plan → Prop
  | .nothing => True
  | .seq first second => Regular D first ∧ Regular D second
  | .op i => i.Plain
  | .within opening _ inner => opening.Opens ∧ Regular D inner
  | .blocks _ inner => Regular D inner
  | .switch _ _ cases => RegularCases D cases
  | .call demand => D demand
  | .reject _ => True

/-- Cases are regular if the plans in them are. -/
def RegularCases (D : Demand → Prop) : PlanCases → Prop
  | .none => True
  | .case _ _ inner rest => Regular D inner ∧ RegularCases D rest

end

mutual

/-- **A plan rejects** with a reason somewhere. -/
def Rejects (e : CompileError) : Plan → Prop
  | .nothing | .op _ | .call _ => False
  | .seq first second => Rejects e first ∨ Rejects e second
  | .within _ _ inner | .blocks _ inner => Rejects e inner
  | .switch _ _ cases => RejectsIn e cases
  | .reject reason => reason = e

/-- Cases reject if a plan in them does. -/
def RejectsIn (e : CompileError) : PlanCases → Prop
  | .none => False
  | .case _ _ inner rest => Rejects e inner ∨ RejectsIn e rest

end

end Plan

/-! ## Postconditions -/

namespace Assembling

variable {α β : Type} {m : Assembling α} {f : α → Assembling β}
  {registry : Registry} {E E' : CompileError → Prop}
  {Q Q' : α → Registry → Prop} {P : β → Registry → Prop}

/-- **A computation meets a postcondition** `Q` if it succeeds, and fails only
with reasons in `E`. -/
def Meets (m : Assembling α) (registry : Registry) (E : CompileError → Prop)
    (Q : α → Registry → Prop) : Prop :=
  match m registry with
  | .ok (a, registry') => Q a registry'
  | .error e => E e

namespace Meets

theorem pure (a : α) (h : Q a registry) :
    Meets (Pure.pure a) registry E Q :=
  h

theorem bind (hm : Meets m registry E Q)
    (hf : ∀ a registry', Q a registry' → Meets (f a) registry' E P) :
    Meets (m >>= f) registry E P := by
  unfold Meets at hm ⊢
  simp only [Bind.bind, StateT.bind, Except.bind]
  cases hr : m registry with
  | error e => rw [hr] at hm; exact hm
  | ok result =>
    rw [hr] at hm
    exact hf result.1 result.2 hm

theorem mono (hm : Meets m registry E Q) (hE : ∀ e, E e → E' e)
    (hQ : ∀ a registry', Q a registry' → Q' a registry') :
    Meets m registry E' Q' := by
  unfold Meets at hm ⊢
  cases hr : m registry with
  | error e => rw [hr] at hm; exact hE e hm
  | ok result => rw [hr] at hm; exact hQ _ _ hm

end Meets

end Assembling

/-! ## What a walk leaves -/

section

variable (D : Demand → Prop) (body : Demand → Plan)

/-- The demands of a class whose names are registered. -/
def Registered (names : List String) (d : Demand) : Prop :=
  D d ∧ d.methodName ∈ names

/-- **A registry of a class of demands**: no name twice, and only names of
such demands. -/
structure Registry.OfClass (registry : Registry) : Prop where
  /-- No name is registered twice. -/
  nodup : registry.methods.Nodup
  /-- Every name is a demand's. -/
  named : ∀ name ∈ registry.methods, ∃ d, D d ∧ d.methodName = name

/-- **What a walk leaves**: it adds a name for every method that it returns,
and the code of the method is linked from the plan of a demand of that
name. -/
structure Linkage (before : Registry) (methods : List Method)
    (after : Registry) : Prop where
  /-- The registry is one of the class. -/
  ofClass : after.OfClass D
  /-- The names added are those of the methods. -/
  names : after.methods = before.methods ++ methods.map (·.name)
  /-- Messages are added at the end. -/
  messages : before.messages <+: after.messages
  /-- Methods are linked plans. -/
  linked : ∀ m ∈ methods, ∃ d, D d ∧ d.methodName = m.name
    ∧ Linked (Registered D after.methods) after.messages (body d) m.code

/-- A plan of the class or of one of its methods rejects with a reason. -/
def RejectsBelow (e : CompileError) : Prop :=
  ∃ d, D d ∧ (body d).Rejects e

end

namespace Linkage

variable {D : Demand → Prop} {body : Demand → Plan}
  {first second third : Registry} {methods others : List Method}

theorem refl (h : first.OfClass D) : Linkage D body first [] first where
  ofClass := h
  names := by simp
  messages := List.prefix_refl _
  linked := nofun

/-- What is registered stays registered. -/
theorem subset (h : Linkage D body first methods second) :
    ∀ d, Registered D first.methods d → Registered D second.methods d := by
  rintro d ⟨hd, hname⟩
  refine ⟨hd, ?_⟩
  rw [h.names]
  exact List.mem_append_left _ hname

/-- There are no fewer names afterwards. -/
theorem length_le (h : Linkage D body first methods second) :
    first.methods.length ≤ second.methods.length := by
  rw [h.names, List.length_append]
  exact Nat.le_add_right _ _

/-- Registering a message. -/
theorem message (h : first.OfClass D) (text : String) :
    Linkage D body first []
      { first with messages := first.messages ++ [text] } where
  ofClass := ⟨h.nodup, h.named⟩
  names := by simp
  messages := List.prefix_append _ _
  linked := nofun

/-- **One walk after another.** -/
theorem trans (h : Linkage D body first methods second)
    (h' : Linkage D body second others third) :
    Linkage D body first (methods ++ others) third where
  ofClass := h'.ofClass
  names := by
    rw [h'.names, h.names, List.map_append, List.append_assoc]
  messages := h.messages.trans h'.messages
  linked := by
    intro m hm
    rcases List.mem_append.mp hm with hm | hm
    · obtain ⟨d, hd, hname, hlinked⟩ := h.linked m hm
      exact ⟨d, hd, hname, hlinked.mono h'.subset h'.messages⟩
    · exact h'.linked m hm

end Linkage

/-! ## Walking plans -/

section

variable {D : Demand → Prop} {body : Demand → Plan} {least : Nat}
  {onCall : Demand → Assembling (String × List Method)}

open Assembling (Meets)

variable (D body onCall least) in
/-- What linking a call has to do: from a registry that is large enough, it
registers the method of the demand, unless it is registered already. -/
def LinksCalls : Prop :=
  ∀ d, D d → ∀ registry : Registry, registry.OfClass D →
    least ≤ registry.methods.length →
    Meets (onCall d) registry (RejectsBelow D body) fun result after =>
      Linkage D body registry result.2 after
        ∧ result.1 = d.methodName ∧ d.methodName ∈ after.methods

mutual

/-- **Walking a plan leaves linked code**, if linking a call does what it has
to do. -/
theorem meets_link (hcall : LinksCalls D body least onCall) :
    ∀ (plan : Plan), plan.Regular D → ∀ registry : Registry,
      registry.OfClass D → least ≤ registry.methods.length →
      Meets (plan.link onCall) registry
        (fun e => plan.Rejects e ∨ RejectsBelow D body e)
        fun result after => Linkage D body registry result.2 after
          ∧ Linked (Registered D after.methods) after.messages plan result.1
  | .nothing, _, registry, hclass, _ => by
    rw [Plan.link]
    exact .pure _ ⟨.refl hclass, .nothing⟩
  | .seq first second, hregular, registry, hclass, hleast => by
    obtain ⟨hfirst, hsecond⟩ := hregular
    rw [Plan.link]
    refine .bind ((meets_link hcall first hfirst registry hclass hleast).mono
      (fun e => Or.imp_left .inl) (fun _ _ h => h)) ?_
    rintro ⟨code, methods⟩ after ⟨h, hcode⟩
    refine .bind ((meets_link hcall second hsecond after h.ofClass
      (Nat.le_trans hleast h.length_le)).mono
      (fun e => Or.imp_left .inr) (fun _ _ h => h)) ?_
    rintro ⟨code', others⟩ after' ⟨h', hcode'⟩
    exact .pure _ ⟨h.trans h', .seq (hcode.mono h'.subset h'.messages) hcode'⟩
  | .op i, hregular, registry, hclass, _ => by
    rw [Plan.link]
    exact .pure _ ⟨.refl hclass, .op hregular⟩
  | .within opening label inner, hregular, registry, hclass, hleast => by
    obtain ⟨hopens, hinner⟩ := hregular
    rw [Plan.link]
    refine .bind (meets_link hcall inner hinner registry hclass hleast) ?_
    rintro ⟨code, methods⟩ after ⟨h, hcode⟩
    exact .pure _ ⟨h, .within hopens hcode⟩
  | .blocks label inner, hregular, registry, hclass, hleast => by
    rw [Plan.link]
    refine .bind (meets_link hcall inner hregular registry hclass hleast) ?_
    rintro ⟨code, methods⟩ after ⟨h, hcode⟩
    exact .pure _ ⟨h, .blocks hcode⟩
  | .switch label message cases, hregular, registry, hclass, hleast => by
    rw [Plan.link]
    have hmessage := @Linkage.message _ body registry hclass message
    refine .bind (Q := fun number after =>
      number = registry.messages.length + 1 ∧ after = { registry with
        messages := registry.messages ++ [message] }) ⟨rfl, rfl⟩ ?_
    rintro _ _ ⟨rfl, rfl⟩
    refine .bind (meets_linkCases hcall cases hregular _ hmessage.ofClass
      hleast) ?_
    rintro ⟨cases', methods⟩ after ⟨h, hcases⟩
    refine .pure _ ⟨hmessage.trans h, .switch ?_ hcases⟩
    obtain ⟨more, hmore⟩ := h.messages
    rw [← hmore, List.append_assoc, List.getElem?_append_right (Nat.le_refl _),
      Nat.sub_self]
    rfl
  | .call demand, hregular, registry, hclass, hleast => by
    rw [Plan.link]
    refine .bind ((hcall demand hregular registry hclass hleast).mono
      (fun e => .inr) (fun _ _ h => h)) ?_
    rintro ⟨name, methods⟩ after ⟨h, rfl, hname⟩
    exact .pure _ ⟨h, .call ⟨hregular, hname⟩⟩
  | .reject reason, _, registry, _, _ => by
    rw [Plan.link]
    exact .inl rfl

/-- Walking the cases of a switch leaves linked cases. -/
theorem meets_linkCases (hcall : LinksCalls D body least onCall) :
    ∀ (cases : PlanCases), Plan.RegularCases D cases →
      ∀ registry : Registry, registry.OfClass D →
      least ≤ registry.methods.length →
      Meets (Plan.linkCases onCall cases) registry
        (fun e => Plan.RejectsIn e cases ∨ RejectsBelow D body e)
        fun result after => Linkage D body registry result.2 after
          ∧ LinkedAll (Registered D after.methods) after.messages cases
            result.1
  | .none, _, registry, hclass, _ => by
    rw [Plan.linkCases]
    exact .pure _ ⟨.refl hclass, .none⟩
  | .case tag delivered inner rest, hregular, registry, hclass, hleast => by
    obtain ⟨hinner, hrest⟩ := hregular
    rw [Plan.linkCases]
    refine .bind ((meets_link hcall inner hinner registry hclass hleast).mono
      (fun e => Or.imp_left .inl) (fun _ _ h => h)) ?_
    rintro ⟨code, methods⟩ after ⟨h, hcode⟩
    refine .bind ((meets_linkCases hcall rest hrest after h.ofClass
      (Nat.le_trans hleast h.length_le)).mono
      (fun e => Or.imp_left .inr) (fun _ _ h => h)) ?_
    rintro ⟨cases', others⟩ after' ⟨h', hcases'⟩
    exact .pure _ ⟨h.trans h', .case (hcode.mono h'.subset h'.messages) hcases'⟩

end

/-! ## Calls -/

variable {writer reader : Schema} {names : List String}

/-- A registry has at most as many names as there are for the demands of its
class. -/
theorem Registry.OfClass.length_le {registry : Registry}
    (h : registry.OfClass D) (hnames : ∀ d, D d → d.methodName ∈ names) :
    registry.methods.length ≤ names.length := by
  refine (List.subperm_of_subset h.nodup ?_).length_le
  intro name hname
  obtain ⟨d, hd, rfl⟩ := h.named name hname
  exact hnames d hd

/-- Registering the name of a demand. -/
theorem Registry.OfClass.insert {registry : Registry}
    (h : registry.OfClass D) {d : Demand} (hd : D d)
    (hnew : d.methodName ∉ registry.methods) :
    Registry.OfClass D { registry with
      methods := registry.methods ++ [d.methodName] } where
  nodup := by
    refine List.nodup_append.mpr ⟨h.nodup, by simp, ?_⟩
    rintro name hname _ hsame rfl
    rw [List.mem_singleton.mp hsame] at hname
    exact hnew hname
  named := by
    intro name hname
    rcases List.mem_append.mp hname with hname | hname
    · exact h.named name hname
    · exact ⟨d, hd, (List.mem_singleton.mp hname).symm⟩

/-- **Linking a call registers the method of its demand**, with a budget that
allows for every name that is not registered yet. -/
theorem linksCalls_linkCall (hnames : ∀ d, D d → d.methodName ∈ names)
    (hregular : ∀ d, D d → (d.body writer reader).Regular D) (budget : Nat) :
    LinksCalls D (Demand.body writer reader) (names.length + 1 - budget)
      (linkCall writer reader budget) := by
  induction budget with
  | zero =>
    intro d hd registry hclass hleast
    have hle := hclass.length_le hnames
    omega
  | succ budget ih =>
    intro d hd registry hclass hleast
    rw [linkCall]
    refine .bind (Q := fun known after => registry = known ∧ registry = after)
      ⟨rfl, rfl⟩ ?_
    rintro _ _ ⟨rfl, rfl⟩
    by_cases hknown : d.methodName ∈ registry.methods
    · rw [if_pos (List.contains_iff_mem.mpr hknown)]
      exact .pure _ ⟨.refl hclass, rfl, hknown⟩
    · rw [if_neg (mt List.contains_iff_mem.mp hknown)]
      have hclass' := hclass.insert hd hknown
      refine .bind (Q := fun _ after => after = { registry with
        methods := registry.methods ++ [d.methodName] }) rfl ?_
      rintro _ _ rfl
      refine .bind ((meets_link ih _ (hregular d hd) _ hclass' ?_).mono
        ?_ (fun _ _ h => h)) ?_
      · simp only [List.length_append, List.length_singleton]
        omega
      · rintro e (h | h)
        · exact ⟨d, hd, h⟩
        · exact h
      · rintro ⟨code, others⟩ after ⟨h, hcode⟩
        refine .pure _ ⟨⟨h.ofClass, ?_, h.messages, ?_⟩, rfl, ?_⟩
        · rw [h.names, List.append_assoc]
          rfl
        · intro m hm
          rcases List.mem_cons.mp hm with rfl | hm
          · exact ⟨d, hd, rfl, hcode⟩
          · exact h.linked m hm
        · rw [h.names]
          exact List.mem_append_left _
            (List.mem_append_right _ (List.mem_singleton_self _))

end

end Avro
