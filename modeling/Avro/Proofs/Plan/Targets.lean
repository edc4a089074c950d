import Avro.Proofs.Plan.Bounded
import Avro.Proofs.Plan.Nesting
import Avro.Proofs.Plan.Positions

/-!
# Linking finds every target

What is linked are units of symbolic code: the main code and the methods, each
ending with an instruction of its own (`Units`). Linking lays them out one after
the other, and fills in the addresses of what they refer to.

`Program.Links` says that a program has in every place what the units mean
there: a loop goes to its own header, to its own `pushLoop` and behind its own
end, a switch to its own cases and they to its end, a call to the method of its
name, and no jump leaves its unit or the brackets that are open. It holds of
units of linked code (`Units.OfLinked.links`), and those that a pair of schemas
is walked into are such units (`Units.ofSchemas_linked`).
-/

namespace Avro

open Code (headerSize footerSize target)
open Symbolic (extent opened size)

/-! ## Units -/

/-- **What is linked**: the main code and the methods, how many numbers they
were given, and the messages of their switches. -/
structure Units where
  /-- The main code with its halt. -/
  main : List Symbolic
  /-- The methods with their returns. -/
  methods : List SymbolicMethod
  /-- How many loops over blocks and switches have a number. -/
  numbers : Counters
  /-- The messages; the first has number 1. -/
  messages : List String

namespace Units

/-- The code of the units in the order in which they are laid out. -/
def all (u : Units) : List (List Symbolic) := u.main :: u.methods.map (·.code)

/-- The offsets that measuring the units leaves. -/
def offsets (u : Units) : Offsets :=
  ((Offsets.blank u.numbers).measure 0 u.main).measureMethods (extent u.main)
    u.methods

/-- **The program of units.** -/
def program (u : Units) : Except CompileError Program :=
  Symbolic.program u.numbers u.main u.methods u.messages

/-- **The units of a pair of schemas**, at most `budget` methods being emitted
inside one another. -/
def ofSchemas (budget : Nat) (writer reader : Schema) :
    Except CompileError Units :=
  match (mainPlan writer reader).emit (emitCall writer reader budget) ⟨0, 0⟩
    .empty with
  | .error e => .error e
  | .ok (((main, methods), numbers), registry) =>
    .ok ⟨main ++ [.literal ⟨.halt, 0, "end"⟩], methods, numbers,
      registry.messages⟩

/-- **A unit stands** at a base. -/
def UnitAt (u : Units) (base : Nat) (unit : List Symbolic) : Prop :=
  StandsIn extent unit base 0 u.all

/-- **A method stands** at an offset. -/
def MethodAt (u : Units) (m : SymbolicMethod) (b : Nat) : Prop :=
  StandsIn (fun m => extent m.code) m b (extent u.main) u.methods

end Units

/-! ## Targets -/

namespace Program

/-- **A loop over blocks stands** with its header at `a` and its end at `b`: it
is left right behind its end, its rounds begin at its own `pushLoop`, and
further blocks are read where its header begins. -/
structure LoopAt (p : Program) (a b : Nat) (label : String) : Prop where
  /-- The header reads a number of items. -/
  read : p.instructions[a]? = some (.read .long label)
  /-- If there are none the loop is left, right behind its end. -/
  exit : p.instructions[a + 2]? = some ⟨.condJump, target (b + 5), label⟩
  /-- If there are some the first round begins. -/
  entry : p.instructions[a + 4]? = some ⟨.condJump, target (a + 7), label⟩
  /-- A round begins here. -/
  pushLoop : p.instructions[a + 7]? = some ⟨.pushLoop, 0, label⟩
  /-- A round ends here. -/
  popLoop : p.instructions[b]? = some ⟨.popLoop, 0, label⟩
  /-- After the last item the header reads a further number. -/
  again : p.instructions[b + 3]? = some ⟨.condJump, target a, label⟩
  /-- After any other item the next round begins. -/
  round : p.instructions[b + 4]? = some ⟨.jump, target (a + 7), label⟩

/-- **A program links units**: what stands in them stands in the program at the
same offset, and every target is where it belongs. -/
structure Links (p : Program) (u : Units) : Prop where
  /-- No number is given to two loops or to two switches. -/
  nodup : (opened u.all.flatten).Nodup
  /-- No two methods have one name. -/
  names : (u.methods.map (·.name)).Nodup
  /-- The program is as long as the units are. -/
  length : p.instructions.size = extent u.all.flatten
  /-- **Every symbolic instruction stands at its offset**, lowered to as many
  instructions as its size says. -/
  lowered : ∀ {base unit s a}, u.UnitAt base unit →
    StandsIn size s a base unit → ∃ code, s.lower u.offsets = .ok code
      ∧ code.length = s.size ∧ p.Holds a code
  /-- The offset that was noted for it is the same. -/
  noted : ∀ {base unit s a}, u.UnitAt base unit →
    StandsIn size s a base unit → u.offsets.Notes a s
  /-- Methods are units, and stand where the table of the program says. -/
  method : ∀ {m b}, u.MethodAt m b →
    u.UnitAt b m.code ∧ p.method? m.name = some b
  /-- **The header of a loop** has its end in the same unit. -/
  header : ∀ {base unit number label a}, u.UnitAt base unit →
    StandsIn size (.blockStart number label) a base unit →
    ∃ b, StandsIn size (.blockEnd number label) b base unit
      ∧ p.LoopAt a b label
  /-- **The end of a loop** has its header in the same unit. -/
  footer : ∀ {base unit number label b}, u.UnitAt base unit →
    StandsIn size (.blockEnd number label) b base unit →
    ∃ a, StandsIn size (.blockStart number label) a base unit
      ∧ p.LoopAt a b label
  /-- **The test of a switch** for a tag goes right behind the leading jump of
  its own case for the tag. -/
  tests : ∀ {base unit number tags message label a}, u.UnitAt base unit →
    StandsIn size (.switchStart number tags message label) a base unit →
    ∀ {n tag}, tags[n]? = some tag → ∃ c delivered,
      StandsIn size (.switchCase number tag delivered label) c base unit
      ∧ p.instructions[a + 2 * n]? = some ⟨.evalEqual, target tag, label⟩
      ∧ p.instructions[a + 2 * n + 1]?
        = some ⟨.condJump, target (c + 1), label⟩
  /-- **The leading jump of a case** goes to the end of its own switch. -/
  case : ∀ {base unit number tag delivered label c}, u.UnitAt base unit →
    StandsIn size (.switchCase number tag delivered label) c base unit →
    ∃ e, StandsIn size (.switchEnd number) e base unit
      ∧ p.instructions[c]? = some ⟨.jump, target e, label⟩
  /-- **A call** goes to the first instruction of the method of its name. -/
  call : ∀ {base unit name a}, u.UnitAt base unit →
    StandsIn size (.call name) a base unit → ∃ m b, u.MethodAt m b
      ∧ m.name = name ∧ p.instructions[a]? = some ⟨.call, target b, name⟩
  /-- **A jump** stays in its unit and keeps the brackets that are open. -/
  jumps : ∀ {base unit a i}, u.UnitAt base unit → base ≤ a →
    a < base + extent unit → p.instructions[a]? = some i →
    i.op = .jump ∨ i.op = .condJump → ∃ t outer, i.operand = target t
      ∧ base ≤ t ∧ t < base + extent unit
      ∧ p.Open base a outer ∧ p.Open base t outer

end Program

/-! ## Units that number code -/

section

variable {codes : List LinkedCode} {units : List (List Symbolic)}

/-- Units together leave the symbols that they do not begin. -/
theorem leaves_flatten {x : Symbol} (h : List.Forall₂ Numbered codes units)
    (hx : x ∉ opened units.flatten) : Symbolic.Leaves x units.flatten := by
  induction h with
  | nil => exact Symbolic.leaves_nil
  | cons h _ ih =>
    rw [List.flatten_cons, Symbolic.opened_append, List.mem_append, not_or]
      at hx
    rw [List.flatten_cons]
    exact Symbolic.leaves_append.mpr ⟨h.leaves hx.1, ih hx.2⟩

/-- **Every unit has settled offsets** if the units together have. -/
theorem exists_settled {after : Offsets} {base b : Nat} {unit : List Symbolic}
    (hstands : StandsIn extent unit b base units)
    (h : List.Forall₂ Numbered codes units) {before : Offsets}
    (hs : Symbolic.Settled before after base units.flatten) :
    ∃ code ∈ codes, Numbered code unit
      ∧ ∃ before', Symbolic.Settled before' after b unit := by
  induction hstands generalizing codes before with
  | here =>
    cases h with
    | cons h hrest =>
      rw [List.flatten_cons] at hs
      exact ⟨_, List.mem_cons_self, h, before, hs.left fun x hx =>
        leaves_flatten hrest (hs.disjoint x hx)⟩
  | later _ ih =>
    cases h with
    | cons h hrest =>
      rw [List.flatten_cons] at hs
      obtain ⟨code, hmem, hcode⟩ := ih hrest (hs.right fun x hx =>
        h.leaves fun hmem => hs.disjoint x hmem hx)
      exact ⟨code, List.mem_cons_of_mem _ hmem, hcode⟩

end

/-! ## Methods in the table -/

/-- **The table has the methods**, each at the offset where it stands. -/
theorem mem_measureMethods {x : String × Nat} :
    ∀ {methods : List SymbolicMethod} {o : Offsets} {offset : Nat},
      x ∈ (o.measureMethods offset methods).methods ↔ x ∈ o.methods
        ∨ ∃ m, StandsIn (fun m => extent m.code) m x.2 offset methods
          ∧ m.name = x.1
  | [], _, _ => ⟨.inl, fun h => h.resolve_right nofun⟩
  | m :: rest, o, offset => by
    rw [Offsets.measureMethods, mem_measureMethods, Offsets.methods_measure]
    show x ∈ o.methods ++ [(m.name, offset)] ∨ _ ↔ _
    rw [List.mem_append, List.mem_singleton, or_assoc]
    refine or_congr_right ⟨?_, ?_⟩
    · rintro (rfl | ⟨m', hm', hname⟩)
      · exact ⟨m, .here, rfl⟩
      · exact ⟨m', .later hm', hname⟩
    · rintro ⟨m', hm', hname⟩
      cases hm' with
      | here => exact .inl (Prod.ext hname.symm rfl)
      | later hm' => exact .inr ⟨m', hm', hname⟩

theorem map_fst_measureMethods : ∀ {methods : List SymbolicMethod} {o : Offsets}
    {offset : Nat}, (o.measureMethods offset methods).methods.map (·.1)
      = o.methods.map (·.1) ++ methods.map (·.name)
  | [], _, _ => (List.append_nil _).symm
  | m :: rest, o, offset => by
    rw [Offsets.measureMethods, map_fst_measureMethods, Offsets.methods_measure]
    show (o.methods ++ [(m.name, offset)]).map (·.1) ++ _ = _
    rw [List.map_append, List.append_assoc]
    rfl

namespace Units

variable {u : Units} {base b : Nat} {unit : List Symbolic} {m : SymbolicMethod}

/-- The methods that the offsets have are those of the units. -/
theorem mem_methods_offsets {x : String × Nat} :
    x ∈ u.offsets.methods ↔ ∃ m, u.MethodAt m x.2 ∧ m.name = x.1 := by
  rw [offsets, mem_measureMethods, Offsets.methods_measure]
  exact or_iff_right List.not_mem_nil

theorem map_fst_methods_offsets :
    u.offsets.methods.map (·.1) = u.methods.map (·.name) := by
  rw [offsets, map_fst_measureMethods, Offsets.methods_measure]
  rfl

/-- A method is a unit. -/
theorem MethodAt.unitAt (h : u.MethodAt m b) : u.UnitAt b m.code := by
  have hmap : ∀ {methods : List SymbolicMethod} {base : Nat},
      StandsIn (fun m => extent m.code) m b base methods →
      StandsIn extent m.code b base (methods.map (·.code)) := by
    intro methods base h
    induction h with
    | here => exact .here
    | later _ ih => exact .later ih
  refine .later ?_
  rw [Nat.zero_add]
  exact hmap h

end Units

/-! ## Units of linked code -/

namespace Program

variable {p : Program} {a b : Nat} {label : String}

/-- What stands in a program is what the program has there. -/
theorem Holds.getElem?_eq {code : List Instruction} (h : p.Holds a code)
    {n : Nat} (hn : n < code.length) : code[n]? = p.instructions[a + n]? := by
  have hsome := List.getElem?_eq_getElem hn
  rw [hsome, h.get hsome]

/-- A loop stands where its header and its end do. -/
theorem LoopAt.of_holds
    (h : p.Holds a (Code.header (b + footerSize) (a + headerSize - 1) label))
    (h' : p.Holds b (Code.footer a (a + headerSize - 1) label)) :
    p.LoopAt a b label where
  read := h.get (n := 0) rfl
  exit := h.get (n := 2) rfl
  entry := h.get (n := 4) rfl
  pushLoop := h.get (n := 7) rfl
  popLoop := h'.get (n := 0) rfl
  again := h'.get (n := 3) rfl
  round := h'.get (n := 4) rfl

end Program

/-- **Linked code with its last instruction**, a halt or a return. -/
def LinkedCode.Ended (R : Demand → Prop) (messages : List String)
    (code : LinkedCode) : Prop :=
  ∃ plan c last, code = .seq c (.op last) ∧ Linked R messages plan c
    ∧ (last.op = .halt ∨ last.op = .return)

/-- **Units are those of linked code**: they number it, no number being given
twice, and it calls methods that are there, no two of one name. -/
structure Units.OfLinked (u : Units) (R : Demand → Prop)
    (codes : List LinkedCode) : Prop where
  /-- The units number the code. -/
  numbered : List.Forall₂ Numbered codes u.all
  /-- Their offsets are settled. -/
  settled : Symbolic.Settled (.blank u.numbers) u.offsets 0 u.all.flatten
  /-- No two methods have one name. -/
  names : (u.methods.map (·.name)).Nodup
  /-- The code of a unit is linked code with its last instruction. -/
  ended : ∀ code ∈ codes, LinkedCode.Ended R u.messages code
  /-- Its demands are for methods that are there. -/
  demands : ∀ d, R d → d.methodName ∈ u.methods.map (·.name)

namespace Units.OfLinked

variable {u : Units} {R : Demand → Prop} {codes : List LinkedCode} {p : Program}
  {base a : Nat} {unit : List Symbolic} {s : Symbolic}

/-- What stands in a unit is resolved. -/
theorem resolves (h : u.OfLinked R codes) (hunit : u.UnitAt base unit)
    (hs : StandsIn size s a base unit) : u.offsets.Resolves base unit a s := by
  obtain ⟨_, _, hnumbered, _, hsettled⟩ :=
    exists_settled hunit h.numbered h.settled
  exact hnumbered.resolves hsettled hs

/-- A method has the offset that its name is found at. -/
theorem find?_eq_some_iff (h : u.OfLinked R codes) {name : String} {b : Nat} :
    Entries.find? name u.offsets.methods = some b
      ↔ ∃ m, u.MethodAt m b ∧ m.name = name := by
  have hnodup : (u.offsets.methods.map (·.1)).Nodup :=
    map_fst_methods_offsets ▸ h.names
  refine Iff.trans ⟨Entries.mem_of_find?, Entries.find?_of_mem hnodup⟩ ?_
  exact mem_methods_offsets

/-- **A unit is lowered as its tree is**, with the offsets of methods by their
names. -/
theorem lowerAll_unit (h : u.OfLinked R codes) (hunit : u.UnitAt base unit) :
    ∃ plan c last, Linked R u.messages plan c
      ∧ (last.op = .halt ∨ last.op = .return)
      ∧ Symbolic.lowerAll u.offsets unit = .ok (c.lower
        (fun name => (Entries.find? name u.offsets.methods).getD 0) base
          ++ [last]) := by
  obtain ⟨code, hmem, hnumbered, before, hsettled⟩ :=
    exists_settled hunit h.numbered h.settled
  obtain ⟨plan, c, last, rfl, hlinked, hlast⟩ := h.ended code hmem
  have hnames : ∀ name ∈ u.methods.map (·.name),
      Entries.find? name u.offsets.methods
        = some ((Entries.find? name u.offsets.methods).getD 0) := by
    intro name hname
    rw [← map_fst_methods_offsets] at hname
    obtain ⟨x, hx, rfl⟩ := List.mem_map.mp hname
    rw [h.find?_eq_some_iff.mpr (mem_methods_offsets.mp hx)]
    rfl
  have hcalls : (Code.seq c (.op last)).unknownCall?
      (u.methods.map (·.name)) = none := by
    rw [Code.unknownCall?, hlinked.unknownCall?_eq_none h.demands]
    rfl
  have hlower := hnumbered.lower_eq hnames hcalls hsettled
  refine ⟨plan, c, last, hlinked, hlast, ?_⟩
  rw [hlower, Code.lower, Code.lower]

end Units.OfLinked

/-- What the program of units is made of. -/
theorem Units.exists_of_program {u : Units} {p : Program}
    (h : u.program = .ok p) : ∃ text,
      Symbolic.lowerAll u.offsets u.all.flatten = .ok text
        ∧ p.instructions = text.toArray
        ∧ p.methods = Entries.ofList u.offsets.methods := by
  unfold Units.program Symbolic.program at h
  change (Symbolic.lowerAll u.offsets (u.main ++ u.methods.flatMap _) >>= _) = _
    at h
  cases hcode : Symbolic.lowerAll u.offsets
      (u.main ++ u.methods.flatMap (·.code)) with
  | error e => rw [hcode] at h; cases h
  | ok text =>
    rw [hcode] at h
    obtain rfl := Except.ok.inj h
    exact ⟨text, hcode, rfl, rfl⟩

namespace Units

variable {u : Units} {R : Demand → Prop} {codes : List LinkedCode} {p : Program}
  {base a : Nat} {unit : List Symbolic} {s : Symbolic}

/-- **A unit stands in the program** where it stands among the units. -/
theorem holds_unit (hp : u.program = .ok p) (hunit : u.UnitAt base unit) :
    ∃ text, Symbolic.lowerAll u.offsets unit = .ok text
      ∧ p.Holds base text := by
  obtain ⟨text, hcode, hinstructions, -⟩ := exists_of_program hp
  have hall : p.Holds 0 text := ⟨[], [], by rw [hinstructions]; simp, rfl⟩
  exact Symbolic.holds_of_lowerAll_flatten hunit hcode hall

/-- **What stands in a unit stands in the program.** -/
theorem holds (hp : u.program = .ok p) (hunit : u.UnitAt base unit)
    (hs : StandsIn size s a base unit) :
    ∃ code, s.lower u.offsets = .ok code ∧ p.Holds a code := by
  obtain ⟨text, hcode, hholds⟩ := holds_unit hp hunit
  exact Symbolic.holds_of_lowerAll hs hcode hholds

/-- **The two ends of a loop** stand around it. -/
theorem loopAt (hp : u.program = .ok p) (hunit : u.UnitAt base unit)
    {number b : Nat} {label : String}
    (hstart : StandsIn size (.blockStart number label) a base unit)
    (hend : StandsIn size (.blockEnd number label) b base unit)
    (hb : u.offsets.blocks[number]? = some ⟨a, b⟩) : p.LoopAt a b label := by
  obtain ⟨code, hcode, hholds⟩ := holds hp hunit hstart
  obtain ⟨code', hcode', hholds'⟩ := holds hp hunit hend
  rw [Symbolic.lower, hb] at hcode
  rw [Symbolic.lower, hb] at hcode'
  obtain rfl := Except.ok.inj hcode
  obtain rfl := Except.ok.inj hcode'
  exact .of_holds hholds hholds'

namespace OfLinked

/-- **The jumps of a unit** stay in it and keep the brackets that are open. -/
theorem jumps (h : u.OfLinked R codes) (hp : u.program = .ok p)
    (hunit : u.UnitAt base unit) (hle : base ≤ a)
    (hlt : a < base + extent unit) {i : Instruction}
    (hi : p.instructions[a]? = some i)
    (hjump : i.op = .jump ∨ i.op = .condJump) :
    ∃ t outer, i.operand = target t ∧ base ≤ t ∧ t < base + extent unit
      ∧ p.Open base a outer ∧ p.Open base t outer := by
  obtain ⟨text, hcode, hholds⟩ := holds_unit hp hunit
  obtain ⟨plan, c, last, hlinked, hlast, hlower⟩ := h.lowerAll_unit hunit
  obtain rfl := Except.ok.inj (hcode.symm.trans hlower)
  have hextent := Symbolic.length_lowerAll hcode
  rw [List.length_append, Code.length_lower, List.length_singleton] at hextent
  have hstay := hlinked.jumpsStay hholds.left (Program.Open.start p base)
  -- The last instruction is no jump, so the address is one of the code.
  obtain ⟨n, rfl⟩ := Nat.exists_eq_add_of_le hle
  have hn : n < c.size := by
    refine Nat.lt_of_le_of_ne (by omega) fun heq => ?_
    have hend := hholds.right.get (n := 0) rfl
    rw [Code.length_lower, Nat.add_zero, ← heq, hi] at hend
    obtain rfl := Option.some.inj hend
    rcases hlast with hlast | hlast <;> rw [hlast] at hjump <;>
      exact hjump.elim nofun nofun
  have hget := hholds.left.getElem?_eq ((Code.length_lower _ c base).symm ▸ hn)
  obtain ⟨t, outer, ht, hfirst, hle', hopen, htarget⟩ :=
    hstay n i (hget.trans hi) hjump
  exact ⟨t, outer, ht, hfirst, by omega, hopen, htarget⟩

/-- **The table of the program** has the method of a name where it stands. -/
theorem method?_eq (h : u.OfLinked R codes) (hp : u.program = .ok p)
    {m : SymbolicMethod} {b : Nat} (hm : u.MethodAt m b) :
    p.method? m.name = some b := by
  obtain ⟨text, -, -, hmethods⟩ := exists_of_program hp
  rw [Program.method?, hmethods, Entries.find?_ofList]
  refine Entries.find?_of_mem ?_ (List.mem_reverse.mpr ?_)
  · rw [List.map_reverse, List.nodup_reverse, map_fst_methods_offsets]
    exact h.names
  · exact mem_methods_offsets.mpr ⟨m, hm, rfl⟩

/-- **The program of units of linked code links them.** -/
theorem links (h : u.OfLinked R codes) (hp : u.program = .ok p) :
    p.Links u where
  nodup := h.settled.nodup
  names := h.names
  length := by
    obtain ⟨text, hcode, hinstructions, -⟩ := exists_of_program hp
    rw [hinstructions, List.size_toArray]
    exact Symbolic.length_lowerAll hcode
  lowered hunit hs := by
    obtain ⟨code, hcode, hholds⟩ := holds hp hunit hs
    exact ⟨code, hcode, Symbolic.length_lower hcode, hholds⟩
  noted hunit hs := (h.resolves hunit hs).notes
  method hm := ⟨hm.unitAt, h.method?_eq hp hm⟩
  header hunit hs := by
    obtain ⟨b, hend, hb⟩ := h.resolves hunit hs
    exact ⟨b, hend, loopAt hp hunit hs hend hb⟩
  footer hunit hs := by
    obtain ⟨a, hstart, hb⟩ := h.resolves hunit hs
    exact ⟨a, hstart, loopAt hp hunit hstart hs hb⟩
  tests := by
    intro base unit number tags message label a hunit hs n tag hn
    obtain ⟨w, hw, -, -, -, hcases⟩ := h.resolves hunit hs
    obtain ⟨code, hcode, hholds⟩ := holds hp hunit hs
    rw [Symbolic.lower, hw] at hcode
    cases htests : Symbolic.tests label number w.cases tags with
    | error e => simp only [htests] at hcode; cases hcode
    | ok first =>
      simp only [htests] at hcode
      obtain rfl := Except.ok.inj hcode
      obtain ⟨c, hlook, hequal, hcond⟩ := Symbolic.exists_of_tests htests hn
      obtain ⟨before, behind, heq, -⟩ := List.lookup_eq_some_iff.mp hlook
      obtain ⟨delivered, hcase⟩ := hcases (tag, c) (heq ▸ by simp)
      exact ⟨c, delivered, hcase, hholds.left.get hequal, hholds.left.get hcond⟩
  case := by
    intro base unit number tag delivered label c hunit hs
    obtain ⟨w, _, _, _, hw, -, hend, -⟩ := h.resolves hunit hs
    obtain ⟨code, hcode, hholds⟩ := holds hp hunit hs
    rw [Symbolic.lower, hw] at hcode
    obtain rfl := Except.ok.inj hcode
    refine ⟨w.finish, hend, ?_⟩
    cases delivered <;> exact hholds.get (n := 0) rfl
  call := by
    intro base unit name a hunit hs
    obtain ⟨code, hcode, hholds⟩ := holds hp hunit hs
    rw [Symbolic.lower] at hcode
    cases hfind : Entries.find? name u.offsets.methods with
    | none => rw [hfind] at hcode; cases hcode
    | some b =>
      rw [hfind] at hcode
      obtain rfl := Except.ok.inj hcode
      obtain ⟨m, hm, hname⟩ := h.find?_eq_some_iff.mp hfind
      exact ⟨m, b, hm, hname, hholds.get (n := 0) rfl⟩
  jumps hunit hle hlt hi hjump := h.jumps hp hunit hle hlt hi hjump

end OfLinked

end Units

/-! ## Units that are emitted -/

/-- **Units are emitted** for an assembly: the main code numbers its main code
and ends with a halt, and the methods number its methods. -/
structure Units.EmittedFor (u : Units) (a : Assembly) : Prop where
  /-- The code and its numbers. -/
  emitted : ∃ main, u.main = main ++ [.literal ⟨.halt, 0, "end"⟩]
    ∧ Emitted ⟨0, 0⟩ u.numbers (a.main, a.methods) (main, u.methods)
  /-- The messages. -/
  messages : u.messages = a.messages

/-- The code of the units of an assembly. -/
def Assembly.unitCodes (a : Assembly) : List LinkedCode :=
  .seq a.main (.op ⟨.halt, 0, "end"⟩)
    :: a.methods.map fun m => .seq m.code (.op ⟨.return, 0, m.name⟩)

section

variable {writer reader : Schema} {u : Units} {a : Assembly}

/-- **What is emitted for schemas that were read** is emitted for the assembly
that they are compiled by. -/
theorem Units.exists_emittedFor (hw : writer.WellFormed)
    (hr : reader.WellFormed) {budget : Nat}
    (h : Units.ofSchemas budget writer reader = .ok u) :
    ∃ a : Assembly, u.EmittedFor a
      ∧ a.Faithful writer reader (Demand.OfRecords writer reader)
        (mainPlan writer reader)
      ∧ compile writer reader = a.program := by
  have hD := encloses_ofRecords writer reader
  have hshadows := shadows_link (shadows_linkCall hD.body
    (fun d hd => Demand.sound_body hw hr hd) budget) _ hD.main
    (sound_mainPlan hw hr) ⟨0, 0⟩ .empty
  rw [ofSchemas] at h
  cases hlink : (mainPlan writer reader).link (linkCall writer reader budget)
      .empty with
  | error e =>
    rw [hlink] at hshadows
    rw [hshadows] at h
    cases h
  | ok result =>
    obtain ⟨⟨main, methods⟩, registry⟩ := result
    rw [hlink] at hshadows
    obtain ⟨⟨code, methods'⟩, numbers, hemit, hemitted⟩ := hshadows
    rw [hemit] at h
    obtain rfl := Except.ok.inj h
    -- A walk that a limit did not stop is the walk of `compile`.
    have hbound : Assembly.ofPlan writer reader (mainPlan writer reader)
        = .ok ⟨main, methods, registry.messages⟩ := by
      have hraise := link_linkCall_eq (by rw [hlink]; exact nofun)
        (Nat.le_add_right budget
          (writer.recordCount * (reader.recordCount + 1) + 1))
      rw [link_mainPlan_eq hw hr (by omega), hlink] at hraise
      rw [Assembly.ofPlan, StateT.run, hraise]
    have hspec := link_mainPlan hw hr
    rw [hbound] at hspec
    refine ⟨_, ⟨⟨code, rfl, hemitted⟩, rfl⟩, hspec, ?_⟩
    rw [compile_eq, Plan.program, hbound]

namespace Units

/-- The units one after the other. -/
theorem flatten_all (u : Units) :
    u.all.flatten = u.main ++ u.methods.flatMap (·.code) := by
  rw [all, List.flatten_cons, List.flatMap_def]

/-- The halt begins nothing. -/
theorem opened_all {main : List Symbolic}
    (hmain : u.main = main ++ [.literal ⟨.halt, 0, "end"⟩]) :
    opened u.all.flatten = opened (main ++ u.methods.flatMap (·.code)) := by
  rw [flatten_all, hmain, Symbolic.opened_append, Symbolic.opened_append,
    Symbolic.opened_append]
  exact congrArg (· ++ _) (List.append_nil _)

namespace EmittedFor

variable (h : u.EmittedFor a)
include h

/-- No number is given twice. -/
theorem allots : Allots ⟨0, 0⟩ u.numbers (opened u.all.flatten) := by
  obtain ⟨⟨main, hmain, hemitted⟩, -⟩ := h
  rw [opened_all hmain, Symbolic.opened_append]
  exact hemitted.allots

/-- Every number that is given is below the next. -/
theorem below : ∀ x ∈ opened u.all.flatten, x.Below u.numbers := by
  intro x hx
  have hbetween := h.allots.between x hx
  cases x with
  | block number => exact hbetween.2
  | switch number => exact hbetween.2

/-- Methods keep their names. -/
theorem map_name : u.methods.map (·.name) = a.methods.map (·.name) := by
  obtain ⟨⟨main, -, hemitted⟩, -⟩ := h
  refine (List.forall₂_eq_eq_eq (α := String) ▸ ?_ :
    a.methods.map (·.name) = u.methods.map (·.name)).symm
  exact List.forall₂_map_right_iff.mpr (List.forall₂_map_left_iff.mpr
    (hemitted.methods.imp fun _ _ hm => hm.1.symm))

/-- The units number the code of the assembly. -/
theorem numbered : List.Forall₂ Numbered a.unitCodes u.all := by
  obtain ⟨⟨main, hmain, hemitted⟩, -⟩ := h
  refine .cons (hmain ▸ .seq hemitted.code (.op _)) ?_
  refine List.forall₂_map_right_iff.mpr (List.forall₂_map_left_iff.mpr
    (hemitted.methods.imp ?_))
  rintro m s ⟨-, code, hcode, heq⟩
  exact heq ▸ .seq hcode (.op _)

/-- **The offsets of the units are settled.** -/
theorem settled : Symbolic.Settled (.blank u.numbers) u.offsets 0
    u.all.flatten := by
  have hnodup := h.allots.nodup
  have hbelow := h.below
  obtain ⟨⟨main, -, hemitted⟩, -⟩ := h
  have hsettled := Symbolic.settled_blank hnodup hbelow
    ([] ++ Assembly.addresses (extent u.main) a.methods)
  have hoffsets : u.offsets
      = ((Offsets.blank u.numbers).measure 0 u.all.flatten).withMethods
        ([] ++ Assembly.addresses (extent u.main) a.methods) := by
    rw [offsets, Assembly.measureMethods_eq hemitted.methods, flatten_all,
      Offsets.measure_append, Nat.zero_add, Offsets.methods_measure]
    rfl
  rwa [← hoffsets] at hsettled

/-- **Units that are emitted for a faithful assembly** are those of linked
code. -/
theorem ofLinked {D : Demand → Prop} {plan : Plan}
    (ha : a.Faithful writer reader D plan) :
    u.OfLinked (Registered D (a.methods.map (·.name))) a.unitCodes where
  numbered := h.numbered
  settled := h.settled
  names := h.map_name ▸ ha.nodup
  ended := by
    intro code hcode
    rw [h.messages]
    rcases List.mem_cons.mp hcode with rfl | hcode
    · exact ⟨_, _, _, rfl, ha.main, .inl rfl⟩
    · obtain ⟨m, hm, rfl⟩ := List.mem_map.mp hcode
      obtain ⟨d, -, -, hlinked⟩ := ha.method m hm
      exact ⟨_, _, _, rfl, hlinked, .inr rfl⟩
  demands d hd := h.map_name ▸ hd.2

/-- The program of units that are emitted for an assembly is its own. -/
theorem program_eq (hcalls : a.unknownCall? = none) :
    u.program = a.program := by
  have hnodup := h.allots.nodup
  have hbelow := h.below
  obtain ⟨⟨main, hmain, hemitted⟩, hmessages⟩ := h
  rw [opened_all hmain] at hnodup hbelow
  rw [program, hmain, hmessages]
  exact Assembly.symbolicProgram_eq hemitted.code hemitted.methods hnodup hbelow
    hcalls

end EmittedFor

end Units

/-- **Linking places every target where it belongs**, whichever schemas were
read and whatever the limit on methods inside one another. A symbolic
instruction is lowered to as many instructions as its size says. The units that
are emitted for two schemas have a program, it is the program the schemas are
compiled to, and it links the units. -/
theorem Units.ofSchemas_linked {source source' : String}
    (hwriter : Schema.parse source = .ok writer)
    (hreader : Schema.parse source' = .ok reader) {budget : Nat}
    (h : Units.ofSchemas budget writer reader = .ok u) :
    (∀ (o : Offsets) (s : Symbolic) (code : List Instruction),
      s.lower o = .ok code → code.length = s.size)
    ∧ ∃ p, u.program = .ok p ∧ compile writer reader = .ok p ∧ p.Links u := by
  refine ⟨fun o s code => Symbolic.length_lower, ?_⟩
  obtain ⟨a, hemitted, hfaithful, hcompile⟩ := exists_emittedFor
    (Schema.parse_wellFormed hwriter) (Schema.parse_wellFormed hreader) h
  have hcalls := hfaithful.unknownCall?_eq_none
  have hprogram := hemitted.program_eq hcalls
  cases hp : a.program with
  | error e =>
    rw [Assembly.program, hcalls] at hp
    cases hp
  | ok p =>
    rw [hp] at hprogram hcompile
    exact ⟨p, hprogram, hcompile, (hemitted.ofLinked hfaithful).links hprogram⟩

end

/-! ### A record of arrays of records -/

namespace Branching

/-- The document: an array of which each item is null or another record of the
kind. -/
def source : String :=
  "\x7b\"type\":\"record\",\"name\":\"Tree\",\"fields\":["
    ++ "\x7b\"name\":\"leaves\",\"type\":\x7b\"type\":\"array\","
    ++ "\"items\":[\"null\",\"Tree\"]\x7d\x7d]\x7d"

/-- The schema. -/
def schema : Schema where
  root := .named ⟨"Tree", ""⟩
  definitions :=
    [.record ⟨⟨"Tree", ""⟩, [],
      [⟨"leaves", .array (.union [.primitive .null, .named ⟨"Tree", ""⟩]), [],
        none, none⟩], none⟩]
  source := source

theorem parse_source : Schema.parse source = .ok schema := by cbv

/-- The code of the method of the record. -/
def code : List Symbolic :=
  [.literal ⟨.enter, 0, "Tree.leaves"⟩,
    .blockStart 0 "Tree.leaves",
    .literal ⟨.appendArray, 0, "Tree.leaves"⟩,
    .literal ⟨.read, 3, "Tree.leaves[]"⟩,
    .switchStart 0 [0, 1] 1 "Tree.leaves[]",
    .switchCase 0 0 (some 0) "Tree.leaves[]",
    .switchCase 0 1 (some 1) "Tree.leaves[]",
    .literal ⟨.enter, 1, "Tree.leaves[]"⟩,
    .call "record:Tree->Tree",
    .literal ⟨.exit, 0, "Tree.leaves[]"⟩,
    .switchEnd 0,
    .literal ⟨.exit, 0, "Tree.leaves"⟩,
    .blockEnd 0 "Tree.leaves",
    .literal ⟨.exit, 0, "Tree.leaves"⟩,
    .literal ⟨.return, 0, "record:Tree->Tree"⟩]

/-- The units of the record. -/
def units : Units where
  main := [.call "record:Tree->Tree", .literal ⟨.halt, 0, "end"⟩]
  methods := [⟨"record:Tree->Tree", code⟩]
  numbers := ⟨1, 1⟩
  messages :=
    ["written branch of `union[null, Tree]` cannot be read as "
      ++ "`union[null, Tree]`"]

theorem ofSchemas_units : Units.ofSchemas 3 schema schema = .ok units := by
  cbv

end Branching

open Branching in
/-- **A method with a loop, a switch in it and a call of itself**: the loop has
its header at address 3, the test for tag 1 goes behind the leading jump of the
second case, and the call goes to the beginning of the method. -/
theorem Units.ofSchemas_linked_branching :
    Schema.parse source = .ok schema
    ∧ Units.ofSchemas 3 schema schema = .ok units
    ∧ ∃ p, compile schema schema = .ok p ∧ p.Links units
      ∧ (∃ b, p.LoopAt 3 b "Tree.leaves")
      ∧ (∃ c, p.instructions[16]?
        = some ⟨.condJump, target (c + 1), "Tree.leaves[]"⟩)
      ∧ p.instructions[25]? = some ⟨.call, target 2, "record:Tree->Tree"⟩ := by
  obtain ⟨-, p, -, hp, hlinks⟩ :=
    ofSchemas_linked parse_source parse_source ofSchemas_units
  have hmethod : units.MethodAt ⟨"record:Tree->Tree", code⟩ 2 := .here
  have hunit := hmethod.unitAt
  obtain ⟨b, -, hloop⟩ := hlinks.header (a := 3) hunit (.later .here)
  obtain ⟨c, _, -, -, htest⟩ := hlinks.tests (a := 13) hunit
    (.later (.later (.later (.later .here)))) (n := 1) rfl
  obtain ⟨m, b', hm, hname, hcall⟩ := hlinks.call (a := 25) hunit
    (.later (.later (.later (.later (.later (.later (.later
      (.later .here))))))))
  have hb : b' = 2 := by
    have hfirst := (hlinks.method hm).2
    rw [hname, (hlinks.method hmethod).2] at hfirst
    exact (Option.some.inj hfirst).symm
  exact ⟨parse_source, ofSchemas_units, p, hp, hlinks, ⟨b, hloop⟩, ⟨c, htest⟩,
    hb ▸ hcall⟩

end Avro
