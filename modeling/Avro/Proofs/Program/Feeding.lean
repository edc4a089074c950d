import Avro.Proofs.Plan.Feeds
import Avro.Proofs.Program.Brackets
import Avro.Proofs.Resolution.Methods

/-!
# What a record is given

A level that runs the method of a record calls the sink of the record for what
the method feeds, in the order of its code, and for nothing else: what is read
besides is quiet (`Program.OwnMethods.here_eq`).

So how often a field is fed can be read off the code. No field is left out. A
written field goes to the field of its own name, and to the first that lists
it as an alias only if there is none of its name; but nothing asks whether a
field receives another written field already. A field is fed once just if all
the names it receives are one (`Plan.recordBody_feeds`). It is fed twice, and
keeps what was written last, if its own name and an alias of it are both
written (`Overwritten.twice`).
-/

namespace Avro

/-! ## Computations that keep the sink -/

namespace Running

variable {σ α β : Type}

/-- **A computation keeps the sink** as it is, also when it fails. -/
def KeepsSink (m : Running σ α) : Prop :=
  ∀ s,
    match m s with
    | .ok _ t | .error _ t => t.2 = s.2

namespace KeepsSink

theorem pure (a : α) : KeepsSink (Pure.pure a : Running σ α) := fun _ => rfl

theorem throw (cause : ExecutionCause) :
    KeepsSink (throw cause : Running σ α) := fun _ => rfl

theorem bind {m : Running σ α} {f : α → Running σ β} (hm : KeepsSink m)
    (hf : ∀ a, KeepsSink (f a)) : KeepsSink (m >>= f) := by
  intro s
  have h := hm s
  cases hr : m s with
  | error cause t =>
    rw [bind_error hr]
    rw [hr] at h
    exact h
  | ok a t =>
    rw [bind_ok hr]
    rw [hr] at h
    have h' := hf a t
    cases hr' : f a t with
    | error cause u => rw [hr'] at h'; exact h'.trans h
    | ok b u => rw [hr'] at h'; exact h'.trans h

theorem reading (m : Read α) :
    KeepsSink (Running.reading m : Running σ α) := by
  intro s
  unfold Running.reading
  cases m s.1 <;> rfl

theorem loopClosed : LoopClosed (σ := σ) KeepsSink :=
  ⟨pure, bind, reading _, throw _⟩

theorem blocks {round : Running σ Unit} (h : KeepsSink round) :
    KeepsSink (Running.blocks round) :=
  fun s => loopClosed.blocksWithin h (s.1.rest.length + 1) s

end KeepsSink

end Running

namespace Plan

open Running (KeepsSink)

variable {σ : Type} {k : Sink σ} {limit : Nat} {body : Demand → Plan}

/-- A quiet plan on a level below keeps the sink. -/
theorem keeps_beneath {below : Option (Plan → Running σ Frame)}
    (hbelow : ∀ run ∈ below, ∀ plan, Quiet plan → KeepsSink (run plan))
    {plan : Plan} (h : Quiet plan) : KeepsSink (beneath limit below plan) := by
  cases below with
  | none => exact .throw _
  | some run => exact .bind (hbelow run rfl plan h) fun _ => .pure _

mutual

/-- **Quiet plans keep the sink**, if methods that drop records are quiet. -/
theorem Quiet.keeps_evalWith (hbody : ∀ w, Quiet (body (.discard w)))
    {below : Option (Plan → Running σ Frame)}
    (hbelow : ∀ run ∈ below, ∀ plan, Quiet plan → KeepsSink (run plan)) :
    ∀ {plan : Plan}, Quiet plan → ∀ frame,
      KeepsSink (evalWith k limit body below plan frame)
  | .nothing, _, frame | .reject _, _, frame => by
    rw [evalWith]
    exact .pure _
  | .seq _ _, h, frame => by
    rw [evalWith]
    exact .bind (h.1.keeps_evalWith hbody hbelow frame)
      fun frame => h.2.keeps_evalWith hbody hbelow frame
  | .op i, h, frame => by
    have hread : i.op = .read := h
    rw [evalWith]
    intro s
    unfold perform step
    rw [hread]
    cases Kind.ofOperand? i.operand with
    | none => rfl
    | some kind => dsimp only; cases frame.read kind s.1 <;> rfl
  | .within _ _ _, h, _ => h.elim
  | .blocks _ inner, h, frame => by
    rw [evalWith]
    exact .bind (.blocks (keeps_beneath hbelow h)) fun _ => .pure _
  | .switch _ message cases, h, frame => by
    rw [evalWith]
    exact AllQuiet.keeps_evalCases hbody hbelow message h frame
  | .call demand, ⟨w, hw⟩, frame => by
    rw [evalWith, hw]
    exact .bind (keeps_beneath hbelow (hbody w)) fun _ => .pure _

theorem AllQuiet.keeps_evalCases (hbody : ∀ w, Quiet (body (.discard w)))
    {below : Option (Plan → Running σ Frame)}
    (hbelow : ∀ run ∈ below, ∀ plan, Quiet plan → KeepsSink (run plan))
    (message : String) : ∀ {cases : PlanCases}, AllQuiet cases → ∀ frame,
      KeepsSink (evalCases k limit body below message cases frame)
  | .none, _, frame => by
    rw [evalCases]
    exact .throw _
  | .case tag _ inner rest, ⟨rfl, hinner, hrest⟩, frame => by
    rw [evalCases]
    refine iteInduction (fun _ => ?_)
      fun _ => hrest.keeps_evalCases hbody hbelow message frame
    exact .bind (.pure _) fun frame => hinner.keeps_evalWith hbody hbelow frame

end

/-- **Quiet plans keep the sink** on every level. -/
theorem Quiet.keeps (hbody : ∀ w, Quiet (body (.discard w))) (levels : Nat) :
    ∀ {plan : Plan}, Quiet plan → ∀ frame,
      KeepsSink (eval k limit body levels plan frame) := by
  induction levels with
  | zero =>
    exact fun h => h.keeps_evalWith hbody fun run hrun => absurd hrun (by simp)
  | succ levels ih =>
    refine fun h => h.keeps_evalWith hbody fun run hrun plan hplan => ?_
    rw [← Option.some.inj hrun]
    exact ih hplan .blank

/-- The methods that drop records are quiet. -/
theorem quiet_body_discard {writer reader : Schema} (w : FullName) :
    Quiet (Demand.body writer reader (.discard w)) := by
  rw [Demand.body]
  split
  · exact discardClosed_quiet.discardBody fun _ _ => trivial
  · trivial

/-! ## Plans that are straight -/

variable {D : Demand → Prop}

mutual

/-- A regular plan is made of the instructions of plans. -/
theorem Regular.uses : ∀ {plan : Plan}, plan.Regular D →
    plan.Uses Instruction.Plain Instruction.Opens D
  | .nothing, _ | .reject _, _ => trivial
  | .op _, h | .call _, h => h
  | .seq _ _, h => ⟨h.1.uses, h.2.uses⟩
  | .within _ _ _, h => ⟨h.1, h.2.uses⟩
  | .blocks _ inner, h => (show Regular D inner from h).uses
  | .switch _ _ cases, h => (show RegularCases D cases from h).uses

theorem RegularCases.uses : ∀ {cases : PlanCases}, RegularCases D cases →
    AllUse Instruction.Plain Instruction.Opens D cases
  | .none, _ => trivial
  | .case _ _ _ _, h => ⟨h.1.uses, h.2.uses⟩

end

variable (D) in
/-- **A plan is straight**: it feeds fields one after another, and what it does
besides is quiet. -/
inductive Straight : Plan → Prop
  /-- What is quiet. -/
  | quiet {plan : Plan} (h : plan.Quiet) : Straight plan
  /-- One plan after another. -/
  | seq {first second : Plan} (h : Straight first) (h' : Straight second) :
    Straight (.seq first second)
  /-- A field that is opened. -/
  | field {opening : Instruction} {label : String} {inner : Plan}
    (h : opening.op = .enter) (hinner : inner.Regular D) :
    Straight (.within opening label inner)
  /-- A field that takes its default. -/
  | default {i : Instruction} (h : i.op = .setDefault) : Straight (.op i)

/-- **The method of a record is straight.** -/
theorem straight_recordBody {writer reader : Schema} (wd rd : RecordType) :
    Straight (Demand.OfRecords writer reader)
      (recordBody writer wd reader rd) := by
  have hwritten : ∀ fields : List Field,
      ∀ plan ∈ writtenFields writer wd reader rd fields,
        Straight (Demand.OfRecords writer reader) plan := by
    intro fields
    induction fields with
    | nil => exact fun plan h => absurd h (by simp [writtenFields])
    | cons wf rest ih =>
      rw [writtenFields]
      refine List.forall_mem_cons.mpr ⟨?_, ih⟩
      cases rd.receivingIndex? wf.name with
      | none => exact .quiet (quiet_discard _ _)
      | some index =>
        dsimp only
        cases rd.fields[index]? with
        | none => exact .quiet trivial
        | some rf =>
          dsimp only [entering]
          split
          · rename_i hnull
            rw [TypeExpr.isNull_iff.mp hnull]
            exact .quiet (quiet_deliver_null _ _)
          · exact .field rfl (regular_deliver _ _ _)
  have hdefaulted : ∀ (written : List Nat) (fields : List Field)
      (first : Nat),
      ∀ plan ∈ defaultedFields reader rd written first fields,
        Straight (Demand.OfRecords writer reader) plan := by
    intro written fields
    induction fields with
    | nil => exact fun first plan h => absurd h (by simp [defaultedFields])
    | cons rf rest ih =>
      intro first
      rw [defaultedFields]
      split
      · exact ih _
      · refine List.forall_mem_cons.mpr ⟨?_, ih _⟩
        unfold defaulted
        split
        · exact .quiet trivial
        · split
          · exact .quiet trivial
          · exact .default rfl
  refine Code.sequence_induction (.quiet trivial) .seq fun plan h => ?_
  exact (List.mem_append.mp h).elim (hwritten _ plan) (hdefaulted _ _ _ plan)

end Plan

/-! ## Calls on the record itself -/

namespace Placed

variable {σ : Type}

/-- **The calls that were made on a sink itself**, and not on parts of it. -/
def here (s : Placed σ) : List SinkCall :=
  (s.calls.filter fun c => c.place = s.place).map (·.call)

/-- A call on the sink itself. -/
theorem here_call {s t : Placed σ} {call : SinkCall}
    (hplace : t.place = s.place)
    (hlatest : t.latest = ⟨s.place, call, none⟩ :: s.latest) :
    t.here = s.here ++ [call] := by
  unfold here calls
  rw [hplace, hlatest]
  simp

/-- **Of a part that was opened, used and ended, the sink itself has received
the opening.** -/
theorem here_part {s child below t : Placed σ} {part : Opening}
    (hchild : child.latest = .opening s.place s.opened part :: s.latest)
    (hplace : child.place = s.next) (hbelow : child.Advances below)
    (ht : t.latest = .ending s.next :: below.latest)
    (hback : t.place = s.place) : t.here = s.here ++ [.enter part] := by
  obtain ⟨-, calls, hcalls, hbrackets⟩ := hbelow
  rw [hplace] at hbrackets
  have hinside : calls.filter (fun c => c.place = s.place) = [] := by
    refine List.filter_eq_nil_iff.mpr fun c hc => ?_
    have hsuffix : s.next <:+ c.place := by
      rcases hbrackets.called c hc with ⟨hc, -⟩ | ⟨i, -, -, hunder⟩
      · exact hc ▸ List.suffix_refl _
      · exact (List.suffix_cons _ _).trans hunder
    refine fun h => absurd hsuffix.length_le ?_
    rw [of_decide_eq_true h, next, List.length_cons]
    omega
  have hnext : s.next ≠ s.place := fun h => absurd (congrArg List.length h)
    (by simp [next])
  have hall : t.calls = s.calls ++ .opening s.place s.opened part
      :: (calls ++ [.ending s.next]) := by
    unfold Placed.calls at hcalls ⊢
    rw [ht, List.reverse_cons, hcalls, hchild, List.reverse_cons]
    simp
  unfold here
  rw [hback, hall]
  simp [hinside, hnext]

end Placed

namespace Plan

open Running (calling)

/-- What the sink of a record hears of a feed. -/
def feedCall : Nat × Option Plan → SinkCall
  | (index, some _) => .enter (.field index)
  | (index, none) => .setDefault index

variable {D : Demand → Prop} {σ : Type} {k : Sink σ} {limit : Nat}
  {body : Demand → Plan}

/-- A field that is opened is one call on the record. -/
theorem here_opened {i : Instruction} (h : i.op = .enter)
    {inner : Running (Placed σ) Unit} (hinner : inner.Brackets)
    {frame f : Frame} {s t : Input × Placed σ}
    (heval : opened k.placed i (do inner; calling k.placed.finalize) frame s
      = .ok f t) :
    ∃ index, address? i.operand = some index ∧ t.2.place = s.2.place
      ∧ t.2.here = s.2.here ++ [.enter (.field index)] := by
  unfold opened step at heval
  rw [h] at heval
  cases haddress : address? i.operand with
  | none =>
    simp only [haddress] at heval
    cases heval
  | some index =>
    refine ⟨index, rfl, ?_⟩
    simp only [haddress] at heval
    rw [show k.placed.enter (.field index) s.2
      = Placed.enter (.field index) (k.enter (.field index)) s.2 from rfl,
      Placed.enter] at heval
    cases hopen : k.enter (.field index) s.2.plain with
    | error e plain =>
      rw [hopen] at heval
      cases heval
    | ok close plain =>
      rw [hopen] at heval
      dsimp only [afterOpening] at heval
      generalize hchild : (⟨plain, s.2.next, 0,
        ⟨s.2.place, .enter (.field index), some s.2.next⟩ :: s.2.latest⟩
          : Placed σ) = child at heval
      have hlatest : child.latest
          = .opening s.2.place s.2.opened (.field index) :: s.2.latest := by
        rw [← hchild]
        rfl
      have hplace : child.place = s.2.next := by rw [← hchild]
      have hbelow := hinner (s.1, child)
      cases hr : inner (s.1, child) with
      | error cause u =>
        rw [Running.bind_error hr] at heval
        cases heval
      | ok _ u =>
        rw [hr] at hbelow
        rw [Running.bind_ok hr] at heval
        have hending : u.2.place = s.2.next := hbelow.1.trans hplace
        dsimp only [calling, Sink.placed, Placed.pass] at heval
        cases hfinal : k.finalize u.2.plain with
        | error e plain' =>
          rw [hfinal] at heval
          cases heval
        | ok _ plain' =>
          rw [hfinal, hending] at heval
          cases heval
          exact ⟨rfl, Placed.here_part hlatest hplace hbelow rfl rfl⟩

/-- **What a straight plan feeds is what the sink itself hears**, whatever
sink it is. -/
theorem Straight.here_eq (hquiet : ∀ w, Quiet (body (.discard w)))
    (hbody : ∀ d, D d → (body d).Regular D) {levels : Nat} {plan : Plan}
    (h : Straight D plan) : ∀ {frame f : Frame} {s t : Input × Placed σ},
      eval k.placed limit body levels plan frame s = .ok f t →
      t.2.place = s.2.place
        ∧ t.2.here = s.2.here ++ plan.feeds.map feedCall := by
  induction h with
  | quiet h =>
    intro frame f s t heval
    have hkeeps : Running.KeepsSink (eval k.placed limit body levels _ frame) :=
      h.keeps hquiet levels frame
    have hsame := hkeeps s
    rw [heval] at hsame
    rw [show t.2 = s.2 from hsame, h.feeds_eq]
    exact ⟨rfl, (List.append_nil _).symm⟩
  | @seq first second _ _ ih ih' =>
    intro frame f s t heval
    rw [eval_eq, evalWith, ← eval_eq] at heval
    cases hr : eval k.placed limit body levels first frame s with
    | error cause u =>
      rw [Running.bind_error hr] at heval
      cases heval
    | ok g u =>
      rw [Running.bind_ok hr] at heval
      obtain ⟨hplace, hhere⟩ := ih hr
      obtain ⟨hplace', hhere'⟩ := ih' heval
      refine ⟨hplace'.trans hplace, ?_⟩
      rw [hhere', hhere, Code.feeds, List.map_append, List.append_assoc]
  | field h hinner =>
    intro frame f s t heval
    rw [eval_eq, evalWith] at heval
    obtain ⟨index, haddress, hplace, hhere⟩ := here_opened h
      (evalClosed_brackets.beneath_evalBelow
        (fun d hd => (hbody d hd).uses) levels hinner.uses) heval
    rw [Code.feeds, if_pos h, haddress]
    exact ⟨hplace, hhere⟩
  | @default i h =>
    intro frame f s t heval
    rw [eval_eq, evalWith, perform] at heval
    unfold step at heval
    rw [h] at heval
    rw [Code.feeds, if_pos h]
    cases haddress : address? i.operand with
    | none =>
      simp only [haddress] at heval
      cases heval
    | some index =>
      simp only [haddress] at heval
      dsimp only [Sink.placed, Placed.pass] at heval
      cases hset : k.setDefault index s.2.plain with
      | error e plain =>
        rw [hset] at heval
        cases heval
      | ok _ plain =>
        rw [hset] at heval
        cases heval
        exact ⟨rfl, Placed.here_call rfl rfl⟩

end Plan

section

variable {writer reader : Schema} {wd rd : RecordType}

/-- **A level that runs the method of a record** calls the sink of the record
for what the method feeds, and for nothing else. -/
theorem Program.OwnMethods.here_eq {p : Program} {address : String → Nat}
    (hp : p.OwnMethods writer reader address) (hfits : p.Fits)
    (hwd : writer.definition? wd.name = some (.record wd))
    (hrd : reader.definition? rd.name = some (.record rd))
    (hrequest : (Demand.deliver wd.name rd.name).Requested writer reader)
    {σ : Type} {k : Sink σ} {maxDepth depth closed : Nat} {frame : Frame}
    {input left : Input} {state state' : Placed σ} (hdepth : depth ≤ maxDepth)
    (h : p.Ends k.placed maxDepth depth
      (address (Demand.deliver wd.name rd.name).methodName) frame input state
      ⟨.ok closed, left, state'⟩) :
    state'.here = state.here
      ++ (Plan.recordBody writer wd reader rd).feeds.map Plan.feedCall := by
  have hrealizes : p.Realizes (Demand.body writer reader)
      (Demand.Requested writer reader) address := ⟨hfits, hp.method⟩
  obtain ⟨code, label, hlinked, hcode⟩ := hp.method _ hrequest
  have hperforms := hrealizes.performs_eval (k := k.placed)
    (show depth + (maxDepth - depth) = maxDepth by omega) hlinked hcode.left
    frame (input, state)
  have hreturn := hcode.right.get (n := 0) rfl
  rw [Code.length_lower, Nat.add_zero] at hreturn
  cases heval : Plan.eval k.placed maxDepth (Demand.body writer reader)
      (maxDepth - depth) ((Demand.deliver wd.name rd.name).body writer reader)
      frame (input, state) with
  | error cause t =>
    rw [heval] at hperforms
    obtain ⟨e, -, hends⟩ := hperforms
    cases h.unique hends
  | ok f t =>
    rw [heval] at hperforms
    obtain rfl : state' = t.2 := by
      cases h.unique (hperforms _ (.close hreturn rfl))
      rfl
    rw [Plan.body_deliver hwd hrd] at heval
    exact ((Plan.straight_recordBody wd rd).here_eq Plan.quiet_body_discard
      (fun d _ => d.body_regular) heval).2

/-! ## Which names a field receives -/

/-- **A field receives its own name**, and an alias that no field has as its
name and none before it lists. -/
theorem RecordType.receivingIndex?_eq_some_iff {index : Nat} {rf : Field}
    (hdistinct : (rd.fields.map (·.name)).Nodup)
    (hrf : rd.fields[index]? = some rf) {name : String} :
    rd.receivingIndex? name = some index ↔
      name = rf.name ∨ (∀ f ∈ rd.fields, f.name ≠ name) ∧ name ∈ rf.aliases
        ∧ ∀ f ∈ rd.fields.take index, name ∉ f.aliases := by
  obtain ⟨hlt, hget⟩ := List.getElem?_eq_some_iff.mp hrf
  have hown : rd.fieldIndex? name = some index ↔ name = rf.name := by
    rw [fieldIndex?, List.findIdx?_eq_some_iff_getElem]
    constructor
    · rintro ⟨_, hname, -⟩
      rw [hget] at hname
      exact (of_decide_eq_true hname).symm
    · rintro rfl
      refine ⟨hlt, by rw [hget]; exact decide_eq_true rfl, fun j hj hname => ?_⟩
      have hindex : index < (rd.fields.map (·.name)).length := by
        simpa using hlt
      have hbefore := hj.trans hindex
      have hsame : (rd.fields.map (·.name))[j]
          = (rd.fields.map (·.name))[index] := by
        simpa [hget] using hname
      exact absurd (hdistinct.getElem_inj_iff.mp hsame) (Nat.ne_of_lt hj)
  have hnone : rd.fieldIndex? name = none ↔ ∀ f ∈ rd.fields, f.name ≠ name := by
    simp [fieldIndex?, List.findIdx?_eq_none_iff]
  have halias : rd.fields.findIdx? (·.aliases.contains name) = some index ↔
      name ∈ rf.aliases ∧ ∀ f ∈ rd.fields.take index, name ∉ f.aliases := by
    rw [List.findIdx?_eq_some_iff_getElem]
    simp only [List.mem_take_iff_getElem, List.contains_iff_mem]
    constructor
    · rintro ⟨_, hmem, hbefore⟩
      rw [hget] at hmem
      refine ⟨hmem, ?_⟩
      rintro _ ⟨j, hj, rfl⟩
      exact hbefore j (lt_min_iff.mp hj).1
    · rintro ⟨hmem, hbefore⟩
      exact ⟨hlt, hget ▸ hmem, fun j hj =>
        hbefore _ ⟨j, lt_min hj (hj.trans hlt), rfl⟩⟩
  rw [receivingIndex?, Option.or_eq_some_iff, hown, hnone, halias]

/-- A list of fields of different names has no more than one if all its names
are one. -/
theorem length_le_one_iff_names : ∀ {fields : List Field},
    (fields.map (·.name)).Nodup →
    (fields.length ≤ 1 ↔
      ∀ f ∈ fields, ∀ f' ∈ fields, f.name = f'.name)
  | [], _ => by simp
  | [f], _ => by simp
  | f :: f' :: rest, h => by
    refine iff_of_false (by simp) fun hall => ?_
    have hne : f.name ∉ (f' :: rest).map (·.name) := (List.nodup_cons.mp h).1
    exact hne (List.mem_map.mpr ⟨f', by simp,
      hall f' (by simp) f (by simp)⟩)

/-- **How often a record is given what.** Every field is fed: by its default
if no written field goes to it, and otherwise, unless it is null, by each that
does, in the order they were written. So it is fed once just if what goes to
it has one name. A written field goes to the field of its name, and to the
first that has it as an alias if there is none. A level that runs the method
calls the sink of the record for just that. -/
theorem Plan.recordBody_feeds
    (hw : ∃ source, Schema.parse source = .ok writer)
    (hr : ∃ source, Schema.parse source = .ok reader) (hfits : reader.Fits)
    (hwd : writer.definition? wd.name = some (.record wd))
    (hrd : reader.definition? rd.name = some (.record rd)) {R : Demand → Prop}
    (h : Plan.Accepted R (Plan.recordBody writer wd reader rd)) :
    (∀ index rf, rd.fields[index]? = some rf →
      (Plan.recordBody writer wd reader rd).feedsAt index
        = (if rd.receivedBy index wd.fields = [] then [none]
          else if rf.type.isNull then []
          else (rd.receivedBy index wd.fields).map fun wf =>
            some (Plan.deliver writer wf.type reader rf.type
              (Plan.fieldLabel rd.name rf.name)))
      ∧ (rf.type.isNull = false →
        (Plan.recordBody writer wd reader rd).feedsAt index ≠ []
        ∧ (((Plan.recordBody writer wd reader rd).feedsAt index).length = 1 ↔
          ∀ wf ∈ rd.receivedBy index wd.fields,
            ∀ wf' ∈ rd.receivedBy index wd.fields, wf.name = wf'.name))
      ∧ ∀ wf ∈ wd.fields, wf ∈ rd.receivedBy index wd.fields ↔
        wf.name = rf.name
        ∨ (∀ f ∈ rd.fields, f.name ≠ wf.name) ∧ wf.name ∈ rf.aliases
          ∧ ∀ f ∈ rd.fields.take index, wf.name ∉ f.aliases)
    ∧ ∀ (p : Program) (address : String → Nat), p.Fits →
      p.OwnMethods writer reader address →
      (Demand.deliver wd.name rd.name).Requested writer reader →
      ∀ (σ : Type) (k : Sink σ) (maxDepth depth closed : Nat) (frame : Frame)
        (input left : Input) (state state' : Placed σ), depth ≤ maxDepth →
        p.Ends k.placed maxDepth depth
          (address (Demand.deliver wd.name rd.name).methodName) frame input
          state ⟨.ok closed, left, state'⟩ →
        state'.here = state.here
          ++ (Plan.recordBody writer wd reader rd).feeds.map Plan.feedCall := by
  have hcount : Countable rd.fields := (hfits.definition? hrd).1
  have hwell : writer.WellFormed := hw.elim fun _ => Schema.parse_wellFormed
  have hwell' : reader.WellFormed := hr.elim fun _ => Schema.parse_wellFormed
  refine ⟨fun index rf hrf => ?_, fun p address hp hown hrequest σ k maxDepth
    depth closed frame input left state state' hdepth hends =>
    hown.here_eq hp hwd hrd hrequest hdepth hends⟩
  have hfeeds := Plan.feedsAt_recordBody hcount hrf h
  refine ⟨hfeeds, fun hnull => ?_, fun wf hwf => ?_⟩
  · have hnames : ((rd.receivedBy index wd.fields).map (·.name)).Nodup :=
      (hwell.distinct hwd).sublist (List.filter_sublist.map _)
    rw [← length_le_one_iff_names hnames, hfeeds, hnull]
    cases hreceived : rd.receivedBy index wd.fields with
    | nil => simp
    | cons wf rest => simp
  · rw [RecordType.receivedBy, List.mem_filter, decide_eq_true_iff,
      RecordType.receivingIndex?_eq_some_iff (hwell'.distinct hrd) hrf]
    exact and_iff_right hwf

end

/-! ## A name and an alias

A reader's field has the name of one written field and another's as an alias.
Both are delivered, and what was written under the name is lost. -/

namespace Overwritten

/-- The document of the writer's schema. -/
def written : String :=
  "\x7b\"type\":\"record\",\"name\":\"R\",\"fields\":[" ++
    "\x7b\"name\":\"a\",\"type\":\"int\"\x7d," ++
    "\x7b\"name\":\"b\",\"type\":\"int\"\x7d]\x7d"

/-- The document of the reader's schema. -/
def read : String :=
  "\x7b\"type\":\"record\",\"name\":\"R\",\"fields\":[" ++
    "\x7b\"name\":\"a\",\"type\":\"int\",\"aliases\":[\"b\"]\x7d]\x7d"

/-- The record that is written. -/
def pair : RecordType :=
  ⟨⟨"R", ""⟩, [], [⟨"a", .primitive .int, [], none, none⟩,
    ⟨"b", .primitive .int, [], none, none⟩], none⟩

/-- The record that is read. -/
def single : RecordType :=
  ⟨⟨"R", ""⟩, [], [⟨"a", .primitive .int, ["b"], none, none⟩], none⟩

/-- The writer's schema. -/
def writer : Schema := ⟨.named ⟨"R", ""⟩, [.record pair], written⟩

/-- The reader's schema. -/
def reader : Schema := ⟨.named ⟨"R", ""⟩, [.record single], read⟩

theorem parse_written : Schema.parse written = .ok writer := by
  have hchars : written.toList = _ :=
    toList_append_eq (toList_append_eq String.toList_ofList
      String.toList_ofList) String.toList_ofList
  rw [Schema.parse, Json.parse, hchars]
  cbv

theorem parse_read : Schema.parse read = .ok reader := by
  have hchars : read.toList = _ :=
    toList_append_eq String.toList_ofList String.toList_ofList
  rw [Schema.parse, Json.parse, hchars]
  cbv

theorem reader_fits : reader.Fits where
  root := trivial
  definition := by
    intro d hd
    obtain rfl := List.mem_singleton.mp hd
    refine ⟨by decide, fun field hfield => ?_⟩
    obtain rfl := List.mem_singleton.mp hfield
    trivial

theorem accepted : Plan.Accepted (fun _ => False)
    (Plan.recordBody writer pair reader single) :=
  have hfield : True ∧ True := ⟨trivial, trivial⟩
  ⟨hfield, hfield⟩

/-- The value that is written. -/
def value : Value := .record [("a", .int 1), ("b", .int 2)]

/-- What a run over its bytes delivers. -/
def run : Option (Program × Outcome Builder Unit) :=
  (compile writer reader).toOption.bind fun p =>
    (p.run (Builder.sink reader) 1000 100
      (Input.ofBytes (writer.encode value).bytes)
      (Builder.fresh reader reader.root)).map fun o => (p, o)

theorem run_delivers : run.any (fun x =>
    (x.2.state.value? reader).toOption.any
      (·.equals (.record [("a", .int 2)]))) = true := by
  decide +kernel

end Overwritten

/-- A field that receives its name and an alias is not fed once. -/
theorem Plan.recordBody_feeds_overwritten :
    (∃ source, Schema.parse source = .ok Overwritten.writer)
    ∧ (∃ source, Schema.parse source = .ok Overwritten.reader)
    ∧ Overwritten.reader.Fits
    ∧ Plan.Accepted (fun _ => False) (Plan.recordBody Overwritten.writer
      Overwritten.pair Overwritten.reader Overwritten.single)
    ∧ ((Plan.recordBody Overwritten.writer Overwritten.pair Overwritten.reader
      Overwritten.single).feedsAt 0).length ≠ 1 := by
  have hwd : Overwritten.writer.definition? Overwritten.pair.name
      = some (.record Overwritten.pair) := rfl
  have hrd : Overwritten.reader.definition? Overwritten.single.name
      = some (.record Overwritten.single) := rfl
  have h := (Plan.recordBody_feeds ⟨_, Overwritten.parse_written⟩
    ⟨_, Overwritten.parse_read⟩ Overwritten.reader_fits hwd hrd
    Overwritten.accepted).1 0 _ rfl
  refine ⟨⟨_, Overwritten.parse_written⟩, ⟨_, Overwritten.parse_read⟩,
    Overwritten.reader_fits, Overwritten.accepted, fun hone => ?_⟩
  have hnames := ((h.2.1 rfl).2.mp hone) _ (List.mem_cons_self) _
    (List.mem_cons_of_mem _ List.mem_cons_self)
  exact absurd hnames (by decide)

/-- **A field is fed twice**, by its own name and by an alias, and what was
written under its own name is lost. -/
theorem Overwritten.twice :
    (∃ source, Schema.parse source = .ok Overwritten.writer)
    ∧ (∃ source, Schema.parse source = .ok Overwritten.reader)
    ∧ Overwritten.single.receivedBy 0 Overwritten.pair.fields
      = Overwritten.pair.fields
    ∧ ((Plan.recordBody Overwritten.writer Overwritten.pair Overwritten.reader
      Overwritten.single).feedsAt 0).length = 2
    ∧ ∃ p o v, compile Overwritten.writer Overwritten.reader = .ok p
      ∧ p.run (Builder.sink Overwritten.reader) 1000 100
        (Input.ofBytes (Overwritten.writer.encode Overwritten.value).bytes)
        (Builder.fresh Overwritten.reader Overwritten.reader.root) = some o
      ∧ o.state.value? Overwritten.reader = .ok v
      ∧ v.equals (.record [("a", .int 2)]) = true := by
  refine ⟨⟨_, Overwritten.parse_written⟩, ⟨_, Overwritten.parse_read⟩,
    rfl, by decide, ?_⟩
  obtain ⟨⟨p, o⟩, hrun, hany⟩ :=
    (Option.any_eq_true _ _).mp Overwritten.run_delivers
  obtain ⟨v, hv, hequals⟩ := (Option.any_eq_true _ _).mp hany
  unfold Overwritten.run at hrun
  obtain ⟨p', hp, hrest⟩ := Option.bind_eq_some_iff.mp hrun
  obtain ⟨o', ho, hpair⟩ := Option.map_eq_some_iff.mp hrest
  obtain ⟨rfl, rfl⟩ := Prod.mk.inj hpair
  exact ⟨p', o', v, toOption_eq_some hp, ho, toOption_eq_some hv, hequals⟩

end Avro
