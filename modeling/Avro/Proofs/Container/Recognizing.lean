import Avro.Proofs.Container.Opening
import Avro.Proofs.Container.Truncation
import Avro.Proofs.Plan.Views

/-!
# Recognizing a container file

A file is no container file if its first four bytes are not the magic bytes.
They are looked at when the run over the header has ended, in the slot that it
has filled, and before anything is said about how the run has ended. That is
sound as long as the run has come past them: whatever goes wrong behind them,
they stay in their slot (`Header.eval_others`).

The run does not come past them if it is not allowed the two levels below its
own that they take. It is then stopped by its limit with the slot still full of
zeros, and a good file is taken for a wrong one (`Reader.start_misjudges`). With
two levels or more the judgement is right (`Reader.start_recognizes`).
-/

namespace Avro

/-! ## The first field of a record -/

namespace Slot

/-- The first field of a record. -/
def firstField : Slot → Option Slot
  | record _ (field :: _) => some field
  | _ => none

/-- Putting back a field behind the first one keeps the first. -/
theorem firstField_set (name : String) (fields : List Slot) (index : Nat)
    (child : Slot) :
    (record name (fields.set (index + 1) child)).firstField
      = (record name fields).firstField := by
  cases fields <;> rfl

end Slot

/-- **A field behind the first one** leaves the first one alone, whatever is
done to it and wherever that stops. -/
theorem Plan.keeps_firstField {index : Nat}
    (hindex : index + 1 < 0x8000000000000000) (label : String)
    (inner : Running Slot Unit) (frame : Frame) :
    (opened Slot.sink ⟨.enter, Int64.ofNat (index + 1), label⟩ inner
      frame).KeepsView Slot.firstField := by
  rintro ⟨input, s⟩
  have haddress : address? (Int64.ofNat (index + 1)) = some (index + 1) :=
    address?_target hindex
  unfold opened
  simp only [step, haddress]
  cases s with
  | record name fields =>
    dsimp only [Slot.sink, Slot.enter]
    cases fields[index + 1]? with
    | none => rfl
    | some child =>
      dsimp only [Sink.accept, afterOpening]
      cases inner (input, child) <;> exact Slot.firstField_set name fields _ _
  | _ => rfl

/-- What fails on the level below fails. -/
theorem Plan.beneath_error {σ : Type} {k : Sink σ} {limit levels : Nat}
    {body : Demand → Plan} {plan : Plan} {cause : ExecutionCause}
    {s t : Input × σ}
    (h : eval k limit body levels plan .blank s = .error cause t) :
    beneath limit (evalBelow k limit body (levels + 1)) plan s
      = .error cause t :=
  Running.bind_error (f := fun _ => Pure.pure ()) h

/-! ## The header that a run leaves -/

namespace Header

/-- The plan of what is behind the magic bytes. -/
def othersPlan : Plan :=
  Code.sequence [fieldPlan 1 "Header.meta" (.blocks "Header.meta" entryPlan),
    fieldPlan 2 "Header.sync" (fixedPlan 16 "Header.sync")]

/-- **A slot of the outline of headers** holds a header, whose magic bytes are
those in its first field. -/
theorem magic_of_outline {s : Slot} (houtline : s.outline = slot.outline)
    {b : List UInt8} (hfirst : s.firstField = some (.fixed b)) :
    (ofSlot s).magic = b := by
  cases s with
  | record name fields =>
    have hfields := (Slot.record.inj houtline).2
    rw [Slot.outlines_eq_map, Slot.outlines_eq_map] at hfields
    obtain ⟨magic, behind, rfl, -, hfields⟩ := List.map_eq_cons_iff.mp hfields
    obtain ⟨metadata, behind, rfl, hmetadata, hfields⟩ :=
      List.map_eq_cons_iff.mp hfields
    obtain ⟨sync, behind, rfl, -, hfields⟩ := List.map_eq_cons_iff.mp hfields
    obtain rfl := List.map_eq_nil_iff.mp hfields
    obtain rfl : magic = .fixed b := Option.some.inj hfirst
    cases metadata with
    | map blank entries => rfl
    | _ => cases hmetadata
  | _ => cases hfirst

section

variable {limit levels : Nat} {body : Demand → Plan}

/-- **What is read behind the magic bytes leaves them where they are**, also if
it fails. -/
theorem eval_others (frame : Frame) :
    (Plan.eval Slot.sink limit body levels othersPlan frame).KeepsView
      Slot.firstField := by
  have hfield : ∀ {index : Nat}, index + 1 < 0x8000000000000000 →
      ∀ (label : String) (plan : Plan) (frame : Frame),
        (Plan.eval Slot.sink limit body levels
          (fieldPlan (index + 1) label plan) frame).KeepsView
            Slot.firstField := by
    intro index hindex label plan frame
    rw [Plan.eval_eq, fieldPlan, Plan.evalWith]
    exact Plan.keeps_firstField hindex label _ frame
  unfold othersPlan Code.sequence
  rw [Plan.eval_seq]
  exact .bind (hfield (by decide) _ _ frame) fun frame =>
    hfield (by decide) _ _ frame

/-- **A run over a header leaves a header.** -/
theorem eval_outline {plan : Plan}
    (h : plan.Uses Instruction.Plain Instruction.Opens (Demand.OfRecords schema schema))
    (frame : Frame) :
    (Plan.eval Slot.sink limit (Demand.body schema schema) levels plan
      frame).KeepsView Slot.outline :=
  (Plan.evalClosed_keepsView Slot.keeps_outline).eval
    (fun d _ => d.body_regular.uses) levels h frame

/-- The method of headers reads the magic bytes, and then the others. -/
theorem body_eq : (Demand.deliver record.name record.name).body schema schema
    = .seq (fieldPlan 0 "Header.magic" (fixedPlan 4 "Header.magic"))
      othersPlan := body_header

/-- **The bytes that come first are in their place** when the method of headers
ends, however it ends, if there are four of them and a level for them. -/
theorem eval_body_magic {front : List UInt8} (hlength : front.length = 4)
    (rest : Input) :
    match Plan.eval Slot.sink limit (Demand.body schema schema) (levels + 1)
        ((Demand.deliver record.name record.name).body schema schema) .blank
        (rest.prepend front, slot) with
    | .ok _ t | .error _ t => (ofSlot t.2).magic = front := by
  have hzeros : front.length = (List.replicate 4 (0 : UInt8)).length := hlength
  obtain ⟨_, hmagic⟩ : ∃ frame, Plan.eval Slot.sink limit
      (Demand.body schema schema) levels (fixedPlan 4 "Header.magic") .blank
      (rest.prepend front, .zeros 4) = .ok frame (rest, .fixed front) :=
    eval_fixed hzeros rfl rfl _ _
  have hfield : Plan.eval Slot.sink limit (Demand.body schema schema)
      (levels + 1) (fieldPlan 0 "Header.magic" (fixedPlan 4 "Header.magic"))
      .blank (rest.prepend front, slot)
      = .ok .blank (rest, filled front [] (List.replicate 16 0)) :=
    Plan.eval_slot_field (by decide) rfl hmagic _ _ _
  have houtline := @eval_outline limit (levels + 1) _
    (Demand.deliver record.name record.name).body_regular.uses .blank
    (rest.prepend front, slot)
  have hothers := @eval_others limit (levels + 1) (Demand.body schema schema)
    .blank (rest, filled front [] (List.replicate 16 0))
  rw [body_eq, Plan.eval_seq_ok hfield] at houtline ⊢
  cases hr : Plan.eval Slot.sink limit (Demand.body schema schema) (levels + 1)
      othersPlan .blank (rest, filled front [] (List.replicate 16 0)) with
  | ok frame t =>
    rw [hr] at houtline hothers
    exact magic_of_outline houtline hothers
  | error cause t =>
    rw [hr] at houtline hothers
    exact magic_of_outline houtline hothers

end

/-- **With fewer than two levels** the run is stopped before the magic bytes,
and its slot is as it was. -/
theorem eval_main_stopped {maxDepth : Nat} (hdepth : maxDepth < 2)
    (input : Input) :
    Plan.eval Slot.sink maxDepth (Demand.body schema schema) maxDepth
        (mainPlan schema schema) .blank (input, slot)
      = .error (.tooDeep (maxDepth + 1) maxDepth) (input, slot) := by
  rw [mainPlan_header]
  match maxDepth, hdepth with
  | 0, _ => rfl
  | 1, _ =>
    have hbody : Plan.eval Slot.sink 1 (Demand.body schema schema) 0
        ((Demand.deliver record.name record.name).body schema schema) .blank
        (input, slot) = .error (.tooDeep 2 1) (input, slot) := by
      rw [body_eq, Plan.eval_seq]
      exact Running.bind_error rfl
    rw [Plan.eval_eq, Plan.evalWith]
    exact Running.bind_error (Running.bind_error hbody)

/-- **With two levels or more** the slot holds the bytes that come first. -/
theorem eval_main_magic (levels : Nat) {front : List UInt8}
    (hlength : front.length = 4) (rest : Input) :
    match Plan.eval Slot.sink (levels + 2) (Demand.body schema schema)
        (levels + 2) (mainPlan schema schema) .blank
        (rest.prepend front, slot) with
    | .ok _ t | .error _ t => (ofSlot t.2).magic = front := by
  have hbody := @eval_body_magic (levels + 2) levels _ hlength rest
  have hmain : Plan.eval Slot.sink (levels + 2) (Demand.body schema schema)
      (levels + 2) (mainPlan schema schema) .blank
      = (do
        Plan.beneath (levels + 2) (Plan.evalBelow Slot.sink (levels + 2)
          (Demand.body schema schema) (levels + 2))
          ((Demand.deliver record.name record.name).body schema schema)
        return .blank) := by
    rw [mainPlan_header, Plan.eval_eq, Plan.evalWith]
  rw [hmain]
  cases hr : Plan.eval Slot.sink (levels + 2) (Demand.body schema schema)
      (levels + 1) ((Demand.deliver record.name record.name).body schema schema)
      .blank (rest.prepend front, slot) with
  | ok frame t =>
    rw [hr] at hbody
    rw [Running.bind_ok (Plan.beneath_ok hr)]
    exact hbody
  | error cause t =>
    rw [hr] at hbody
    rw [Running.bind_error (Plan.beneath_error hr)]
    exact hbody

/-- **The program of headers has an outcome on every input.** It is stopped
before the magic bytes if there are fewer than two levels; otherwise it leaves
the bytes that come first in their place, however it ends. -/
theorem program_recognizes {input : Input} (hfour : 4 ≤ input.rest.length)
    (maxDepth : Nat) : ∃ p o, compile schema schema = .ok p
      ∧ p.Yields Slot.sink maxDepth input slot o
      ∧ (maxDepth < 2 → o.state = slot
        ∧ ∃ e, o.result = .error e
          ∧ e.cause = .tooDeep (maxDepth + 1) maxDepth)
      ∧ (2 ≤ maxDepth → (ofSlot o.state).magic = input.rest.take 4) := by
  obtain ⟨front, rest, hlength, rfl⟩ : ∃ (front : List UInt8) (rest : Input),
      front.length = 4 ∧ input = rest.prepend front :=
    ⟨input.rest.take 4, ⟨input.rest.drop 4, input.ending⟩,
      List.length_take_of_le hfour, by
        rw [Input.prepend, List.take_append_drop]⟩
  have htake : (rest.prepend front).rest.take 4 = front :=
    List.take_left' hlength
  rw [htake]
  obtain ⟨p, hp, hsize⟩ := exists_of_map_ok size_compile
  obtain ⟨hsize, hmessages⟩ := Prod.mk.inj hsize
  obtain ⟨R, address, code, -, -, hrealizes, hlinked, hcode⟩ :=
    compile_realizes (picksItself.encloses wellFormed)
      (Demand.namesTellApart_itself wellFormed) hp ⟨by omega, by omega⟩
  have hyields := hrealizes.yields Slot.sink maxDepth hlinked hcode
    (rest.prepend front, slot)
  rcases Nat.lt_or_ge maxDepth 2 with hdepth | hdepth
  · rw [eval_main_stopped hdepth] at hyields
    obtain ⟨e, hcause, hyields⟩ := hyields
    exact ⟨p, _, hp, hyields, fun _ => ⟨rfl, e, rfl, hcause⟩, fun h => by omega⟩
  · obtain ⟨levels, rfl⟩ : ∃ levels, maxDepth = levels + 2 :=
      ⟨maxDepth - 2, by omega⟩
    have hmagic := eval_main_magic levels hlength rest
    cases hr : Plan.eval Slot.sink (levels + 2) (Demand.body schema schema)
        (levels + 2) (mainPlan schema schema) .blank
        (rest.prepend front, slot) with
    | ok frame t =>
      rw [hr] at hyields hmagic
      exact ⟨p, _, hp, hyields, fun h => by omega, fun _ => hmagic⟩
    | error cause t =>
      rw [hr] at hyields hmagic
      obtain ⟨e, -, hyields⟩ := hyields
      exact ⟨p, _, hp, hyields, fun h => by omega, fun _ => hmagic⟩

end Header

/-! ## Opening -/

namespace Reader

/-- Nothing that is found out behind the header is reported as wrong magic
bytes. -/
theorem ofHeader_ne_badMagic (header : Header) (input : Input)
    (reader : Option Schema) (maxDepth : Nat) :
    ofHeader header input reader maxDepth ≠ .error .badMagic := by
  unfold ofHeader
  simp only [bind, Except.bind, pure, Except.pure, throw, throwThe,
    MonadExceptOf.throw]
  refine iteInduction (motive := fun answer : Except ContainerError Reader =>
    answer ≠ .error .badMagic) (fun _ => nofun) fun _ => ?_
  cases Entries.find? Header.schemaKey header.metadata with
  | none => nofun
  | some bytes =>
    dsimp only
    cases Wire.textOfBytes? bytes with
    | none => nofun
    | some source =>
      dsimp only
      cases Schema.parse source with
      | error e => nofun
      | ok writer =>
        dsimp only [Except.mapError]
        cases compile writer (reader.getD writer) <;> nofun

/-- What a file is answered with when the run over its header has ended. -/
theorem start_of_yields {p : Program}
    (hp : compile Header.schema Header.schema = .ok p) {input : Input}
    {maxDepth : Nat} {o : Outcome Slot Unit}
    (h : p.Yields Slot.sink maxDepth input Header.slot o)
    (reader : Option Schema) :
    ∃ enough, ∀ steps, enough ≤ steps →
      start input reader maxDepth steps = some
        (if (Header.ofSlot o.state).magic ≠ Header.magicBytes then
          .error .badMagic
        else match o.result with
          | .error e => .error (.execution e)
          | .ok () =>
            ofHeader (Header.ofSlot o.state) o.input reader maxDepth) := by
  obtain ⟨enough, hruns⟩ := h
  refine ⟨enough, fun steps hsteps => ?_⟩
  unfold start
  rw [hp]
  exact congrArg (Option.map _) (hruns steps hsteps)

/-- **A file is judged by its magic bytes, if the limit allows two levels.** For
every file of at least four bytes, every reader's schema and every limit:

* Opening it has an answer.
* The answer is that it is no container file exactly if its first four bytes
  are not the magic bytes or the limit is less than two.
* With the magic bytes and two levels, what goes wrong with the header is
  reported as what it is.
* With fewer, the limit has stopped the run, and nobody says so. -/
theorem start_recognizes {input : Input} (hfour : 4 ≤ input.rest.length)
    (reader : Option Schema) (maxDepth : Nat) :
    ∃ p o answer enough, compile Header.schema Header.schema = .ok p
      ∧ p.Yields Slot.sink maxDepth input Header.slot o
      ∧ (∀ steps, enough ≤ steps →
        start input reader maxDepth steps = some answer)
      ∧ (answer = .error .badMagic
        ↔ input.rest.take 4 ≠ Header.magicBytes ∨ maxDepth < 2)
      ∧ (input.rest.take 4 = Header.magicBytes → 2 ≤ maxDepth →
        answer = match o.result with
          | .error e => .error (.execution e)
          | .ok () =>
            ofHeader (Header.ofSlot o.state) o.input reader maxDepth)
      ∧ (maxDepth < 2 → ∃ e, o.result = .error e
        ∧ e.cause = .tooDeep (maxDepth + 1) maxDepth) := by
  obtain ⟨p, o, hp, hyields, hstopped, hmagic⟩ :=
    Header.program_recognizes hfour maxDepth
  obtain ⟨enough, hanswer⟩ := start_of_yields hp hyields reader
  refine ⟨p, o, _, enough, hp, hyields, hanswer, ?_, fun hfront hdepth => ?_,
    fun h => (hstopped h).2⟩
  · rcases Nat.lt_or_ge maxDepth 2 with hdepth | hdepth
    -- The field still has its zeros, whatever the first four bytes are.
    · rw [(hstopped hdepth).1, if_pos (by decide)]
      exact ⟨fun _ => .inr hdepth, fun _ => rfl⟩
    · rw [hmagic hdepth]
      by_cases hgood : input.rest.take 4 = Header.magicBytes
      · rw [if_neg (not_not_intro hgood)]
        refine ⟨fun h => ?_, fun h => ?_⟩
        · cases hr : o.result with
          | error e => rw [hr] at h; cases h
          | ok _ => rw [hr] at h; exact absurd h (ofHeader_ne_badMagic _ _ _ _)
        · rcases h with h | h
          · exact absurd hgood h
          · omega
      · rw [if_pos hgood]
        exact ⟨fun _ => .inl hgood, fun _ => rfl⟩
  · rw [hmagic hdepth, if_neg (not_not_intro hfront)]

end Reader

/-! ### A file without blocks -/

namespace Numbers

/-- A file of numbers that has a header and no blocks. -/
def blockless : Input :=
  Input.ofBytes (schema.headerBytes (List.replicate 16 7))

theorem length_blockless : 4 ≤ blockless.rest.length := by decide +kernel

end Numbers

namespace Reader

/-- Under a limit of two levels the run over the header is stopped behind the
magic bytes, and that is not reported as wrong magic bytes. -/
theorem start_recognizes_numbers :
    4 ≤ Numbers.blockless.rest.length
    ∧ ∃ answer enough, (∀ steps, enough ≤ steps →
        start Numbers.blockless none 2 steps = some answer)
      ∧ answer ≠ .error .badMagic := by
  obtain ⟨_, _, answer, enough, -, -, hanswer, hjudged, -⟩ :=
    start_recognizes Numbers.length_blockless none 2
  refine ⟨Numbers.length_blockless, answer, enough, hanswer, fun h => ?_⟩
  rcases hjudged.mp h with hmagic | hdepth
  · exact hmagic rfl
  · omega

/-- **A good file is taken for a wrong one.** Its first four bytes are the magic
bytes, and under a limit of four levels it is opened. Under a limit of one it is
said to be no container file. -/
theorem start_misjudges :
    Numbers.blockless.rest.take 4 = Header.magicBytes
    ∧ (∃ r enough, ∀ steps, enough ≤ steps →
      start Numbers.blockless none 4 steps = some (.ok r))
    ∧ ∃ enough, ∀ steps, enough ≤ steps →
      start Numbers.blockless none 1 steps = some (.error .badMagic) := by
  have hsource : (utf8 Numbers.schema.source).length < 0x8000000000000000 := by
    decide +kernel
  have hwritten := Header.written_headerBytes hsource
    (List.length_replicate : (List.replicate 16 (7 : UInt8)).length = 16)
  obtain ⟨p, hp, -⟩ := exists_of_map_ok Numbers.size_compile
  obtain ⟨enough, hopened⟩ := @start_header _ _ _ hwritten _ _ p none
    (.inr (Header.find?_writtenBytes _).2) (Header.find?_writtenBytes _).1
    Numbers.parse_source hp _ (Nat.le_refl 4) (Input.ofBytes [])
  rw [Input.prepend, Input.ofBytes, List.append_nil] at hopened
  obtain ⟨q, o, hq, hyields, hstopped, -⟩ :=
    Header.program_recognizes Numbers.length_blockless 1
  obtain ⟨enough', hanswer⟩ := start_of_yields hq hyields none
  rw [(hstopped (by decide)).1, if_pos (by decide)] at hanswer
  exact ⟨rfl, ⟨_, enough, hopened⟩, enough', hanswer⟩

end Reader

end Avro
