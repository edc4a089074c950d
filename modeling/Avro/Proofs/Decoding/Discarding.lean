import Avro.Proofs.Decoding.Loops
import Avro.Proofs.Plan.Compilation
import Avro.Proofs.Plan.Performs
import Avro.Proofs.Value.Conformity

/-!
# What is discarded

A plan that discards reads what `skip` reads, and leaves the sink as it is
(`skips_discard`). The sink is arbitrary: one that keeps a record of its calls
would show that there are none.

The lemmas about reading a kind are used for delivering as well: a kind is
read into a register, and the register then holds the value that
`Kind.readValue` reads (`Frame.read_eq`).
-/

namespace Avro

/-! ## Reading into registers -/

/-- The registers after a value of a kind was read. -/
def Frame.after (frame : Frame) (kind : Kind) (v : Value) : Frame :=
  match kind, v with
  | .unusedLong, _ => frame
  | _, .boolean b => { frame with boolean := b }
  | _, .int n => { frame with int := n }
  | _, .long n => { frame with long := n }
  | _, .float x => { frame with float := x }
  | _, .double x => { frame with double := x }
  | _, .bytes b => { frame with bytes := b }
  | _, .fixed b => { frame with bytes := b }
  | _, .string s => { frame with string := s }
  | _, _ => frame

/-- **A kind is read into its register.** -/
theorem Frame.read_eq (frame : Frame) (kind : Kind) (input : Input) :
    frame.read kind input
      = match kind.readValue input with
        | .ok v left => .ok (frame.after kind v) left
        | .error e left => .error e left := by
  cases kind <;>
    simp only [Frame.read, Kind.readValue, bind, EStateM.bind, pure,
      EStateM.pure] <;>
    first
    | rfl
    | cases Wire.readBoolean input <;> rfl
    | cases Wire.readInt input <;> rfl
    | cases Wire.readLong input <;> rfl
    | cases Wire.readFloat input <;> rfl
    | cases Wire.readDouble input <;> rfl
    | cases Wire.readBytes input <;> rfl
    | cases Wire.readString input <;> rfl
    | cases Wire.take _ input <;> rfl

/-- What a primitive is read as when it is dropped is found again in its
operand. -/
theorem Primitive.operand_dropped (p : Primitive) :
    Kind.ofOperand? p.dropped.operand = some p.dropped := by
  cases p <;> rfl

/-- The size of a fixed is found again in its operand. -/
theorem Kind.ofOperand?_fixed {s : Schema} (hfits : s.Fits) {t : TypeExpr}
    {f : FixedType} (h : s.shape? t = some (.fixed f)) :
    ofOperand? (Kind.fixed f.size).operand = some (.fixed f.size) := by
  refine ofOperand?_operand fun n hn => ?_
  obtain rfl := Kind.fixed.inj hn
  exact hfits.definition? (Schema.shape?_named (d := .fixed f) h).2

namespace Plan

variable {σ : Type} {k : Sink σ} {limit levels : Nat}
  {body : Demand → Plan}

/-- **A plan that reads a kind.** -/
theorem perform_read {kind : Kind}
    (hkind : Kind.ofOperand? kind.operand = some kind) (label : String)
    (frame : Frame) (input : Input) (s : σ) :
    perform k (.read kind label) frame (input, s)
      = match kind.readValue input with
        | .ok v left => .ok (frame.after kind v) (left, s)
        | .error e left => .error (.decode e) (left, s) := by
  simp only [perform, step_read [] k hkind, Frame.read_eq]
  cases kind.readValue input <;> rfl

/-- **A plan that delivers a kind.** -/
theorem perform_set {kind : Kind}
    (hkind : Kind.ofOperand? kind.operand = some kind) (label : String)
    {frame : Frame} {x : Scalar} (hx : frame.delivery kind = .scalar x)
    (input : Input) (s : σ) :
    perform k (.set kind label) frame (input, s)
      = match k.set x s with
        | .ok () s' => .ok (frame.delivered kind) (input, s')
        | .error e s' => .error (.sink e) (input, s') := by
  simp only [perform, step, Instruction.set, hkind, hx]
  cases k.set x s <;> rfl

/-- Evaluating a plan that reads a kind. -/
theorem eval_read {kind : Kind}
    (hkind : Kind.ofOperand? kind.operand = some kind) (label : String)
    (frame : Frame) (input : Input) (s : σ) :
    eval k limit body levels (read kind label) frame (input, s)
      = match kind.readValue input with
        | .ok v left => .ok (frame.after kind v) (left, s)
        | .error e left => .error (.decode e) (left, s) := by
  rw [eval_eq, read, evalWith, perform_read hkind]

/-- **A plan that reads a kind first.** -/
theorem eval_read_seq {kind : Kind}
    (hkind : Kind.ofOperand? kind.operand = some kind) (label : String)
    (rest : Plan) (frame : Frame) (input : Input) (s : σ) :
    eval k limit body levels (.seq (read kind label) rest) frame (input, s)
      = match kind.readValue input with
        | .ok v left =>
          eval k limit body levels rest (frame.after kind v) (left, s)
        | .error e left => .error (.decode e) (left, s) := by
  have hread := @eval_read σ k limit levels body kind hkind label frame input
    s
  rw [eval_eq] at hread ⊢
  rw [evalWith]
  simp only [bind, EStateM.bind, hread]
  cases kind.readValue input <;> rfl

/-- A switch that comes after a long is read. -/
theorem eval_long_switch (label label' message : String) (cases : PlanCases)
    (frame : Frame) (input : Input) (s : σ) :
    eval k limit body levels
        (.seq (read .long label) (.switch label' message cases)) frame
        (input, s)
      = match Wire.readLong input with
        | .ok n left =>
          evalCases k limit body (evalBelow k limit body levels) message cases
            { frame with long := n } (left, s)
        | .error e left => .error (.decode e) (left, s) := by
  rw [eval_read_seq rfl]
  simp only [Kind.readValue, bind, EStateM.bind, eval_eq, evalWith]
  cases Wire.readLong input <;> rfl

/-- A plan that reads a text first. -/
theorem eval_string_seq (label : String) (rest : Plan) (frame : Frame)
    (input : Input) (s : σ) :
    eval k limit body levels (.seq (read .string label) rest) frame (input, s)
      = match Wire.readString input with
        | .ok text left =>
          eval k limit body levels rest { frame with string := text } (left, s)
        | .error e left => .error (.decode e) (left, s) := by
  rw [eval_read_seq rfl]
  simp only [Kind.readValue, bind, EStateM.bind]
  cases Wire.readString input <;> rfl

/-- A switch that comes after a 32-bit integer is read. -/
theorem eval_int_switch (label label' message : String) (cases : PlanCases)
    (frame : Frame) (input : Input) (s : σ) :
    eval k limit body levels
        (.seq (read .intAsLong label) (.switch label' message cases)) frame
        (input, s)
      = match Wire.readInt input with
        | .ok n left =>
          evalCases k limit body (evalBelow k limit body levels) message cases
            { frame with long := Int64.ofInt n.toInt } (left, s)
        | .error e left => .error (.decode e) (left, s) := by
  rw [eval_read_seq rfl]
  simp only [Kind.readValue, bind, EStateM.bind, eval_eq, evalWith]
  cases Wire.readInt input <;> rfl

/-! ## Plans that skip -/

variable (k limit levels body) in
/-- **A plan skips** what a computation reads, and leaves the sink as it
is. -/
def Skips (plan : Plan) (m : Decoding Unit) : Prop :=
  ∀ frame input s, Decoding.Gives (m levels input)
    (fun _ left => ∃ frame', eval k limit body levels plan frame (input, s)
      = .ok frame' (left, s))
    (fun cause left => eval k limit body levels plan frame (input, s)
      = .error cause (left, s))

namespace Skips

variable {first second plan : Plan} {m n : Decoding Unit}

theorem nothing : Skips k limit levels body .nothing (pure ()) := by
  intro frame input s
  exact ⟨frame, by rw [eval_eq, evalWith]; rfl⟩

theorem seq (h : Skips k limit levels body first m)
    (h' : Skips k limit levels body second n) :
    Skips k limit levels body (.seq first second) (do m; n) := by
  intro frame input s
  have heq : eval k limit body levels (.seq first second) frame
      = (do
        let frame ← eval k limit body levels first frame
        eval k limit body levels second frame) := by
    rw [eval_eq, evalWith]
  rw [heq]
  refine (h frame input s).bind (fun _ left hm => ?_)
    fun _ _ hm => Running.bind_error hm
  obtain ⟨frame', hm⟩ := hm
  rw [Running.bind_ok hm]
  exact h' frame' left s

/-- Reading a kind and dropping it. -/
theorem read {kind : Kind}
    (hkind : Kind.ofOperand? kind.operand = some kind) (label : String) :
    Skips k limit levels body (Plan.read kind label) kind.skip := by
  intro frame input s
  rw [eval_read hkind]
  simp only [Kind.skip, Decoding.reading, bind, ReaderT.bind, EStateM.bind]
  cases kind.readValue input with
  | ok v left => exact ⟨_, rfl⟩
  | error e left => rfl

/-- A level below that skips. -/
theorem beneath (h : ∀ l, levels = l + 1 → Skips k limit l body plan m)
    (input : Input) (s : σ) :
    Decoding.Gives (Decoding.deeper limit m levels input)
      (fun _ left =>
        Plan.beneath limit (evalBelow k limit body levels) plan (input, s)
          = .ok () (left, s))
      (fun cause left =>
        Plan.beneath limit (evalBelow k limit body levels) plan (input, s)
          = .error cause (left, s)) := by
  cases levels with
  | zero => rfl
  | succ l =>
    have hbeneath : Plan.beneath limit
        (evalBelow k limit body (l + 1)) plan
        = (do let _ ← eval k limit body l plan .blank) := rfl
    rw [show Decoding.deeper limit m (l + 1) input = m l input from rfl,
      hbeneath]
    exact (h l rfl .blank input s).imp
      (fun _ _ ⟨_, hm⟩ => Running.bind_ok hm)
      fun _ _ hm => Running.bind_error hm

/-- A loop whose rounds skip. -/
theorem blocks (h : ∀ l, levels = l + 1 → Skips k limit l body plan m)
    (label : String) :
    Skips k limit levels body (.blocks label plan)
      (do let _ ← Decoding.blocks limit m) := by
  intro frame input s
  have hloop : Decoding.Gives (Decoding.blocks limit m levels input)
      (fun _ left => ∃ s', Running.blocks (Plan.beneath limit
        (evalBelow k limit body levels) plan) (input, s) = .ok () (left, s')
          ∧ s' = s)
      (fun cause left => ∃ s', Running.blocks (Plan.beneath limit
        (evalBelow k limit body levels) plan) (input, s)
          = .error cause (left, s') ∧ s' = s) := by
    refine Decoding.blocks_follow _ m (fun s' _ => s' = s) (· = s)
      (fun _ _ h => h) ?_ input rfl
    rintro input s' items rfl
    exact (beneath h input s').imp (fun _ _ hb => ⟨s', hb, rfl⟩)
      fun _ _ hb => ⟨s', hb, rfl⟩
  rw [eval_eq, evalWith]
  refine hloop.bind (fun _ left hs => ?_) fun _ left hs => ?_
  · obtain ⟨s', hs, rfl⟩ := hs
    exact ⟨_, Running.bind_ok hs⟩
  · obtain ⟨s', hs, rfl⟩ := hs
    exact Running.bind_error hs

/-- A call of a method that skips. -/
theorem call {demand : Demand}
    (h : ∀ l, levels = l + 1 → Skips k limit l body (body demand) m) :
    Skips k limit levels body (.call demand) (Decoding.deeper limit m) := by
  intro frame input s
  rw [eval_eq, evalWith]
  exact (beneath h input s).imp
    (fun _ _ hb => ⟨frame, Running.bind_ok hb⟩)
    fun _ _ hb => Running.bind_error hb

end Skips

/-! ## Discarding types -/

section

variable {writer : Schema} {R : Demand → Prop} {depth : Nat}
  {record : RecordType → Decoding Unit}

/-- Discarding a primitive. -/
theorem discard_primitive (p : Primitive) (label : String) :
    discard writer (.primitive p) label
      = if p = .null then .nothing else read p.dropped label := by
  cases p <;> rfl

variable (k limit body writer R depth record) in
/-- What is meant for the records that are discarded on the levels below. -/
def SkipsRecords : Prop :=
  ∀ r, writer.definition? r.name = some (.record r) → R (.discard r.name) →
    ∀ l, l < depth → Skips k limit l body (body (.discard r.name)) (record r)

mutual

/-- **A plan that discards a type skips it.** -/
theorem skips_discardWith (hfits : writer.Fits)
    (hrecord : SkipsRecords k limit body writer R depth record) :
    ∀ (t : TypeExpr) (label : String) (levels : Nat), levels ≤ depth →
      Accepted R (discard writer t label) →
      Skips k limit levels body (discard writer t label)
        (skipWith limit writer record t)
  | .primitive p, label, levels, _, _ => by
    rw [discard_primitive, skipWith, Primitive.skip]
    split
    · exact .nothing
    · exact .read p.operand_dropped label
  | .array items, label, levels, hlevels, h => by
    rw [discard] at h ⊢
    rw [skipWith]
    exact .blocks (fun l hl => skips_discardWith hfits hrecord items _ l
      (by omega) h) label
  | .map values, label, levels, hlevels, h => by
    rw [discard] at h ⊢
    rw [skipWith]
    exact .blocks (fun l hl => .seq (.read rfl _)
      (skips_discardWith hfits hrecord values _ l (by omega) h.2)) label
  | .union branches, label, levels, hlevels, h => by
    rw [discard] at h ⊢
    rw [skipWith]
    intro frame input s
    rw [eval_long_switch]
    simp only [bind, ReaderT.bind, EStateM.bind, Decoding.reading]
    cases Wire.readLong input with
    | error e left => rfl
    | ok n left =>
      exact skips_discardCases hfits hrecord label _ levels hlevels branches 0
        h.2 { frame with long := n } left s
  | .named name, label, levels, hlevels, h => by
    rw [discard] at h ⊢
    rw [skipWith]
    cases hs : writer.shape? (.named name) with
    | none => simp only [hs] at h; exact h.elim
    | some shape =>
      simp only [hs] at h ⊢
      cases shape with
      | record r =>
        have hr := (Schema.shape?_named (d := .record r) hs).2
        exact .call fun l hl => hrecord r hr h l (by omega)
      | enum e =>
        have hint : Kind.ofOperand? Kind.int.operand = some .int := rfl
        exact .read hint label
      | fixed f => exact .read (Kind.ofOperand?_fixed hfits hs) label
      | primitive p => exact h.elim
      | array items => exact h.elim
      | map values => exact h.elim
      | union branches => exact h.elim

/-- A plan that discards the branches of a union skips the branch of the
number in the long register. -/
theorem skips_discardCases (hfits : writer.Fits)
    (hrecord : SkipsRecords k limit body writer R depth record)
    (label message : String) (levels : Nat) (hlevels : levels ≤ depth) :
    ∀ (branches : List TypeExpr) (tag : Nat),
      AcceptedAll R (discardCases writer label tag branches) →
      ∀ frame input s, Decoding.Gives
        (skipBranch limit writer record message frame.long tag branches levels
          input)
        (fun _ left => ∃ frame', evalCases k limit body
          (evalBelow k limit body levels) message
          (discardCases writer label tag branches) frame (input, s)
          = .ok frame' (left, s))
        (fun cause left => evalCases k limit body
          (evalBelow k limit body levels) message
          (discardCases writer label tag branches) frame (input, s)
          = .error cause (left, s))
  | [], tag, _, frame, input, s => by
    rw [discardCases, skipBranch, evalCases]
    rfl
  | branch :: rest, tag, h, frame, input, s => by
    rw [discardCases] at h ⊢
    rw [skipBranch, evalCases]
    split
    · have hb := skips_discardWith hfits hrecord branch label levels hlevels
        h.1 { frame with condition := true } input s
      rw [eval_eq] at hb
      exact hb
    · exact skips_discardCases hfits hrecord label message levels hlevels rest
        (tag + 1) h.2 frame input s

end

/-- Fields are skipped one after another. -/
theorem skips_fields {skip : TypeExpr → Decoding Unit} (label : Field → String)
    (hskip : ∀ t label, Accepted R (discard writer t label) →
      Skips k limit levels body (discard writer t label) (skip t)) :
    ∀ fields : List Field,
      Accepted R (Code.sequence (fields.map fun field =>
        discard writer field.type (label field))) →
      Skips k limit levels body (Code.sequence (fields.map fun field =>
        discard writer field.type (label field))) (skipFields skip fields)
  | [], _ => .nothing
  | [field], h => by
    rw [skipFields, skipFields, bind_pure_unit]
    exact hskip field.type (label field) h
  | field :: next :: rest, h =>
    .seq (hskip field.type (label field) h.1)
      (skips_fields label hskip (next :: rest) h.2)

/-- The plan of the method that discards a record. -/
theorem body_discard {reader : Schema} {r : RecordType}
    (hr : writer.definition? r.name = some (.record r)) :
    Demand.body writer reader (.discard r.name) = discardBody writer r := by
  rw [Demand.body, hr]

/-- **Discarding a type skips it**, whatever the sink is. -/
theorem skips_discard {reader : Schema} (hfits : writer.Fits)
    (hclosed : ClosedClass writer reader R) (depth : Nat) :
    ∀ (t : TypeExpr) (label : String) (levels : Nat), levels ≤ depth →
      Accepted R (discard writer t label) →
      Skips k limit levels (Demand.body writer reader)
        (discard writer t label) (skip limit writer depth t) := by
  induction depth with
  | zero =>
    exact skips_discardWith hfits fun r _ _ l hl => absurd hl (Nat.not_lt_zero l)
  | succ depth ih =>
    refine skips_discardWith hfits fun r hr hdemand l hl => ?_
    have hbody := hclosed.body _ hdemand
    rw [body_discard hr] at hbody ⊢
    exact skips_fields (fun wf => fieldLabel r.name wf.name)
      (fun t label h => ih t label l (by omega) h) r.fields hbody

end

end Plan

end Avro
