import Mathlib
import Avro.Proofs.Decoding.Plans
import Avro.Proofs.Machine.Ending
import Avro.Proofs.Plan.MethodNames

/-!
# Programs deliver what is decoded

The main theorem about compiled programs: a run into the builder of the
reader's root ends as decoding does (`compile_delivers`). The value of the
builder is the decoded value, what is left of the input is what decoding
leaves, and a failure has the cause for which decoding fails.

Nothing is assumed about the input, so the theorem is the one place where
programs are looked at: what is to be said about them is said about `decode`.

A run counts the steps it may take. `Program.Yields` is what a run gives when
it may take enough of them, and there is always such a number
(`Program.Yields.of_ends`).
-/

namespace Avro

namespace Program

variable {σ : Type} {p : Program} {k : Sink σ} {maxDepth : Nat}

variable (p k maxDepth) in
/-- **What a run yields** with every number of steps from some number on. -/
def Yields (input : Input) (state : σ) (o : Outcome σ Unit) : Prop :=
  ∃ enough, ∀ steps, enough ≤ steps →
    p.run k maxDepth steps input state = some o

/-- A level that ends is a run that yields. -/
theorem Yields.of_ends {input : Input} {state : σ} {o : Outcome σ Nat}
    (h : p.Ends k maxDepth 0 0 .blank input state o) :
    p.Yields k maxDepth input state
      ⟨o.result.map fun _ => (), o.input, o.state⟩ := by
  obtain ⟨enough, h⟩ := h
  refine ⟨enough, fun steps hsteps => ?_⟩
  rw [run, runFrom_mono hsteps h]
  rfl

/-- A run that ends yields what it ends with. -/
theorem Yields.of_run {input : Input} {state : σ} {o : Outcome σ Unit}
    {steps : Nat} (h : p.run k maxDepth steps input state = some o) :
    p.Yields k maxDepth input state o := by
  obtain ⟨inner, hinner, rfl⟩ := Option.map_eq_some_iff.mp h
  exact .of_ends ⟨steps, hinner⟩

/-- **A run yields one outcome**, and gives no other with fewer steps. -/
theorem Yields.eq_of_run {input : Input} {state : σ} {o o' : Outcome σ Unit}
    (h : p.Yields k maxDepth input state o) {steps : Nat}
    (h' : p.run k maxDepth steps input state = some o') : o' = o := by
  obtain ⟨enough, h⟩ := h
  obtain ⟨inner, hinner, hmap⟩ := Option.map_eq_some_iff.mp h'
  have hmore := h (max enough steps) (Nat.le_max_left _ _)
  rw [run, runFrom_mono (Nat.le_max_right enough steps) hinner] at hmore
  exact hmap.symm.trans (Option.some.inj hmore)

/-- A run yields no two outcomes. -/
theorem Yields.unique {input : Input} {state : σ} {o o' : Outcome σ Unit}
    (h : p.Yields k maxDepth input state o)
    (h' : p.Yields k maxDepth input state o') : o' = o := by
  obtain ⟨steps, h'⟩ := h'
  exact h.eq_of_run (h' steps (Nat.le_refl _))

/-- A run that its limit does not stop yields the same under every greater
limit. -/
theorem Yields.raise_limit {small great : Nat} (hle : small ≤ great)
    {input : Input} {state : σ} {o : Outcome σ Unit}
    (h : p.Yields k small input state o) :
    o.HitsLimit small ∨ p.Yields k great input state o := by
  obtain ⟨enough, h⟩ := h
  obtain ⟨inner, hinner, hmap⟩ := Option.map_eq_some_iff.mp
    (h enough (Nat.le_refl _))
  rcases Ends.raise_limit hle ⟨enough, hinner⟩ with ⟨e, he, hcause⟩ | hgreat
  · refine .inl ⟨e, ?_, hcause⟩
    rw [← hmap, he]
    rfl
  · right
    rw [← hmap]
    exact .of_ends hgreat

end Program

section

variable {writer reader : Schema} {D : Demand → Prop}

/-- **A compiled program delivers what is decoded.** -/
theorem compile_delivers (hD : Encloses writer reader D)
    (hnames : NamesTellApart D) {p : Program}
    (h : compile writer reader = .ok p) (hfits : p.Fits)
    (hwriter : writer.Fits) (hreader : reader.Fits) (maxDepth : Nat)
    (input : Input) :
    Decoding.Gives
      (decode maxDepth writer reader maxDepth writer.root reader.root maxDepth
        input)
      (fun v left => ∃ s, p.Yields (Builder.sink reader) maxDepth input
          (Builder.fresh reader reader.root) ⟨.ok (), left, s⟩
        ∧ s.value? reader = .ok v)
      (fun cause left => ∃ e s, e.cause = cause
        ∧ p.Yields (Builder.sink reader) maxDepth input
          (Builder.fresh reader reader.root) ⟨.error e, left, s⟩) := by
  obtain ⟨R, address, code, _, hclosed, hp, hlinked, hcode⟩ :=
    compile_realizes hD hnames h hfits
  have hplan : Plan.Delivers reader maxDepth maxDepth
      (Demand.body writer reader) (mainPlan writer reader) reader.root
      (decode maxDepth writer reader maxDepth writer.root reader.root) :=
    Plan.delivers_deliver hwriter hreader hclosed maxDepth _ _ _ hreader.root
      hlinked.accepted maxDepth (Nat.le_refl _)
  have hdelivers := hplan .blank input (Builder.fresh reader reader.root)
    (fun _ => rfl)
  have hends := hp.ends (Builder.sink reader) maxDepth hlinked hcode
    (input, Builder.fresh reader reader.root)
  refine hdelivers.imp (fun v left hdelivers => ?_)
    fun cause left hdelivers => ?_
  · obtain ⟨frame, s, heval, hv⟩ := hdelivers
    rw [heval] at hends
    exact ⟨s, .of_ends hends, hv.value?⟩
  · obtain ⟨s, heval⟩ := hdelivers
    rw [heval] at hends
    obtain ⟨e, hcause, hends⟩ := hends
    exact ⟨e, s, hcause, .of_ends hends⟩

/-- **A program compiled for two schemas that were read**, with everything that
it numbers inside 64 bits and plain names for its methods. -/
structure Compiled (writer reader : Schema) (p : Program) : Prop where
  /-- The writer's schema was read from a document. -/
  writer_read : ∃ source, Schema.parse source = .ok writer
  /-- The reader's schema was read from a document. -/
  reader_read : ∃ source, Schema.parse source = .ok reader
  /-- The program is theirs. -/
  compiled : compile writer reader = .ok p
  /-- Methods are told apart by their names. -/
  plain : PlainNames writer reader
  /-- The writer's schema is numbered. -/
  writer_fits : writer.Fits
  /-- The reader's schema is numbered. -/
  reader_fits : reader.Fits
  /-- The program is numbered. -/
  fits : p.Fits

namespace Compiled

variable {p : Program}

theorem writer_wellFormed (h : Compiled writer reader p) :
    writer.WellFormed :=
  h.writer_read.elim fun _ => Schema.parse_wellFormed

theorem reader_wellFormed (h : Compiled writer reader p) :
    reader.WellFormed :=
  h.reader_read.elim fun _ => Schema.parse_wellFormed

/-- **A compiled program delivers what is decoded.** -/
theorem delivers (h : Compiled writer reader p) (maxDepth : Nat)
    (input : Input) :
    Decoding.Gives
      (decode maxDepth writer reader maxDepth writer.root reader.root maxDepth
        input)
      (fun v left => ∃ s, p.Yields (Builder.sink reader) maxDepth input
          (Builder.fresh reader reader.root) ⟨.ok (), left, s⟩
        ∧ s.value? reader = .ok v)
      (fun cause left => ∃ e s, e.cause = cause
        ∧ p.Yields (Builder.sink reader) maxDepth input
          (Builder.fresh reader reader.root) ⟨.error e, left, s⟩) :=
  compile_delivers (encloses_ofRecords writer reader)
    (h.plain.namesTellApart h.writer_wellFormed h.reader_wellFormed)
    h.compiled h.fits h.writer_fits h.reader_fits maxDepth input

end Compiled

end

/-! ## A pair of schemas

A person whose name is no longer read, whose age has become a long that may be
missing, and who has a new field with a default. -/

namespace Person

/-- The document of the writer's schema. -/
def written : String :=
  "\x7b\"type\":\"record\",\"name\":\"Person\",\"fields\":[" ++
    "\x7b\"name\":\"age\",\"type\":\"int\"\x7d," ++
    "\x7b\"name\":\"name\",\"type\":\"string\"\x7d]\x7d"

/-- The document of the reader's schema. -/
def read : String :=
  "\x7b\"type\":\"record\",\"name\":\"Person\",\"fields\":[" ++
    "\x7b\"name\":\"age\",\"type\":[\"null\",\"long\"]\x7d," ++
    "\x7b\"name\":\"member\",\"type\":\"boolean\",\"default\":true\x7d]\x7d"

/-- The writer's schema. -/
def writer : Schema where
  root := .named ⟨"Person", ""⟩
  definitions :=
    [.record ⟨⟨"Person", ""⟩, [],
      [⟨"age", .primitive .int, [], none, none⟩,
        ⟨"name", .primitive .string, [], none, none⟩], none⟩]
  source := written

/-- The reader's schema. -/
def reader : Schema where
  root := .named ⟨"Person", ""⟩
  definitions :=
    [.record ⟨⟨"Person", ""⟩, [],
      [⟨"age", .union [.primitive .null, .primitive .long], [], none, none⟩,
        ⟨"member", .primitive .boolean, [], some (.bool true), none⟩], none⟩]
  source := read

theorem parse_written : Schema.parse written = .ok writer := by
  have hchars : written.toList = _ :=
    toList_append_eq (toList_append_eq String.toList_ofList
      String.toList_ofList) String.toList_ofList
  rw [Schema.parse, Json.parse, hchars]
  cbv

theorem parse_read : Schema.parse read = .ok reader := by
  have hchars : read.toList = _ :=
    toList_append_eq (toList_append_eq String.toList_ofList
      String.toList_ofList) String.toList_ofList
  rw [Schema.parse, Json.parse, hchars]
  cbv

theorem size_compile : (compile writer reader).map (fun p =>
    (p.instructions.size, p.errors.length)) = .ok (14, 0) := by cbv

/-- The program of the two schemas. -/
theorem exists_compiled : ∃ p, Compiled writer reader p := by
  obtain ⟨p, hp, hsize⟩ := exists_of_map_ok size_compile
  obtain ⟨hsize, hmessages⟩ := Prod.mk.inj hsize
  refine ⟨p, ⟨_, parse_written⟩, ⟨_, parse_read⟩, hp, ?_, ?_, ?_, ?_⟩
  · refine .of_definitions (fun d hd => ?_) (fun d hd => ?_)
    · rw [List.mem_singleton.mp hd]
      have hchars : "Person".toList = _ := String.toList_ofList
      change ¬ ['-', '>'] <:+: "Person".toList
      rw [hchars]
      decide
    · rw [List.mem_singleton.mp hd]
      exact (show "Person" ≠ "_" by simp)
  · exact ⟨trivial, by simp [writer, Definition.Fits, TypeExpr.Fits]⟩
  · exact ⟨trivial, by simp [reader, Definition.Fits, TypeExpr.Fits,
      TypeExpr.AllFit]⟩
  · exact ⟨by omega, by omega⟩

end Person

end Avro
