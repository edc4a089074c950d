import Avro.Engine.Basic
import Avro.Proofs.Decoding.Programs
import Avro.Proofs.Plan.Alike

/-!
# Keeping programs

An engine that keeps programs answers every call as one that compiles anew
each time, which is what compiling and running answer without an engine
(`Engine.answers_keeping`). A kept program is found by the canonical form of
the writer's schema and the text of the reader's. The text determines the
reader's schema, and the form determines all that compiling sees of the
writer's.

That is so as long as no type of a writer's schema has the name of a primitive
type: a type `int` of the null namespace is written in the canonical form as
the primitive type is, and a kept program is then taken for another one
(`Twins.mistaken`).

What is kept along a sequence of calls is that each program is that of some
pair of schemas with its key (`Engine.Faithful`).
-/

namespace Avro

/-! ## Calls and answers -/

/-- **A call of an engine.** -/
inductive Call
  /-- Compiling a pair of schemas. -/
  | compile (writer reader : Schema)
  /-- Decoding a value, with a number of steps that is enough or not. -/
  | decodeValue (writer reader : Schema) (steps : Nat) (input : Input)

namespace Call

/-- The writer's schema. -/
def writer : Call → Schema
  | compile writer _ | decodeValue writer _ _ _ => writer

/-- The reader's schema. -/
def reader : Call → Schema
  | compile _ reader | decodeValue _ reader _ _ => reader

/-- **What is assumed of a call**: the schemas were read, and no type of the
writer's has the name of a primitive type. -/
structure Admissible (c : Call) : Prop where
  /-- The writer's schema was read. -/
  writer_read : ∃ source, Schema.parse source = .ok c.writer
  /-- The reader's schema was read. -/
  reader_read : ∃ source, Schema.parse source = .ok c.reader
  /-- No type of the writer's has the name of a primitive type. -/
  clear : c.writer.Clear

end Call

/-- **The answer to a call.** -/
inductive Answer
  /-- A program, or why there is none. -/
  | compiled (result : Except EngineError Program)
  /-- A value, or why there is none, and the input that is left; nothing if the
  steps are not enough. -/
  | decoded (result : Option (Except EngineError Value × Input))

/-- **The answer without an engine**: the pair of schemas of the call is
compiled, and the program is run. -/
def Call.direct (maxDepth : Nat) : Call → Answer
  | compile writer reader =>
    .compiled ((Avro.compile writer reader).mapError
      (EngineError.ofCompile · reader.source))
  | decodeValue writer reader steps input =>
    .decoded <|
      match Avro.compile writer reader with
      | .error fault => some (.error (.ofCompile fault reader.source), input)
      | .ok p =>
        (p.run (Builder.sink reader) maxDepth steps input
          (Builder.fresh reader reader.root)).map fun o =>
            ((o.result.mapError EngineError.ofExecution).bind fun _ =>
              (o.state.value? reader).mapError EngineError.ofSink, o.input)

namespace Engine

/-- The answer of an engine. -/
def answer (e : Engine) : Call → Answer
  | .compile writer reader =>
    .compiled ((e.compile writer reader).1.map (·.program))
  | .decodeValue writer reader steps input =>
    .decoded ((e.decodeValue writer reader steps input).map fun given =>
      (given.1, given.2.1))

/-- The engine after a call. -/
def after (e : Engine) (c : Call) : Engine := (e.compile c.writer c.reader).2

/-- **The answers to a sequence of calls.** -/
def answers : Engine → List Call → List Answer
  | _, [] => []
  | e, c :: rest => e.answer c :: (e.after c).answers rest

/-- Decoding a value leaves the engine that compiling leaves. -/
theorem decodeValue_after {e e' : Engine} {writer reader : Schema} {steps : Nat}
    {input left : Input} {result : Except EngineError Value}
    (h : e.decodeValue writer reader steps input = some (result, left, e')) :
    e' = e.after (.decodeValue writer reader steps input) := by
  unfold decodeValue at h
  change e' = (e.compile writer reader).2
  generalize e.compile writer reader = compiled at h ⊢
  obtain ⟨result, e''⟩ := compiled
  cases result with
  | error fault => exact (Prod.mk.inj (Prod.mk.inj (Option.some.inj h)).2).2.symm
  | ok compiled =>
    obtain ⟨⟨ran, behind, built⟩, -, hgiven⟩ := Option.map_eq_some_iff.mp h
    cases ran with
    | error fault => exact (Prod.mk.inj (Prod.mk.inj hgiven).2).2.symm
    | ok u => exact (Prod.mk.inj (Prod.mk.inj hgiven).2).2.symm

/-! ## What is kept -/

/-- **An engine is faithful**: what it keeps under a key is the program of a
pair of schemas with that key. -/
def Faithful (e : Engine) : Prop :=
  ∀ entry ∈ e.kept, ∃ c : Call, c.Admissible
    ∧ entry.1 = key c.writer c.reader
    ∧ Avro.compile c.writer c.reader = .ok entry.2.program

variable {e : Engine} {c c' : Call}

theorem faithful_start (maxDepth : Nat) (keeps : Bool) :
    (start maxDepth keeps).Faithful :=
  fun _ h => absurd h List.not_mem_nil

/-- **Calls with one key are compiled to one program.** -/
theorem compile_eq_of_key (hc : c.Admissible) (hc' : c'.Admissible)
    (hkey : key c.writer c.reader = key c'.writer c'.reader) :
    Avro.compile c.writer c.reader = Avro.compile c'.writer c'.reader := by
  obtain ⟨hform, hsource⟩ := ProgramKey.mk.inj hkey
  obtain ⟨text, hread⟩ := hc.reader_read
  obtain ⟨text', hread'⟩ := hc'.reader_read
  have hreader : c.reader = c'.reader := by
    rw [← Schema.source_of_parse hread, hsource,
      Schema.source_of_parse hread', hread'] at hread
    exact (Except.ok.inj hread).symm
  obtain ⟨_, hwritten⟩ := hc.writer_read
  obtain ⟨_, hwritten'⟩ := hc'.writer_read
  have hcomplete := Schema.parse_complete hwritten
  have hcomplete' := Schema.parse_complete hwritten'
  rw [hreader]
  exact compile_eq_of_alike (Schema.alike_of_canonicalForm
    (Schema.parse_wellFormed hwritten) (Schema.parse_wellFormed hwritten')
    hcomplete hcomplete' hc.clear hc'.clear hform) hcomplete hcomplete'

/-- A program that is found is that of the call. -/
theorem Faithful.kept? (he : e.Faithful) (hc : c.Admissible)
    {compiled : CompiledProgram}
    (h : e.kept? (key c.writer c.reader) = some compiled) :
    Avro.compile c.writer c.reader = .ok compiled.program := by
  obtain ⟨entry, hfound, rfl⟩ := Option.map_eq_some_iff.mp h
  obtain ⟨c', hc', hkey, hprogram⟩ := he entry (List.mem_of_find?_eq_some hfound)
  have hsame : entry.1 = key c.writer c.reader := by
    simpa using List.find?_some hfound
  rw [compile_eq_of_key hc hc' (hsame.symm.trans hkey)]
  exact hprogram

/-- **What a call leaves and gives**: a faithful engine stays faithful, with
its limit, and gives the program of the call, or the reason for there being
none. -/
theorem Faithful.compile (he : e.Faithful) (hc : c.Admissible) :
    (e.after c).Faithful ∧ (e.after c).maxDepth = e.maxDepth
      ∧ (e.compile c.writer c.reader).1.map (·.program)
        = (Avro.compile c.writer c.reader).mapError
          (EngineError.ofCompile · c.reader.source) := by
  unfold after
  rw [Engine.compile]
  cases hfound : if e.keepsPrograms then e.kept? (key c.writer c.reader)
    else none with
  | some compiled =>
    have hkept : e.kept? (key c.writer c.reader) = some compiled := by
      split at hfound
      · exact hfound
      · exact absurd hfound (by simp)
    refine ⟨he, rfl, ?_⟩
    rw [he.kept? hc hkept]
    rfl
  | none =>
    dsimp only
    unfold compileAnew
    cases hprogram : Avro.compile c.writer c.reader with
    | error fault => exact ⟨he, rfl, rfl⟩
    | ok p =>
      refine ⟨fun entry hentry => ?_, rfl, rfl⟩
      dsimp only at hentry
      split at hentry
      · rcases List.mem_cons.mp hentry with rfl | hentry
        · exact ⟨c, hc, rfl, hprogram⟩
        · exact he entry hentry
      · exact he entry hentry

/-- **The answer of a faithful engine.** -/
theorem Faithful.answer (he : e.Faithful) (hc : c.Admissible) :
    e.answer c = c.direct e.maxDepth := by
  obtain ⟨-, hdepth, hprogram⟩ := he.compile hc
  cases c with
  | compile writer reader => exact congrArg Answer.compiled hprogram
  | decodeValue writer reader steps input =>
    refine congrArg Answer.decoded ?_
    unfold decodeValue
    change ((e.compile writer reader).2).maxDepth = e.maxDepth at hdepth
    change (e.compile writer reader).1.map (·.program)
      = (Avro.compile writer reader).mapError _ at hprogram
    generalize e.compile writer reader = compiled at hdepth hprogram ⊢
    obtain ⟨result, e'⟩ := compiled
    dsimp only at hdepth hprogram ⊢
    cases hcompile : Avro.compile writer reader with
    | error fault =>
      rw [hcompile] at hprogram
      cases result with
      | error fault' => rw [Except.error.inj hprogram]; rfl
      | ok compiled => exact absurd hprogram (by simp [Except.map, Except.mapError])
    | ok p =>
      rw [hcompile] at hprogram
      cases result with
      | error fault' => exact absurd hprogram (by simp [Except.map, Except.mapError])
      | ok compiled =>
        obtain rfl : compiled.program = p := Except.ok.inj hprogram
        dsimp only
        rw [decode, hdepth, Option.map_map, Option.map_map]
        refine congrFun (congrArg Option.map (funext fun o => ?_)) _
        obtain ⟨ran, left, built⟩ := o
        cases ran <;> rfl

/-- **The answers of a faithful engine.** -/
theorem Faithful.answers (he : e.Faithful) {calls : List Call}
    (hcalls : ∀ c ∈ calls, c.Admissible) :
    e.answers calls = calls.map (Call.direct e.maxDepth) := by
  induction calls generalizing e with
  | nil => rfl
  | cons c rest ih =>
    have hc := hcalls c List.mem_cons_self
    obtain ⟨hafter, hdepth, -⟩ := he.compile hc
    rw [Engine.answers, List.map_cons, he.answer hc, ih hafter
      fun x hx => hcalls x (List.mem_cons_of_mem _ hx), hdepth]

/-- **Keeping programs changes no answer**: an engine that keeps programs
answers any sequence of calls as one that keeps none, which is as compiling and
running answer without an engine. -/
theorem answers_keeping (maxDepth : Nat) (calls : List Call)
    (hcalls : ∀ c ∈ calls, c.Admissible) :
    (start maxDepth true).answers calls = (start maxDepth false).answers calls
      ∧ (start maxDepth true).answers calls
        = calls.map (Call.direct maxDepth) := by
  have hkeeping := (faithful_start maxDepth true).answers hcalls
  have hanew := (faithful_start maxDepth false).answers hcalls
  exact ⟨hkeeping.trans hanew.symm, hkeeping⟩

end Engine

/-- Compiling a pair, decoding with it twice, and compiling the writer's schema
with itself. -/
def Person.calls : List Call :=
  [.compile Person.writer Person.reader,
    .decodeValue Person.writer Person.reader 1000
      (Input.ofBytes [72, 6, 65, 100, 97]),
    .decodeValue Person.writer Person.reader 1000 (Input.ofBytes [72, 6, 65]),
    .compile Person.writer Person.writer]

/-- The engine keeps two programs for the four calls. -/
theorem Engine.answers_keeping_person :
    (∀ c ∈ Person.calls, c.Admissible)
    ∧ (start 1000 true).answers Person.calls
      = (start 1000 false).answers Person.calls
    ∧ (start 1000 true).answers Person.calls
      = Person.calls.map (Call.direct 1000) := by
  have hclear : Person.writer.Clear := by
    intro d hd p
    rw [List.mem_singleton.mp hd]
    cases p <;> decide
  have hcalls : ∀ c ∈ Person.calls, c.Admissible := by
    unfold Person.calls
    simp only [List.forall_mem_cons]
    exact ⟨⟨⟨_, Person.parse_written⟩, ⟨_, Person.parse_read⟩, hclear⟩,
      ⟨⟨_, Person.parse_written⟩, ⟨_, Person.parse_read⟩, hclear⟩,
      ⟨⟨_, Person.parse_written⟩, ⟨_, Person.parse_read⟩, hclear⟩,
      ⟨⟨_, Person.parse_written⟩, ⟨_, Person.parse_written⟩, hclear⟩,
      fun _ h => absurd h List.not_mem_nil⟩
  exact ⟨hcalls, Engine.answers_keeping 1000 Person.calls hcalls⟩

/-! ## A type with the name of a primitive type

Two records with the name of a primitive type. The field of the first has the
primitive type, that of the second the record itself. -/

namespace Twins

/-- The document of the first schema. -/
def flatText : String :=
  "\x7b\"type\":\"record\",\"name\":\"int\",\"fields\":[" ++
    "\x7b\"name\":\"a\",\"type\":\"int\"\x7d]\x7d"

/-- The document of the second schema. -/
def deepText : String :=
  "\x7b\"type\":\"record\",\"name\":\"int\",\"fields\":[" ++
    "\x7b\"name\":\"a\",\"type\":\".int\"\x7d]\x7d"

/-- A record with a field of a type. -/
def schema (type : TypeExpr) (source : String) : Schema where
  root := .named ⟨"int", ""⟩
  definitions := [.record ⟨⟨"int", ""⟩, [], [⟨"a", type, [], none, none⟩], none⟩]
  source := source

/-- The first schema. -/
def flat : Schema := schema (.primitive .int) flatText

/-- The second schema. -/
def deep : Schema := schema (.named ⟨"int", ""⟩) deepText

theorem parse_flatText : Schema.parse flatText = .ok flat := by
  have hchars : flatText.toList = _ :=
    toList_append_eq String.toList_ofList String.toList_ofList
  rw [Schema.parse, Json.parse, hchars]
  cbv

theorem parse_deepText : Schema.parse deepText = .ok deep := by
  have hchars : deepText.toList = _ :=
    toList_append_eq String.toList_ofList String.toList_ofList
  rw [Schema.parse, Json.parse, hchars]
  cbv

/-- The canonical forms are not the same, but are written in the same way. -/
theorem canonicalForm_eq : deep.canonicalForm = flat.canonicalForm := rfl

theorem size_compile : (compile flat flat).map (·.instructions.size) = .ok 7 := by
  cbv

theorem compile_deep : compile deep flat
    = .error (.incompatible "int" "int" "int.a") := by cbv

end Twins

/-- **A program that is taken for another one**: a pair of schemas that do not
match is compiled, and gives the program of another pair that was compiled
before. -/
theorem Twins.mistaken :
    Schema.parse Twins.flatText = .ok Twins.flat
    ∧ Schema.parse Twins.deepText = .ok Twins.deep
    ∧ ∃ p, compile Twins.flat Twins.flat = .ok p
      ∧ compile Twins.deep Twins.flat
        = .error (.incompatible "int" "int" "int.a")
      ∧ (Engine.start 1000 true).answers
          [.compile Twins.flat Twins.flat, .compile Twins.deep Twins.flat]
        = [.compiled (.ok p), .compiled (.ok p)]
      ∧ (Engine.start 1000 false).answers
          [.compile Twins.flat Twins.flat, .compile Twins.deep Twins.flat]
        = [.compiled (.ok p), .compiled (.error (.ofCompile
            (.incompatible "int" "int" "int.a") Twins.flat.source))] := by
  obtain ⟨p, hp, -⟩ := exists_of_map_ok Twins.size_compile
  have hfail := Twins.compile_deep
  have hkey : Engine.key Twins.deep Twins.flat
      = Engine.key Twins.flat Twins.flat :=
    congrArg (ProgramKey.mk · Twins.flat.source) Twins.canonicalForm_eq
  refine ⟨Twins.parse_flatText, Twins.parse_deepText, p, hp, hfail, ?_, ?_⟩
  · simp [Engine.answers, Engine.answer, Engine.after, Call.writer, Call.reader,
      Engine.compile, Engine.compileAnew, Engine.kept?, Engine.start, hp, hkey,
      Except.map]
  · simp [Engine.answers, Engine.answer, Engine.after, Call.writer, Call.reader,
      Engine.compile, Engine.compileAnew, Engine.start, hp, hfail, Except.map]

end Avro
