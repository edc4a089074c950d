import Avro.Proofs.Decoding.Discarding
import Avro.Proofs.Plan.MethodNames
import Avro.Proofs.Plan.Requested
import Avro.Proofs.Resolution.Programs

/-!
# Which calls share a method

A method is found by its name, and two demands may have one. They do so in two
ways (`Demand.Collides`): a record is read into one that has the name of the
mark for what is dropped, while it is also dropped; or a full name has an
arrow in it, so that a source ends and a target begins at two places of one
text. No document is refused for such names.

If no two of the demands that a compilation asks for collide, every call
enters the code of its own demand, and the code of what is dropped leaves every
sink alone (`compile_ownMethods`). Otherwise the demand that comes first has
the method, and calls for the other enter it: `Clash` is a pair of schemas for
which a field is overwritten by data that is to be dropped.
-/

namespace Avro

section

variable {writer reader : Schema}

/-! ## Collisions -/

/-- **Two demands collide**: their methods have one name although they are
different. -/
inductive Demand.Collides : Demand → Demand → Prop
  /-- A record is dropped, and read into one that has the name of the mark. -/
  | mark (w : FullName) {r : FullName} : r.text = "_" →
    Collides (.deliver w r) (.discard w)
  /-- An arrow is in a source and in a target. -/
  | arrow {d d' : Demand} (x : String) :
    d'.source = d.source ++ "->" ++ x → d.target = x ++ "->" ++ d'.target →
    Collides d d'

/-- Demands that collide have one name. -/
theorem Demand.Collides.methodName_eq {d d' : Demand} (h : d.Collides d') :
    d.methodName = d'.methodName := by
  cases h with
  | mark w hr => exact methodName_eq_iff.mpr (.inl ⟨rfl, hr⟩)
  | arrow x hs ht => exact methodName_eq_iff.mpr (.inr (.inl ⟨x, hs, ht⟩))

/-- **Different demands have one name just if they collide.** -/
theorem Demand.OfRecords.methodName_eq_iff_collides
    (hwriter : writer.WellFormed) (hreader : reader.WellFormed)
    {d d' : Demand} (hd : d.OfRecords writer reader)
    (hd' : d'.OfRecords writer reader) (hne : d ≠ d') :
    d.methodName = d'.methodName ↔ d.Collides d' ∨ d'.Collides d := by
  constructor
  · intro h
    rcases methodName_eq_iff.mp h with ⟨hs, ht⟩ | ⟨x, hs, ht⟩ | ⟨x, hs, ht⟩
    · rcases hd.eq_of_source_target hwriter hreader hd' hs ht with
        rfl | ⟨w, r, hmark, ⟨rfl, rfl⟩ | ⟨rfl, rfl⟩⟩
      · exact absurd rfl hne
      · exact .inl (.mark w hmark)
      · exact .inr (.mark w hmark)
    · exact .inl (.arrow x hs ht)
    · exact .inr (.arrow x hs ht)
  · rintro (h | h)
    · exact h.methodName_eq
    · exact h.methodName_eq.symm

/-! ## Programs whose methods are their own -/

/-- **Every call of a program enters its own method**: code of the root and of
all demands that are asked for stands where the table of addresses says, and
what it calls is found in this table by the name of the demand. -/
structure Program.OwnMethods (p : Program) (writer reader : Schema)
    (address : String → Nat) : Prop where
  /-- The code of the root. -/
  main : ∃ code, Linked (Demand.Requested writer reader) p.errors
      (mainPlan writer reader) code
    ∧ p.Holds 0 (Code.lower address 0 code ++ [⟨.halt, 0, "end"⟩])
  /-- The code of a demand is that of its own plan. -/
  method : ∀ d : Demand, d.Requested writer reader → ∃ code label,
    Linked (Demand.Requested writer reader) p.errors
      (d.body writer reader) code
    ∧ p.Holds (address d.methodName)
      (Code.lower address (address d.methodName) code
        ++ [⟨.return, 0, label⟩])
  /-- The code of what is dropped does nothing to any sink. -/
  silent : ∀ w, (Demand.discard w).Requested writer reader →
    ∀ (σ : Type) (k : Sink σ) (maxDepth depth : Nat) (frame : Frame)
      (input : Input) (state : σ) (o : Outcome σ Nat), depth ≤ maxDepth →
      p.Ends k maxDepth depth (address (Demand.discard w).methodName) frame
        input state o →
      o.state = state

/-- **The code of a method that drops a record does nothing to the sink.** -/
theorem Program.Realizes.silent {p : Program} {R : Demand → Prop}
    {address : String → Nat} (hfits : writer.Fits)
    (hclosed : ClosedClass writer reader R)
    (hp : p.Realizes (Demand.body writer reader) R address) {w : FullName}
    (hw : R (.discard w)) {σ : Type} {k : Sink σ} {maxDepth depth : Nat}
    {frame : Frame} {input : Input} {state : σ} {o : Outcome σ Nat}
    (hdepth : depth ≤ maxDepth)
    (h : p.Ends k maxDepth depth (address (Demand.discard w).methodName) frame
      input state o) : o.state = state := by
  obtain ⟨r, hr⟩ := hclosed.ofRecords _ hw
  obtain rfl : r.name = w := Schema.definition?_name hr
  obtain ⟨code, label, hlinked, hcode⟩ := hp.method _ hw
  have hbody := hclosed.body _ hw
  have hlevels : depth + (maxDepth - depth) = maxDepth := by omega
  have hperforms := hp.performs_eval (k := k) hlevels hlinked hcode.left frame
    (input, state)
  have hreturn := hcode.right.get (n := 0) rfl
  rw [Code.length_lower, Nat.add_zero] at hreturn
  rw [Plan.body_discard hr] at hbody hperforms
  have hskip : Plan.Skips k maxDepth (maxDepth - depth)
      (Demand.body writer reader) (Plan.discardBody writer r)
      (skipFields (skip maxDepth writer (maxDepth - depth)) r.fields) :=
    Plan.skips_fields (fun wf => Plan.fieldLabel r.name wf.name)
      (fun t label ht => Plan.skips_discard hfits hclosed (maxDepth - depth) t
        label (maxDepth - depth) (Nat.le_refl _) ht) r.fields hbody
  have hskips := hskip frame input state
  cases hread : skipFields (skip maxDepth writer (maxDepth - depth)) r.fields
      (maxDepth - depth) input with
  | ok u left =>
    rw [hread] at hskips
    obtain ⟨frame', heval⟩ := hskips
    rw [heval] at hperforms
    rw [h.unique (hperforms _ (.close hreturn rfl))]
  | error cause left =>
    rw [hread] at hskips
    have heval : Plan.eval k maxDepth (Demand.body writer reader)
        (maxDepth - depth) (Plan.discardBody writer r) frame (input, state)
        = .error cause (left, state) := hskips
    rw [heval] at hperforms
    obtain ⟨e, _, hends⟩ := hperforms
    rw [h.unique hends]

/-- **A program has its own methods** if nothing that is asked for collides,
and only then are methods not shared: two demands have one method just if they
collide. -/
theorem compile_ownMethods (hw : ∃ source, Schema.parse source = .ok writer)
    (hr : ∃ source, Schema.parse source = .ok reader) {p : Program}
    (h : compile writer reader = .ok p) (hfits : p.Fits)
    (hwriter : writer.Fits) :
    (∀ d d' : Demand, d.OfRecords writer reader → d'.OfRecords writer reader →
      d ≠ d' →
      (d.methodName = d'.methodName ↔ d.Collides d' ∨ d'.Collides d))
    ∧ ((∀ d d' : Demand, d.Requested writer reader →
        d'.Requested writer reader → ¬ d.Collides d') →
      ∃ address, p.OwnMethods writer reader address) := by
  have hwell : writer.WellFormed := hw.elim fun _ => Schema.parse_wellFormed
  have hwell' : reader.WellFormed := hr.elim fun _ => Schema.parse_wellFormed
  refine ⟨fun d d' hd hd' hne =>
    hd.methodName_eq_iff_collides hwell hwell' hd' hne, fun hfree => ?_⟩
  have hnames : NamesTellApart (Demand.Requested writer reader) := by
    intro d d' hd hd' heq
    by_contra hne
    rcases (hd.ofRecords.methodName_eq_iff_collides hwell hwell' hd'.ofRecords
      hne).mp heq with hcollides | hcollides
    · exact hfree d d' hd hd' hcollides
    · exact hfree d' d hd' hd hcollides
  obtain ⟨R, address, code, hrequested, hclosed, hp, hlinked, hcode⟩ :=
    compile_realizes encloses_requested hnames h hfits
  have hall : ∀ d : Demand, d.Requested writer reader → R d := by
    intro d hd
    induction hd with
    | main hcalls => exact hlinked.accepted.calls hcalls
    | method _ hcalls ih => exact (hclosed.body _ ih).calls hcalls
  refine ⟨address, ⟨code, hlinked.mono hrequested (List.prefix_refl _), hcode⟩,
    fun d hd => ?_, ?_⟩
  · obtain ⟨code', label, hlinked', hcode'⟩ := hp.method d (hall d hd)
    exact ⟨code', label, hlinked'.mono hrequested (List.prefix_refl _), hcode'⟩
  · intro w hrequest σ k maxDepth depth frame input state o hdepth hends
    exact hp.silent hwriter hclosed (hall _ hrequest) hdepth hends

/-- Plain names do not collide. -/
theorem PlainNames.not_collides (h : PlainNames writer reader) {d d' : Demand}
    (hd : d.OfRecords writer reader) (hd' : d'.OfRecords writer reader) :
    ¬ d.Collides d' := by
  intro hcollides
  cases hcollides with
  | mark w hr => exact h.reader _ hd.2 hr
  | arrow x hs _ => exact h.source hd' (hs ▸ hasArrow_append d.source x)

end

/-- The methods of the program of two schemas with plain names. -/
theorem ownMethods_person : ∃ p, compile Person.writer Person.reader = .ok p
    ∧ ∃ address, p.OwnMethods Person.writer Person.reader address := by
  obtain ⟨p, hp⟩ := Person.exists_compiled
  have h := compile_ownMethods hp.writer_read hp.reader_read hp.compiled
    hp.fits hp.writer_fits
  exact ⟨p, hp.compiled, h.2 fun _ _ hd hd' =>
    hp.plain.not_collides hd.ofRecords hd'.ofRecords⟩

/-! ## Two schemas that clash

A record `X` is read into a record that has the name of the mark, and it is
dropped as well. Both are one method, so the number that is dropped is
delivered into the first field of the record around it. -/

namespace Clash

/-- The document of the writer's schema. -/
def written : String :=
  "\x7b\"type\":\"record\",\"name\":\"W\",\"fields\":[" ++
    "\x7b\"name\":\"n\",\"type\":\"int\"\x7d," ++
    "\x7b\"name\":\"f\",\"type\":\x7b\"type\":\"record\",\"name\":\"X\"," ++
    "\"fields\":[\x7b\"name\":\"a\",\"type\":\"int\"\x7d]\x7d\x7d," ++
    "\x7b\"name\":\"g\",\"type\":\"X\"\x7d]\x7d"

/-- The document of the reader's schema. -/
def read : String :=
  "\x7b\"type\":\"record\",\"name\":\"W\",\"fields\":[" ++
    "\x7b\"name\":\"n\",\"type\":\"int\"\x7d," ++
    "\x7b\"name\":\"f\",\"type\":\x7b\"type\":\"record\",\"name\":\"_\"," ++
    "\"aliases\":[\"X\"]," ++
    "\"fields\":[\x7b\"name\":\"a\",\"type\":\"int\"\x7d]\x7d\x7d]\x7d"

/-- A record with one integer. -/
def single (name : String) (aliases : List FullName) : RecordType :=
  ⟨⟨name, ""⟩, aliases, [⟨"a", .primitive .int, [], none, none⟩], none⟩

/-- The writer's schema. -/
def writer : Schema where
  root := .named ⟨"W", ""⟩
  definitions :=
    [.record ⟨⟨"W", ""⟩, [],
      [⟨"n", .primitive .int, [], none, none⟩,
        ⟨"f", .named ⟨"X", ""⟩, [], none, none⟩,
        ⟨"g", .named ⟨"X", ""⟩, [], none, none⟩], none⟩,
      .record (single "X" [])]
  source := written

/-- The reader's schema. -/
def reader : Schema where
  root := .named ⟨"W", ""⟩
  definitions :=
    [.record ⟨⟨"W", ""⟩, [],
      [⟨"n", .primitive .int, [], none, none⟩,
        ⟨"f", .named ⟨"_", ""⟩, [], none, none⟩], none⟩,
      .record (single "_" [⟨"X", ""⟩])]
  source := read

theorem parse_written : Schema.parse written = .ok writer := by
  have hchars : written.toList = _ :=
    toList_append_eq (toList_append_eq (toList_append_eq (toList_append_eq
      String.toList_ofList String.toList_ofList) String.toList_ofList)
      String.toList_ofList) String.toList_ofList
  rw [Schema.parse, Json.parse, hchars]
  cbv

theorem parse_read : Schema.parse read = .ok reader := by
  have hchars : read.toList = _ :=
    toList_append_eq (toList_append_eq (toList_append_eq (toList_append_eq
      String.toList_ofList String.toList_ofList) String.toList_ofList)
      String.toList_ofList) String.toList_ofList
  rw [Schema.parse, Json.parse, hchars]
  cbv

theorem requested_root :
    (Demand.deliver ⟨"W", ""⟩ ⟨"W", ""⟩).Requested writer reader :=
  .main (by decide)

theorem requested_deliver :
    (Demand.deliver ⟨"X", ""⟩ ⟨"_", ""⟩).Requested writer reader :=
  .method requested_root (by decide)

theorem requested_discard :
    (Demand.discard ⟨"X", ""⟩).Requested writer reader :=
  .method requested_root (by decide)

/-- Three numbers: the first is for `n`, and the last one is dropped. -/
def value : Value :=
  .record [("n", .int 7), ("f", .record [("a", .int 1)]),
    ("g", .record [("a", .int 2)])]

/-- What the value resolves to. -/
def resolved : Value :=
  .record [("n", .int 7), ("f", .record [("a", .int 1)])]

/-- What is delivered. -/
def delivered : Value :=
  .record [("n", .int 2), ("f", .record [("a", .int 1)])]

theorem resolve_value :
    resolve writer reader value writer.root reader.root = .ok resolved := by
  cbv

/-- The run over the bytes of the value. -/
def run : Option (Program × Outcome Builder Unit) :=
  (compile writer reader).toOption.bind fun p =>
    (p.run (Builder.sink reader) 1000 100
      (Input.ofBytes (writer.encode value).bytes)
      (Builder.fresh reader reader.root)).map fun o => (p, o)

theorem run_delivers : run.any (fun x =>
    (x.2.state.value? reader).toOption.any (·.equals delivered)) = true := by
  decide +kernel

end Clash

/-- **Two methods that are one**: both demands are asked for, and the number
that is dropped is delivered. -/
theorem Clash.shared :
    (∃ source, Schema.parse source = .ok Clash.writer)
    ∧ (∃ source, Schema.parse source = .ok Clash.reader)
    ∧ (∃ d d' : Demand, d.Requested Clash.writer Clash.reader
      ∧ d'.Requested Clash.writer Clash.reader ∧ d ≠ d'
      ∧ d.methodName = d'.methodName)
    ∧ ∃ p o v, compile Clash.writer Clash.reader = .ok p
      ∧ p.run (Builder.sink Clash.reader) 1000 100
        (Input.ofBytes (Clash.writer.encode Clash.value).bytes)
        (Builder.fresh Clash.reader Clash.reader.root) = some o
      ∧ o.state.value? Clash.reader = .ok v ∧ v.equals Clash.delivered = true
      ∧ resolve Clash.writer Clash.reader Clash.value Clash.writer.root
        Clash.reader.root = .ok Clash.resolved
      ∧ Clash.delivered.equals Clash.resolved = false := by
  refine ⟨⟨_, Clash.parse_written⟩, ⟨_, Clash.parse_read⟩,
    ⟨_, _, Clash.requested_deliver, Clash.requested_discard, nofun,
      (Demand.Collides.mark _ rfl).methodName_eq⟩, ?_⟩
  obtain ⟨⟨p, o⟩, hrun, hany⟩ := (Option.any_eq_true _ _).mp Clash.run_delivers
  obtain ⟨v, hv, hequals⟩ := (Option.any_eq_true _ _).mp hany
  unfold Clash.run at hrun
  obtain ⟨p', hp, hrest⟩ := Option.bind_eq_some_iff.mp hrun
  obtain ⟨o', ho, hpair⟩ := Option.map_eq_some_iff.mp hrest
  obtain ⟨rfl, rfl⟩ := Prod.mk.inj hpair
  exact ⟨p', o', v, toOption_eq_some hp, ho, toOption_eq_some hv, hequals,
    Clash.resolve_value, by cbv⟩

end Avro
