import Avro.Proofs.Plan.SameSchema
import Avro.Proofs.Program.Termination
import Avro.Proofs.Resolution.Covering
import Avro.Proofs.Resolution.Programs

/-!
# Programs that skip agree with programs that read

A field that the reader does not have is read by other code than a field that
it has. Both must leave the next field where it is, so they must take the same
bytes, although the one delivers nothing and looks at less.

The code of a type is compared on its own, with the methods that it needs
(`Plan.program`). Of a program that delivers a type and a program that discards
it, the second succeeds wherever the first does and leaves the same of the
input (`Plan.discard_agrees`). Its sink may be anything, and is as it was
before, so it has received no call.

There always is a program that discards: discarding a type rejects nothing, if
the names in the type are those of definitions (`Plan.accepted_discard`).
-/

namespace Avro

/-- **The demands that discard records** of the writer. -/
def Demand.Discards (writer : Schema) : Demand → Prop
  | deliver _ _ => False
  | discard w => writer.HasRecord w

namespace Plan

variable {writer reader : Schema}

/-! ## Programs that discard -/

/-- Plans that discard types whose names are defined are accepted. -/
theorem discardClosed_accepted :
    DiscardClosed writer (TypeExpr.NamesIn (writer.definitions.map (·.name)))
      (Accepted (Demand.Discards writer))
      (fun _ => AcceptedAll (Demand.Discards writer)) where
  items h := h
  values h := h
  branches h := TypeExpr.AllNamesIn.mem_branches h
  nothing := trivial
  seq h h' := ⟨h, h'⟩
  read _ _ := trivial
  blocks _ h := h
  switch _ _ h := h
  noCase _ := trivial
  case h h' := ⟨h, h'⟩
  discards h := h
  undefined h hnone := absurd hnone (h.shape?_ne_none)

/-- **Discarding a type rejects nothing.** -/
theorem accepted_discard (t : TypeExpr) (label : String)
    (ht : t.NamesIn (writer.definitions.map (·.name))) :
    Accepted (Demand.Discards writer) (discard writer t label) :=
  discardClosed_accepted.discard t label ht

/-- Demands that discard enclose a plan that discards. -/
theorem encloses_discard (t : TypeExpr) (label : String) :
    EnclosesPlan writer reader (discard writer t label)
      (Demand.Discards writer) where
  ofRecords
    | .deliver _ _, h => h.elim
    | .discard _, h => h
  main := regular_discard (fun _ h => h) t label
  body
    | .deliver _ _, h => h.elim
    | .discard w, h => by
      unfold Demand.body
      dsimp only
      split
      · exact regular_discardBody (fun _ h => h) _
      · trivial

/-- **There is a program that discards a type.** -/
theorem exists_program_discard (reader : Schema) (hs : writer.WellFormed) {t : TypeExpr}
    (ht : t.NamesIn (writer.definitions.map (·.name))) (label : String) :
    ∃ q, (discard writer t label).program writer reader = .ok q := by
  refine program_ok (encloses_discard t label)
    (fun _ => (accepted_discard t label ht).not_rejects) fun d hd _ => ?_
  cases d with
  | deliver w r => exact hd.elim
  | discard w =>
    obtain ⟨r, hr⟩ := hd
    obtain rfl : r.name = w := Schema.definition?_name hr
    have hbody : Accepted (Demand.Discards writer) (discardBody writer r) :=
      discardClosed_accepted.discardBody
        (hs.field r (List.mem_of_find?_eq_some hr))
    rw [body_discard hr]
    exact hbody.not_rejects

/-! ## Runs -/

/-- The program of a plan that delivers: what it reads when it succeeds is
skipped. -/
theorem program_deliver_skips (hwriter : writer.Fits)
    (hnames : NamesTellApart (Demand.OfRecords writer reader))
    {w r : TypeExpr} (hw : w.Fits) {label : String} {p : Program}
    (h : (deliver writer w reader r label).program writer reader = .ok p)
    (hp : p.Fits) {σ : Type} {k : Sink σ} {maxDepth : Nat}
    {input left : Input} {s s' : σ}
    (hrun : p.Yields k maxDepth input s ⟨.ok (), left, s'⟩) :
    skip maxDepth writer maxDepth w maxDepth input = .ok () left := by
  obtain ⟨R, address, code, -, hclosed, hrealizes, hlinked, hcode⟩ :=
    program_realizes_apart (D := Demand.OfRecords writer reader)
      ⟨fun _ h => h, regular_deliver _ _ _, fun d _ => d.body_regular⟩
      hnames h hp
  have hyields := hrealizes.yields k maxDepth hlinked hcode (input, s)
  have hcovered : Covered k maxDepth maxDepth maxDepth
      (Demand.body writer reader) (deliver writer w reader r label)
      (skip maxDepth writer maxDepth w) :=
    covered_deliver hwriter (.of_closed hclosed) w r label hw hlinked.accepted
      (Nat.le_refl _) (Nat.le_refl _)
  have hcovered := hcovered .blank input s ()
  cases hr : eval k maxDepth (Demand.body writer reader) maxDepth
      (deliver writer w reader r label) .blank (input, s) with
  | error cause u =>
    rw [hr] at hyields
    obtain ⟨e, -, hyields⟩ := hyields
    exact absurd (hyields.unique hrun) (by simp)
  | ok frame u =>
    rw [hr] at hyields hcovered
    obtain ⟨-, hleft, -⟩ := Outcome.mk.inj (hyields.unique hrun)
    obtain ⟨_, t', hskip, -⟩ := hcovered
    rw [hleft]
    exact Decoding.eq_ok_of_onInput hskip

/-- The program of a plan that discards: what is skipped is read, and the sink
receives nothing. -/
theorem program_discard_skips (hwriter : writer.Fits)
    (hnames : NamesTellApart (Demand.OfRecords writer reader)) {w : TypeExpr}
    {label : String} {q : Program}
    (h : (discard writer w label).program writer reader = .ok q)
    (hq : q.Fits) {τ : Type} {k : Sink τ} {maxDepth : Nat}
    {input left : Input}
    (hskip : skip maxDepth writer maxDepth w maxDepth input = .ok () left)
    (t : τ) : q.Yields k maxDepth input t ⟨.ok (), left, t⟩ := by
  have hD : EnclosesPlan writer reader (discard writer w label)
      (Demand.Discards writer) := encloses_discard w label
  obtain ⟨R, address, code, -, hclosed, hrealizes, hlinked, hcode⟩ :=
    program_realizes_apart hD (hnames.mono hD.ofRecords) h hq
  have hyields := hrealizes.yields k maxDepth hlinked hcode (input, t)
  have hskips : Skips k maxDepth maxDepth (Demand.body writer reader)
      (discard writer w label) (skip maxDepth writer maxDepth w) :=
    skips_discard hwriter hclosed maxDepth w label maxDepth (Nat.le_refl _)
      hlinked.accepted
  have hskips := hskips .blank input t
  rw [hskip] at hskips
  obtain ⟨frame, heval⟩ := hskips
  rw [heval] at hyields
  exact hyields

/-- **Skipping agrees with reading.** Wherever the code that reads data of a
writer's type and delivers it as a reader's type succeeds, the code that
discards the writer's type succeeds under the same limit, leaves the same of
the input, and makes no call on its sink, whatever the sink is. -/
theorem discard_agrees (hwriter : ∃ source, Schema.parse source = .ok writer)
    (hreader : ∃ source, Schema.parse source = .ok reader)
    (hplain : PlainNames writer reader) (hfits : writer.Fits)
    {w r : TypeExpr} (hw : w.NamesIn (writer.definitions.map (·.name)))
    (hwfits : w.Fits) {label : String} {p : Program}
    (h : (deliver writer w reader r label).program writer reader = .ok p)
    (hp : p.Fits) (label' : String) :
    ∃ q, (discard writer w label').program writer reader = .ok q
      ∧ (q.Fits → ∀ {σ τ : Type} (k : Sink σ) (k' : Sink τ) (maxDepth : Nat)
        (input left : Input) (s s' : σ) (t : τ),
        p.Yields k maxDepth input s ⟨.ok (), left, s'⟩ →
        q.Yields k' maxDepth input t ⟨.ok (), left, t⟩) := by
  have hwell : writer.WellFormed :=
    hwriter.elim fun _ => Schema.parse_wellFormed
  have hwell' : reader.WellFormed :=
    hreader.elim fun _ => Schema.parse_wellFormed
  have hnames := hplain.namesTellApart hwell hwell'
  obtain ⟨q, hq⟩ := exists_program_discard reader hwell hw label'
  refine ⟨q, hq, fun hqfits σ τ k k' maxDepth input left s s' t hrun => ?_⟩
  exact program_discard_skips hfits hnames hq hqfits
    (program_deliver_skips hfits hnames hwfits h hp hrun) t

end Plan

/-! ## A person

A person is written, in front of three bytes, and is discarded by other code
than reads it. -/

namespace Person

theorem size_discard : ((Plan.discard writer writer.root "root").program writer
    reader).map (fun q => (q.instructions.size, q.errors.length))
      = .ok (5, 0) := by cbv

/-- What delivers a person and what discards one leave the three bytes. -/
theorem discard_agrees_ada : ∃ p q,
    (Plan.deliver writer writer.root reader reader.root "root").program writer
      reader = .ok p
    ∧ (Plan.discard writer writer.root "root").program writer reader = .ok q
    ∧ ∃ maxDepth s, p.Yields (Builder.sink reader) maxDepth
        ((Input.ofBytes [1, 2, 3]).prepend (writer.encode ada).bytes)
        (Builder.fresh reader reader.root)
        ⟨.ok (), Input.ofBytes [1, 2, 3], s⟩
      ∧ ∀ {τ : Type} (k' : Sink τ) (t : τ), q.Yields k' maxDepth
        ((Input.ofBytes [1, 2, 3]).prepend (writer.encode ada).bytes) t
        ⟨.ok (), Input.ofBytes [1, 2, 3], t⟩ := by
  obtain ⟨p, hp⟩ := exists_compiled
  obtain ⟨q, hq, hsize⟩ := exists_of_map_ok size_discard
  obtain ⟨hsize, hmessages⟩ := Prod.mk.inj hsize
  have hqfits : q.Fits := ⟨by omega, by omega⟩
  have hprogram : (Plan.deliver writer writer.root reader reader.root
      "root").program writer reader = .ok p := hp.compiled
  obtain ⟨q', hq', hagrees⟩ := Plan.discard_agrees hp.writer_read
    hp.reader_read hp.plain hp.writer_fits hp.writer_wellFormed.root
    hp.writer_fits.root hprogram hp.fits "root"
  obtain rfl : q = q' := Except.ok.inj (hq.symm.trans hq')
  -- under the limit that is needed, the run resolves what was written
  obtain ⟨needed, hneeded⟩ := compile_resolves
    (encloses_ofRecords writer reader)
    (hp.plain.namesTellApart hp.writer_wellFormed hp.reader_wellFormed)
    hp.compiled hp.fits hp.writer_fits hp.reader_fits hp.writer_wellFormed
    ada_conforms ada_fits (Input.ofBytes [1, 2, 3])
  obtain ⟨o, hyields, hresolves⟩ := hneeded needed
  rw [if_neg (Nat.lt_irrefl needed), resolve_ada] at hresolves
  obtain ⟨hok, -, hleft⟩ := hresolves
  obtain ⟨result, left, s⟩ := o
  obtain rfl : result = .ok () := hok
  obtain rfl : left = Input.ofBytes [1, 2, 3] := hleft
  exact ⟨p, q, hprogram, hq, needed, s, hyields, fun k' t =>
    hagrees hqfits _ k' needed _ _ _ s t hyields⟩

end Person

end Avro
