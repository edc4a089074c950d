import Avro.Proofs.Machine.Locality
import Avro.Proofs.Program.Chunks
import Avro.Proofs.Program.Termination

/-!
# Runs over data in a stream

Data of the writer's root type, with something after it, is what a container
file is made of. A run over such data does what a run over the data alone does
(`compile_local`): it makes the same calls on any sink, fails at the same
instruction for the same reason or succeeds with it, and if it succeeds it has
taken the data and nothing else.

Two facts make this up. A run is local, if it does not fail because its input
ends; and over complete data it does not fail so, since a plan is covered by
skipping its type, and skipping takes the data.

The names of methods come in as they do for loops: if methods of one name read
different records (`NamesTellRecords`), a run may take less than the data, or
run into its end.
-/

namespace Avro

variable {writer reader : Schema} {p : Program}

/-- Bytes in front of nothing are all there is. -/
theorem Input.prepend_ofBytes_nil (bytes : List UInt8) :
    (Input.ofBytes []).prepend bytes = Input.ofBytes bytes :=
  congrArg (Input.mk · .endOfInput) (List.append_nil bytes)

/-- Methods read what is asked for, if names tell records apart. -/
theorem NamesTellRecords.readsDemands {body : Demand → Plan}
    {D R : Demand → Prop} (hnames : NamesTellRecords D)
    (hrecords : ∀ d, D d → d.OfRecords writer reader)
    (hbody : ∀ d, ∃ d', (D d → D d') ∧ d'.methodName = d.methodName
      ∧ body d = d'.body writer reader)
    (hR : ∀ d, R d → D d) (haccepted : ∀ d, R d → (body d).Accepted R) :
    Plan.ReadsDemands writer reader body R where
  demand d hd := by
    obtain ⟨d', hd', hname, heq⟩ := hbody d
    have hrequested := hd' (hR d hd)
    exact ⟨d', hrecords d' hrequested, hnames d' d hrequested (hR d hd) hname,
      heq⟩
  accepted := haccepted

/-- **A run over data takes the data or fails inside it**: it leaves nothing if
it succeeds, and does not fail because the data ends. -/
theorem compile_takes (h : compile writer reader = .ok p) (hfits : p.Fits)
    (hwriter : writer.Fits)
    (hnames : NamesTellRecords (Demand.Requested writer reader))
    {bytes : List UInt8} (hdata : writer.Data writer.root bytes) {σ : Type}
    (k : Sink σ) (maxDepth : Nat) (s : σ) :
    ∃ o, p.Yields k maxDepth (Input.ofBytes bytes) s o
      ∧ (o.result = .ok () → o.input = Input.ofBytes [])
      ∧ ¬ o.AtEnd (Input.ofBytes []) := by
  obtain ⟨body, R, address, code, hbody, hR, haccepted, hp, hlinked, hcode⟩ :=
    Plan.program_realizes encloses_requested h hfits
  have hreads := hnames.readsDemands (fun _ hd => hd.ofRecords) hbody hR
    haccepted
  -- Skipping may use as many levels as it needs.
  obtain ⟨enough, htakes⟩ := hdata.takes_skip
  have hskip : skip maxDepth writer (max enough maxDepth) writer.root
      (max enough maxDepth) (Input.ofBytes bytes) = .ok () (Input.ofBytes []) := by
    have htaken := htakes maxDepth (max enough maxDepth) (max enough maxDepth)
      (Nat.le_max_left _ _) (Nat.le_max_left _ _) (Input.ofBytes [])
    rw [Input.prepend_ofBytes_nil] at htaken
    exact htaken
  have hplan : Plan.Covered k maxDepth maxDepth (max enough maxDepth) body
      (mainPlan writer reader)
      (skip maxDepth writer (max enough maxDepth) writer.root) :=
    Plan.covered_deliver hwriter hreads writer.root reader.root "root"
      hwriter.root hlinked.accepted (Nat.le_max_right _ _)
      (Nat.le_max_right _ _)
  have hcovered := hplan .blank (Input.ofBytes bytes) s ()
  have hyields := hp.yields k maxDepth hlinked hcode (Input.ofBytes bytes, s)
  cases hr : Plan.eval k maxDepth body maxDepth (mainPlan writer reader) .blank
      (Input.ofBytes bytes, s) with
  | ok frame t =>
    rw [hr] at hyields
    rw [hr] at hcovered
    obtain ⟨_, t', hm, -⟩ := hcovered
    have hm := Decoding.eq_ok_of_onInput hm
    rw [hskip] at hm
    refine ⟨_, hyields, fun _ => (EStateM.Result.ok.inj hm).2.symm, ?_⟩
    rintro ⟨e, he, -⟩
    exact absurd he (by simp)
  | error cause t =>
    rw [hr] at hyields
    rw [hr] at hcovered
    obtain ⟨e, hcause, hyields⟩ := hyields
    refine ⟨_, hyields, fun hok => absurd hok (by simp), ?_⟩
    rintro ⟨e', he', hend⟩
    obtain rfl := Except.error.inj he'
    obtain ⟨t', hm⟩ := hcovered ⟨.endOfInput, hcause ▸ hend⟩
    have hm := Decoding.eq_error_of_onInput hm
    rw [hskip] at hm
    exact absurd hm (by simp)

/-- **A run over data does the same whatever comes after the data.** -/
theorem compile_local (h : compile writer reader = .ok p) (hfits : p.Fits)
    (hwriter : writer.Fits)
    (hnames : NamesTellRecords (Demand.Requested writer reader))
    {bytes : List UInt8} (hdata : writer.Data writer.root bytes) {σ : Type}
    (k : Sink σ) (maxDepth : Nat) (s : σ) :
    ∃ o, p.Yields k maxDepth (Input.ofBytes bytes) s o
      ∧ ∀ rest : Input, ∃ left,
        p.Yields k maxDepth (rest.prepend bytes) s (o.withInput left)
        ∧ (o.result = .ok () → left = rest) := by
  obtain ⟨o, hyields, hall, hend⟩ :=
    compile_takes h hfits hwriter hnames hdata k maxDepth s
  refine ⟨o, hyields, fun rest => ?_⟩
  have hending : o.input.ending = .endOfInput := hyields.left.2
  have hkept : o.input = (Input.ofBytes []).prepend o.input.rest := by
    rw [Input.prepend_ofBytes_nil, Input.ofBytes, ← hending]
  rw [← Input.prepend_ofBytes_nil bytes] at hyields
  refine ⟨_, hyields.local hkept hend rest, fun hok => ?_⟩
  rw [hall hok]
  rfl

end Avro
