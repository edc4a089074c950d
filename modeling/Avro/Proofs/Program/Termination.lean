import Avro.Proofs.Decoding.Programs

/-!
# Every run ends

A compiled program is finite, but it calls itself and jumps back, and much of
what it repeats reads nothing: a record may contain itself and no other data,
and a block may announce any number of nulls. No one quantity gets smaller
with every instruction.

What a program does is what its plan does, and the evaluation of a plan is
total by its structure: it recurses on the levels that the limit still allows,
within a level on the plan, and in a loop on the bytes that are left and, in a
block, on the number of items. So a run ends because evaluation has a result
(`Program.Realizes.yields`), whatever the sink does and whatever the input is
(`compile_terminates`).

Nothing is asked of names here. Methods that share a name share one plan, and
that plan has a result as well.
-/

namespace Avro

namespace Program

variable {σ : Type} {p : Program} {k : Sink σ} {maxDepth : Nat}
  {body : Demand → Plan} {R : Demand → Prop} {address : String → Nat}

variable (k maxDepth) in
/-- **A run yields what evaluation of its plan gives.** -/
theorem Realizes.yields (hp : p.Realizes body R address) {plan : Plan}
    {code : LinkedCode} {label : String}
    (hlinked : Linked R p.errors plan code)
    (hcode : p.Holds 0 (Code.lower address 0 code ++ [⟨.halt, 0, label⟩]))
    (s : Input × σ) :
    match Plan.eval k maxDepth body maxDepth plan .blank s with
    | .ok _ t => p.Yields k maxDepth s.1 s.2 ⟨.ok (), t.1, t.2⟩
    | .error cause t => ∃ e : ExecutionError, e.cause = cause
        ∧ p.Yields k maxDepth s.1 s.2 ⟨.error e, t.1, t.2⟩ := by
  have hends := hp.ends k maxDepth hlinked hcode s
  cases hr : Plan.eval k maxDepth body maxDepth plan .blank s with
  | ok frame t =>
    rw [hr] at hends
    exact .of_ends hends
  | error cause t =>
    rw [hr] at hends
    obtain ⟨e, hcause, hends⟩ := hends
    exact ⟨e, hcause, .of_ends hends⟩

end Program

section

variable {writer reader : Schema} {p : Program}

/-- **The runs of the program of a plan end.** -/
theorem Plan.program_terminates {plan : Plan} {D : Demand → Prop}
    (hD : EnclosesPlan writer reader plan D)
    (h : plan.program writer reader = .ok p) (hfits : p.Fits) {σ : Type}
    (k : Sink σ) (maxDepth : Nat) (input : Input) (state : σ) :
    ∃ o, p.Yields k maxDepth input state o := by
  obtain ⟨body, R, address, code, -, -, -, hp, hlinked, hcode⟩ :=
    Plan.program_realizes hD h hfits
  have hyields := hp.yields k maxDepth hlinked hcode (input, state)
  cases hr : Plan.eval k maxDepth body maxDepth plan .blank (input, state) with
  | ok frame t =>
    rw [hr] at hyields
    exact ⟨_, hyields⟩
  | error cause t =>
    rw [hr] at hyields
    obtain ⟨e, -, hyields⟩ := hyields
    exact ⟨_, hyields⟩

/-- **Every run of a compiled program ends**, with success or with an error:
for every sink, every limit on levels and every input there is a number of
steps from which on the run has one outcome. -/
theorem compile_terminates (h : compile writer reader = .ok p)
    (hfits : p.Fits) {σ : Type} (k : Sink σ) (maxDepth : Nat) (input : Input)
    (state : σ) : ∃ o, p.Yields k maxDepth input state o :=
  Plan.program_terminates (encloses_ofRecords writer reader) h hfits k
    maxDepth input state

end

/-! ## Data without end

A record that contains nulls, of which a block may announce as many as there
are numbers, and itself. -/

namespace Endless

/-- The schema. -/
def schema : Schema where
  root := .named ⟨"Endless", ""⟩
  definitions :=
    [.record ⟨⟨"Endless", ""⟩, [],
      [⟨"nulls", .array (.primitive .null), [], none, none⟩,
        ⟨"next", .named ⟨"Endless", ""⟩, [], none, none⟩], none⟩]
  source := "\x7b\"type\":\"record\",\"name\":\"Endless\",\"fields\":[" ++
    "\x7b\"name\":\"nulls\",\"type\":" ++
      "\x7b\"type\":\"array\",\"items\":\"null\"\x7d\x7d," ++
    "\x7b\"name\":\"next\",\"type\":\"Endless\"\x7d]\x7d"

theorem size_compile : (compile schema schema).map (fun p =>
    (p.instructions.size, p.errors.length)) = .ok (23, 0) := by cbv

/-- Runs over data without end, and without a byte for most of it, end. -/
theorem runs_end : ∃ p, compile schema schema = .ok p ∧ p.Fits
    ∧ ∀ (maxDepth : Nat) (input : Input), ∃ o,
      p.Yields (Builder.sink schema) maxDepth input
        (Builder.fresh schema schema.root) o := by
  obtain ⟨p, hp, hsize⟩ := exists_of_map_ok size_compile
  obtain ⟨hsize, hmessages⟩ := Prod.mk.inj hsize
  have hfits : p.Fits := ⟨by omega, by omega⟩
  exact ⟨p, hp, hfits, fun maxDepth input =>
    compile_terminates hp hfits (Builder.sink schema) maxDepth input _⟩

end Endless

end Avro
