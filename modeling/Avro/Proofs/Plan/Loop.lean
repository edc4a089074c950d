import Avro.Proofs.Plan.Performs

/-!
# Loops over blocks

The loop over blocks is the one construct whose run is longer than its tree:
its rounds are counted down in the long register (`performs_rounds`), and its
blocks use up the input (`performs_blocks`). The header of a block leaves the
number of rounds in the register, whatever its sign was (`performs_header`).
-/

namespace Avro

/-! ## Counts in registers -/

theorem ofNat_natAbs_of_pos {n : Int64} (h : 0 < n) :
    Int64.ofNat n.toInt.natAbs = n := by
  have h : 0 < n.toInt := Int64.lt_iff_toInt_lt.mp h
  rw [← Int64.toInt_inj, Int64.toInt_ofNat_of_lt]
  · omega
  · have := n.toInt_lt
    omega

/-- A negative count is turned into its magnitude, also the least one, whose
magnitude is no 64-bit integer. -/
theorem mul_neg_one_of_neg {n : Int64} (h : n < 0) :
    n * -1 = Int64.ofNat n.toInt.natAbs := by
  have h : n.toInt < 0 := Int64.lt_iff_toInt_lt.mp h
  have hn : n = Int64.ofInt n.toInt := (Int64.ofInt_toInt n).symm
  rw [show Int64.ofNat n.toInt.natAbs = Int64.ofInt (n.toInt * -1) from ?_]
  · rw [Int64.ofInt_mul, ← hn]
    rfl
  · rw [show n.toInt * -1 = (n.toInt.natAbs : Int) by omega]
    rfl

theorem ofNat_succ_add_neg_one (n : Nat) :
    Int64.ofNat (n + 1) + -1 = Int64.ofNat n := by
  rw [Int64.ofNat_add, Int64.add_assoc]
  exact Int64.add_zero _

theorem ofNat_eq_zero_iff {n : Nat} (h : n < 0x10000000000000000) :
    Int64.ofNat n = 0 ↔ n = 0 := by
  constructor
  · intro h0
    have h1 := congrArg BitVec.toNat (congrArg Int64.toBitVec h0)
    simp at h1
    omega
  · rintro rfl
    rfl

theorem natAbs_toInt_le (n : Int64) : n.toInt.natAbs ≤ 0x8000000000000000 := by
  have h₁ := n.toInt_lt
  have h₂ := n.le_toInt
  omega

namespace Program

variable {σ : Type} {p : Program} {k : Sink σ} {maxDepth depth : Nat}

section Blocks

variable {label : String} {inner : LinkedCode} {address : String → Nat}
  {a : Nat} {round : Running σ Unit}

/-- The parts of a loop over blocks. -/
theorem Holds.blocks
    (h : p.Holds a (Code.lower address a (.blocks label inner))) :
    p.Holds a (Code.header (a + inner.size + 13) (a + 7) label)
      ∧ p.Holds (a + 8) (Code.lower address (a + 8) inner)
      ∧ p.Holds (a + 8 + inner.size) (Code.footer a (a + 7) label) := by
  have hexit : a + Code.headerSize + inner.size + Code.footerSize
      = a + inner.size + 13 := by
    simp only [Code.headerSize, Code.footerSize]
    omega
  rw [Code.lower, hexit] at h
  have hhead := h.left.left
  have hinner := h.left.right
  have hfoot := h.right
  rw [List.length_append, Code.length_lower, ← Nat.add_assoc] at hfoot
  exact ⟨hhead, hinner, hfoot⟩

/-- The end of the last round of a block. -/
theorem performs_footer_last {start entry b : Nat} {frame : Frame}
    (hcode : p.Holds b (Code.footer start entry label))
    (hstart : start < 0x8000000000000000) (hlong : frame.long = 1)
    (s : Input × σ) :
    p.Performs k maxDepth depth (b + 1) frame s start
      (.ok { frame with long := 0, condition := true } s) := by
  have h0 : frame.long + -1 = 0 := by
    rw [hlong]
    rfl
  refine .goOn (hcode.get (n := 1) rfl) rfl ?_
  refine .goOn (hcode.get (n := 2) rfl) rfl ?_
  refine .goOn (hcode.get (n := 3) rfl) (q := start) ?_ (.refl _ _ s)
  simp only [step]
  rw [if_pos (decide_eq_true h0), address?_target hstart]
  dsimp only
  rw [h0, decide_eq_true rfl]

/-- The end of a round after which another one follows. -/
theorem performs_footer_again {start entry b : Nat} {frame : Frame}
    (hcode : p.Holds b (Code.footer start entry label))
    (hentry : entry < 0x8000000000000000) (hlong : frame.long + -1 ≠ 0)
    (s : Input × σ) :
    p.Performs k maxDepth depth (b + 1) frame s entry
      (.ok { frame with long := frame.long + -1, condition := false }
        s) := by
  have hlast : step p.errors k ⟨.condJump, Code.target start, label⟩ (b + 3)
      { frame with
        long := frame.long + -1
        condition := decide (frame.long + -1 = 0) } s.1 s.2
      = .goOn (b + 4)
        { frame with long := frame.long + -1, condition := false }
        s.1 s.2 := by
    simp only [step]
    rw [decide_eq_false hlong]
    rfl
  refine .goOn (hcode.get (n := 1) rfl) rfl ?_
  refine .goOn (hcode.get (n := 2) rfl) rfl ?_
  refine .goOn (hcode.get (n := 3) rfl) hlast ?_
  refine .goOn (hcode.get (n := 4) rfl) (q := entry) ?_ (.refl _ _ s)
  simp only [step]
  rw [address?_target hentry]

/-- **Rounds are counted down** in the long register; after the last one the
level is at the header again. -/
theorem performs_rounds (hsize : p.instructions.size < 0x8000000000000000)
    (hcode : p.Holds a (Code.lower address a (.blocks label inner)))
    (hround : ∀ frame s, p.Performs k maxDepth depth (a + 7) frame s
      (a + 8 + inner.size + 1) ((do round; return frame) s))
    (frame : Frame) (count : Nat) (hcount : count < 0x8000000000000000)
    (c : Bool) (s : Input × σ) :
    p.Performs k maxDepth depth (a + 7)
      { frame with long := Int64.ofNat (count + 1), condition := c } s a
      ((do
        Running.rounds round (count + 1)
        return { frame with long := 0, condition := true }) s) := by
  obtain ⟨-, -, hfoot⟩ := hcode.blocks
  have hle := hfoot.length_le
  have ha : a < 0x8000000000000000 := by omega
  have hentry : a + 7 < 0x8000000000000000 := by omega
  induction count generalizing c s with
  | zero =>
    have h := hround
      { frame with long := Int64.ofNat 1, condition := c } s
    cases hr : round s with
    | error cause t =>
      rw [Running.bind_error hr] at h
      rw [Running.bind_error (Running.rounds_error hr 0)]
      exact h
    | ok u t =>
      rw [Running.bind_ok hr] at h
      rw [Running.bind_ok (Running.rounds_ok hr 0)]
      exact .of_ends h (performs_footer_last hfoot ha rfl t)
  | succ count ih =>
    have h := hround
      { frame with long := Int64.ofNat (count + 2), condition := c } s
    cases hr : round s with
    | error cause t =>
      rw [Running.bind_error hr] at h
      rw [Running.bind_error (Running.rounds_error hr _)]
      exact h
    | ok u t =>
      rw [Running.bind_ok hr] at h
      have hnext : (do
          Running.rounds round (count + 1 + 1)
          return { frame with long := 0, condition := true } :
            Running σ Frame) s
        = (do
          Running.rounds round (count + 1)
          return { frame with long := 0, condition := true }) t := by
        simp only [bind, EStateM.bind, Running.rounds_ok hr]
      rw [hnext]
      have hlong := ofNat_succ_add_neg_one (count + 1)
      have hne : Int64.ofNat (count + 2) + -1 ≠ 0 := by
        rw [hlong, Ne, ofNat_eq_zero_iff (by omega)]
        omega
      refine .of_ends h (.of_ends (performs_footer_again hfoot hentry ?_ t) ?_)
      · exact hne
      · dsimp only
        rw [hlong]
        exact ih (by omega) false t

section Header

variable {exit entry : Nat} {frame : Frame}

/-- The header of the empty block, once its count is read. -/
theorem performs_tests_zero
    (hcode : p.Holds a (Code.header exit entry label))
    (hexit : exit < 0x8000000000000000) (hlong : frame.long = 0)
    (s : Input × σ) :
    p.Performs k maxDepth depth (a + 1) frame s exit
      (.ok { frame with condition := true } s) := by
  refine .goOn (hcode.get (n := 1) rfl) rfl ?_
  refine .goOn (hcode.get (n := 2) rfl) (q := exit) ?_ (.refl _ _ s)
  simp only [step]
  rw [if_pos (decide_eq_true hlong), address?_target hexit]
  dsimp only
  rw [decide_eq_true hlong]

/-- The first test of the header of a block that is not empty. -/
theorem performs_tests_ne_zero
    (hcode : p.Holds a (Code.header exit entry label))
    (hlong : frame.long ≠ 0) (s : Input × σ) :
    p.Performs k maxDepth depth (a + 1) frame s (a + 3)
      (.ok { frame with condition := false } s) := by
  refine .goOn (hcode.get (n := 1) rfl) rfl ?_
  refine .goOn (hcode.get (n := 2) rfl) (q := a + 3) ?_ (.refl _ _ s)
  simp only [step]
  rw [decide_eq_false hlong]
  rfl

/-- The header of a block with a positive count, once it is read. -/
theorem performs_tests_pos
    (hcode : p.Holds a (Code.header exit entry label))
    (hentry : entry < 0x8000000000000000) (hlong : 0 < frame.long)
    (s : Input × σ) :
    p.Performs k maxDepth depth (a + 1) frame s entry
      (.ok { frame with condition := true } s) := by
  have hne : frame.long ≠ 0 := by
    intro h
    rw [h] at hlong
    exact absurd hlong (by decide)
  refine .of_ends (performs_tests_ne_zero hcode hne s) ?_
  refine .goOn (hcode.get (n := 3) rfl) rfl ?_
  refine .goOn (hcode.get (n := 4) rfl) (q := entry) ?_ (.refl _ _ s)
  simp only [step]
  rw [if_pos (decide_eq_true hlong), address?_target hentry]
  dsimp only
  rw [decide_eq_true hlong]

/-- The header of a block with a negative count, once it is read. -/
theorem performs_tests_neg
    (hcode : p.Holds a (Code.header exit entry label))
    (hlong : frame.long < 0) (s : Input × σ) :
    p.Performs k maxDepth depth (a + 1) frame s (a + 5)
      (.ok { frame with condition := false } s) := by
  have hne : frame.long ≠ 0 := by
    intro h
    rw [h] at hlong
    exact absurd hlong (by decide)
  have hnot : ¬ 0 < frame.long := Int64.not_lt.mpr (Int64.le_of_lt hlong)
  refine .of_ends (performs_tests_ne_zero hcode hne s) ?_
  refine .goOn (hcode.get (n := 3) rfl) rfl ?_
  refine .goOn (hcode.get (n := 4) rfl) (q := a + 5) ?_ (.refl _ _ s)
  simp only [step]
  rw [decide_eq_false hnot]
  rfl

/-- The header of a block with a negative count, once it is read: what comes
after the count is dropped, and the count turned into its magnitude. -/
theorem performs_magnitude
    (hcode : p.Holds a (Code.header exit entry label))
    (hlong : frame.long < 0) (s : Input × σ) :
    match Wire.readLong s.1 with
    | .ok _ left =>
      p.Performs k maxDepth depth (a + 1) frame s (a + 7)
        (.ok { frame with
          long := Int64.ofNat frame.long.toInt.natAbs
          condition := false } (left, s.2))
    | .error e left =>
      ∀ next, p.Performs k maxDepth depth (a + 1) frame s next
        (.error (.decode e) (left, s.2)) := by
  have htests : p.Performs k maxDepth depth (a + 1) frame s (a + 5)
      (.ok { frame with condition := false } s) :=
    performs_tests_neg hcode hlong s
  have hdrop := @step_read_unusedLong σ p.errors k (a + 5)
    { frame with condition := false } s.1 s.2 label
  cases hr : Wire.readLong s.1 with
  | error e left =>
    rw [hr] at hdrop
    intro next
    refine .of_ends htests (.fail (hcode.get (n := 5) rfl) ?_)
    exact hdrop
  | ok m left =>
    rw [hr] at hdrop
    refine .of_ends htests ?_
    refine .goOn (t := (left, s.2)) (hcode.get (n := 5) rfl) hdrop ?_
    refine .goOn (hcode.get (n := 6) rfl) (q := a + 7) ?_
      (.refl _ _ (left, s.2))
    simp only [step]
    rw [mul_neg_one_of_neg hlong]

variable (p k maxDepth depth a exit frame) in
/-- What a header does that reads a count, or cannot read one. -/
def HeaderDoes (s : Input × σ) :
    EStateM.Result ExecutionCause (Input × σ) Nat → Prop
  | .error cause t =>
    ∀ next, p.Performs k maxDepth depth a frame s next (.error cause t)
  | .ok count t =>
    count ≤ 0x8000000000000000 ∧ ∃ c : Bool, (count = 0 → c = true) ∧
      p.Performs k maxDepth depth a frame s
        (if count = 0 then exit else a + 7)
        (.ok { frame with long := Int64.ofNat count, condition := c } t)

/-- **The header of a block leaves its count** in the long register, and
goes on with a round or behind the loop. -/
theorem performs_header (hcode : p.Holds a (Code.header exit (a + 7) label))
    (hexit : exit < 0x8000000000000000)
    (hentry : a + 7 < 0x8000000000000000) (s : Input × σ) :
    HeaderDoes p k maxDepth depth a exit frame s (Running.blockCount s) := by
  unfold Running.blockCount
  have hread := @step_read_long σ p.errors k a frame s.1 s.2 label
  cases hr : Wire.readLong s.1 with
  | error e left =>
    rw [Running.bind_error (Running.reading_error hr)]
    rw [hr] at hread
    exact fun next => .fail (hcode.get (n := 0) rfl) hread
  | ok n left =>
    rw [Running.bind_ok (Running.reading_ok hr)]
    rw [hr] at hread
    obtain ⟨f, hf⟩ : ∃ f : Frame, f = { frame with long := n } := ⟨_, rfl⟩
    have hlong : f.long = n := by rw [hf]
    have hfirst : ∀ next r,
        p.Performs k maxDepth depth (a + 1) f (left, s.2) next r →
        p.Performs k maxDepth depth a frame s next r :=
      fun _ _ h => .goOn (hcode.get (n := 0) rfl) (hf ▸ hread) h
    by_cases hneg : n < 0
    · rw [if_pos hneg]
      have h0 : n.toInt.natAbs ≠ 0 := by
        have : n.toInt < 0 := Int64.lt_iff_toInt_lt.mp hneg
        omega
      have hmagnitude := @performs_magnitude σ p k maxDepth depth label a exit
        (a + 7) f hcode (hlong ▸ hneg) (left, s.2)
      dsimp only at hmagnitude
      cases hr' : Wire.readLong left with
      | error e left' =>
        rw [Running.bind_error (Running.reading_error hr')]
        rw [hr'] at hmagnitude
        exact fun next => hfirst next _ (hmagnitude next)
      | ok m left' =>
        rw [Running.bind_ok (Running.reading_ok hr')]
        rw [hr'] at hmagnitude
        refine ⟨natAbs_toInt_le n, false, fun h => absurd h h0, ?_⟩
        rw [if_neg h0]
        refine hfirst _ _ ?_
        subst hf
        exact hmagnitude
    · rw [if_neg hneg]
      by_cases hzero : n = 0
      · have h0 : n.toInt.natAbs = 0 := by
          rw [hzero]
          rfl
        refine ⟨natAbs_toInt_le n, true, fun _ => rfl, ?_⟩
        rw [if_pos h0, h0, show Int64.ofNat 0 = n from hzero.symm]
        refine hfirst _ _ ?_
        have htests := @performs_tests_zero σ p k maxDepth depth label a exit
          (a + 7) f hcode hexit (hlong.trans hzero) (left, s.2)
        subst hf
        exact htests
      · have hpos : 0 < n :=
          Int64.lt_of_le_of_ne (Int64.not_lt.mp hneg) (Ne.symm hzero)
        have h0 : n.toInt.natAbs ≠ 0 := by
          have : 0 < n.toInt := Int64.lt_iff_toInt_lt.mp hpos
          omega
        refine ⟨natAbs_toInt_le n, true, fun h => absurd h h0, ?_⟩
        rw [if_neg h0, ofNat_natAbs_of_pos hpos]
        refine hfirst _ _ ?_
        have htests := @performs_tests_pos σ p k maxDepth depth label a exit
          (a + 7) f hcode hentry (hlong ▸ hpos) (left, s.2)
        subst hf
        exact htests

end Header

/-- **A loop over blocks does what its plan does.** -/
theorem performs_blocks (hsize : p.instructions.size < 0x8000000000000000)
    (hcode : p.Holds a (Code.lower address a (.blocks label inner)))
    (hconsumes : round.Consumes)
    (hround : ∀ frame s, p.Performs k maxDepth depth (a + 7) frame s
      (a + 8 + inner.size + 1) ((do round; return frame) s))
    (frame : Frame) (s : Input × σ) :
    p.Performs k maxDepth depth a frame s (a + inner.size + 13)
      ((do
        Running.blocks round
        return { frame with long := 0, condition := true }) s) := by
  obtain ⟨hhead, -, hfoot⟩ := hcode.blocks
  have hle := hfoot.length_le
  have hlen : (Code.footer a (a + 7) label).length = 5 := rfl
  -- a block takes at least a byte, so the blocks of the rest are fewer
  induction hn : s.1.rest.length using Nat.strongRecOn
    generalizing frame s with
  | _ n ih =>
    have h := @performs_header σ p k maxDepth depth label a _ frame hhead
      (by omega) (by omega) s
    have hblocks := Running.blocks_eq hconsumes s
    cases hc : Running.blockCount s with
    | error cause t =>
      rw [hc] at h
      rw [Running.bind_error hc] at hblocks
      rw [Running.bind_error hblocks]
      exact h _
    | ok count t =>
      rw [hc] at h
      rw [Running.bind_ok hc] at hblocks
      obtain ⟨hcount, c, hc0, h⟩ := h
      by_cases h0 : count = 0
      · rw [if_pos h0] at h hblocks
        rw [Running.bind_ok hblocks]
        rw [h0, hc0 h0] at h
        exact h
      · rw [if_neg h0] at h hblocks
        obtain ⟨m, rfl⟩ : ∃ m, count = m + 1 := ⟨count - 1, by omega⟩
        have hrounds := performs_rounds hsize hcode hround frame m
          (by omega) c t
        refine .of_ends h ?_
        have hlt := Running.blockCount_length_lt hc
        have hleft := Running.Consumes.loopClosed.rounds hconsumes (m + 1) t
        cases hr : Running.rounds round (m + 1) t with
        | error cause t' =>
          rw [Running.bind_error hr] at hblocks hrounds
          rw [Running.bind_error hblocks]
          exact hrounds
        | ok u t' =>
          rw [hr] at hleft
          have hle' := hleft.length_le
          rw [Running.bind_ok hr] at hblocks hrounds
          rw [show (do
              Running.blocks round
              return { frame with long := 0, condition := true } :
                Running σ Frame) s
            = (do
              Running.blocks round
              return { frame with long := 0, condition := true }) t' from by
            simp only [bind, EStateM.bind, hblocks]]
          refine .of_ends hrounds ?_
          exact ih _ (by omega) { frame with long := 0, condition := true }
            t' rfl

end Blocks

end Program

end Avro
