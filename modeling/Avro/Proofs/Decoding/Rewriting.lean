import Avro.Proofs.Resolution.Taking
import Avro.Proofs.Value.Conformity
import Avro.Proofs.Wire.Shortest

/-!
# What is decoded can be written again

A value that was decoded has a written form. It is no longer than the bytes
that were taken for the value, and it is decoded as the same value with the
same levels to go (`Decoding.Rewrites`). That the levels suffice needs no
count of them: decoding the written form goes down exactly where decoding the
first bytes did.

Lists of items are the one place where the written form has to be a small one.
Items may come in any number of blocks, but are written in one, whose count is
a 64-bit integer. So reading back is promised of values that `small` is true
of, and the length is promised of all.

There is a rule for everything that decoding is made of. The items of a loop
are collected (`Decoding.Rewrites.blocks`), and entries among them that
repeat a key are dropped (`Decoding.Rewrites.entries`).
-/

namespace Avro

namespace Decoding

variable {α β γ : Type} {limit : Nat}

/-- A read that succeeds. -/
theorem reading_eq_ok {m : Read α} {levels : Nat} {input left : Input} {a : α}
    (h : reading m levels input = .ok a left) : m input = .ok a left := by
  unfold reading at h
  cases hr : m input with
  | error e between => rw [hr] at h; exact nomatch h
  | ok b between =>
    rw [hr] at h
    obtain ⟨rfl, rfl⟩ := EStateM.Result.ok.inj h
    rfl

/-- A level below that is there. -/
theorem deeper_eq_ok {m : Decoding α} {levels : Nat} {input left : Input}
    {a : α} (h : deeper limit m levels input = .ok a left) :
    ∃ below, levels = below + 1 ∧ m below input = .ok a left := by
  cases levels with
  | zero => exact nomatch h
  | succ below => exact ⟨below, rfl, h⟩

/-! ## Loops -/

section

variable {m : EStateM ExecutionCause Input α} {written : α → List UInt8}

/-- A round that succeeds keeps an item. -/
theorem collecting_eq_ok {input left : Input} {before after : List α}
    (h : collecting m (input, before) = .ok () (left, after)) :
    ∃ a, m input = .ok a left ∧ after = a :: before := by
  unfold collecting at h
  cases hr : m input with
  | error cause between => simp only [hr] at h; exact nomatch h
  | ok a between =>
    simp only [hr] at h
    obtain ⟨rfl, rfl⟩ := Prod.mk.inj (EStateM.Result.ok.inj h).2
    exact ⟨a, rfl, rfl⟩

/-- The rounds of a block that succeed keep an item each. -/
theorem rounds_collecting
    (hm : ∀ {input left : Input} {a : α}, m input = .ok a left →
      (written a).length + left.rest.length ≤ input.rest.length) :
    ∀ {count : Nat} {input left : Input} {before after : List α},
      Running.rounds (collecting m) count (input, before)
        = .ok () (left, after) →
      ∃ items : List α, items.length = count
        ∧ after = items.reverse ++ before
        ∧ (∀ a ∈ items, ∃ input left, m input = .ok a left)
        ∧ (items.flatMap written).length + left.rest.length
          ≤ input.rest.length
  | 0, input, left, before, after, h => by
    obtain ⟨rfl, rfl⟩ := Prod.mk.inj (EStateM.Result.ok.inj h).2
    exact ⟨[], rfl, rfl, nofun, Nat.le_of_eq (Nat.zero_add _)⟩
  | count + 1, input, left, before, after, h => by
    obtain ⟨⟨⟩, ⟨between, kept⟩, hround, h⟩ := Avro.bind_eq_ok h
    obtain ⟨a, ha, rfl⟩ := collecting_eq_ok hround
    obtain ⟨items, rfl, rfl, hgiven, hlength⟩ := rounds_collecting hm h
    have hfirst := hm ha
    refine ⟨a :: items, rfl, ?_, ?_, ?_⟩
    · rw [List.reverse_cons, List.append_assoc]
      rfl
    · rintro b hb
      rcases List.mem_cons.mp hb with rfl | hb
      · exact ⟨_, _, ha⟩
      · exact hgiven b hb
    · rw [List.flatMap_cons, List.length_append]
      omega

/-- A read in a loop that succeeds. -/
theorem running_eq_ok {σ : Type} {read : Read β} {input left : Input}
    {state after : σ} {b : β}
    (h : Running.reading read (input, state) = .ok b (left, after)) :
    read input = .ok b left ∧ state = after := by
  unfold Running.reading at h
  cases hr : read input with
  | error e between => simp only [hr] at h; exact nomatch h
  | ok c between =>
    simp only [hr] at h
    obtain ⟨rfl, hstate⟩ := EStateM.Result.ok.inj h
    obtain ⟨rfl, rfl⟩ := Prod.mk.inj hstate
    exact ⟨rfl, rfl⟩

/-- **The count of a block** is written in no more bytes than its header was
read from. A negative number may be shorter than its magnitude, but then there
is a size after it. -/
theorem length_blockCount {σ : Type} {input left : Input} {state after : σ}
    {count : Nat}
    (h : Running.blockCount (input, state) = .ok count (left, after)) :
    (Wire.integer count).length + left.rest.length ≤ input.rest.length
      ∧ state = after := by
  obtain ⟨n, ⟨between, kept⟩, hread, h⟩ := Avro.bind_eq_ok h
  obtain ⟨hn, rfl⟩ := running_eq_ok hread
  have hnumber : (Wire.integer n.toInt).length + between.rest.length
      ≤ input.rest.length := (Read.Rewrites.readLong hn).1
  split at h
  · rename_i hnegative
    obtain ⟨size, ⟨behind, kept⟩, hread', h⟩ := Avro.bind_eq_ok h
    obtain ⟨hsize, rfl⟩ := running_eq_ok hread'
    obtain ⟨rfl, hstate⟩ := EStateM.Result.ok.inj h
    obtain ⟨rfl, rfl⟩ := Prod.mk.inj hstate
    -- the byte that the magnitude may need is one of the size
    have hlt := Wire.readLong_length_lt hsize
    have hmagnitude := Wire.length_integer_natAbs_of_neg
      (Int64.lt_iff_toInt_lt.mp hnegative)
    exact ⟨by omega, rfl⟩
  · rename_i hpositive
    obtain ⟨rfl, hstate⟩ := EStateM.Result.ok.inj h
    obtain ⟨rfl, rfl⟩ := Prod.mk.inj hstate
    rw [Wire.length_integer_natAbs_of_nonneg
      (Int64.le_iff_toInt_le.mp (Int64.not_lt.mp hpositive))]
    exact ⟨hnumber, rfl⟩

/-- **The items of a loop** are written in one block in no more bytes than
the blocks were read from. -/
theorem blocksWithin_collecting
    (hm : ∀ {input left : Input} {a : α}, m input = .ok a left →
      (written a).length + left.rest.length ≤ input.rest.length) :
    ∀ {more : Nat} {input left : Input} {before after : List α},
      Running.blocksWithin (collecting m) more (input, before)
        = .ok () (left, after) →
      ∃ items : List α, after = items.reverse ++ before
        ∧ (∀ a ∈ items, ∃ input left, m input = .ok a left)
        ∧ (Wire.block items.length (items.flatMap written)).length
          + left.rest.length ≤ input.rest.length
  | 0, input, left, before, after, h => nomatch h
  | more + 1, input, left, before, after, h => by
    obtain ⟨count, ⟨between, kept⟩, hcount, h⟩ := Avro.bind_eq_ok h
    obtain ⟨hheader, rfl⟩ := length_blockCount hcount
    split at h
    · rename_i hzero
      obtain ⟨rfl, rfl⟩ := Prod.mk.inj (EStateM.Result.ok.inj h).2
      refine ⟨[], rfl, nofun, ?_⟩
      rwa [hzero] at hheader
    · rename_i hpositive
      obtain ⟨⟨⟩, ⟨behind, kept'⟩, hrounds, h⟩ := Avro.bind_eq_ok h
      obtain ⟨items, rfl, rfl, hgiven, hitems⟩ := rounds_collecting hm hrounds
      obtain ⟨others, rfl, hothers, hlength⟩ := blocksWithin_collecting hm h
      -- the others are in one block already, and this one is put in front
      have hsum := Wire.length_block_append written
        (fun hnil => hpositive (congrArg List.length hnil)) others
      refine ⟨items ++ others, ?_, ?_, by omega⟩
      · rw [List.reverse_append, List.append_assoc]
      · intro a ha
        exact (List.mem_append.mp ha).elim (hgiven a) (hothers a)

end

/-- **What a loop gives**: items that rounds have given, which are written in
one block in no more bytes than the blocks were read from. -/
theorem blocks_eq_ok {item : Decoding α} {written : α → List UInt8}
    {levels : Nat} {input left : Input} {items : List α}
    (hitem : ∀ {input left : Input} {a : α},
      deeper limit item levels input = .ok a left →
      (written a).length + left.rest.length ≤ input.rest.length)
    (h : blocks limit item levels input = .ok items left) :
    (∀ a ∈ items, ∃ input left, deeper limit item levels input = .ok a left)
      ∧ (Wire.block items.length (items.flatMap written)).length
        + left.rest.length ≤ input.rest.length := by
  unfold blocks at h
  cases hr : Running.blocks (collecting (deeper limit item levels))
      (input, []) with
  | error cause s => rw [hr] at h; exact nomatch h
  | ok u s =>
    obtain ⟨between, kept⟩ := s
    rw [hr] at h
    obtain ⟨rfl, rfl⟩ := EStateM.Result.ok.inj h
    obtain ⟨items, hkept, hgiven, hlength⟩ :=
      blocksWithin_collecting hitem hr
    rw [List.append_nil] at hkept
    subst hkept
    dsimp only
    rw [List.reverse_reverse]
    exact ⟨hgiven, hlength⟩

/-- **Items in one block** are read back if each of them is. -/
theorem blocks_block {item : Decoding α} {written : α → List UInt8}
    {levels : Nat} {items : List α}
    (hcount : items.length < 0x8000000000000000)
    (hitems : ∀ a ∈ items, ∀ rest : Input,
      deeper limit item levels (rest.prepend (written a)) = .ok a rest)
    (rest : Input) :
    blocks limit item levels
        (rest.prepend (Wire.block items.length (items.flatMap written)))
      = .ok items rest := by
  have hrounds := @onItems_collecting α α (deeper limit item levels) written
    .ok items [] hitems
  rw [mapM_eq_ok fun a _ => rfl] at hrounds
  have hblocks : Running.blocks _ _ = _ := Running.blocks_chunked
    (Wire.chunked_flatMap hcount written) hrounds rest
  simp only [blocks, hblocks, List.append_nil, List.reverse_reverse]

/-- Entries that are kept are written in no more bytes than those that were
read. -/
theorem length_block_ofList_le (written : String × α → List UInt8)
    (pairs : List (String × α)) :
    (Wire.block (Entries.ofList pairs).length
        ((Entries.ofList pairs).flatMap written)).length
      ≤ (Wire.block pairs.length (pairs.flatMap written)).length := by
  cases pairs with
  | nil => exact Nat.le_refl _
  | cons pair rest =>
    have hcount := Wire.length_integer_mono
      (Entries.length_ofList_le (pair :: rest))
    have hbytes := Entries.length_flatMap_ofList_le written (pair :: rest)
    rw [Wire.length_block, Wire.length_block, if_neg (List.cons_ne_nil _ _)]
    -- dropping entries makes the count no longer, and so the block
    split
    · omega
    · omega

/-! ## Computations whose values can be written again -/

/-- **What is decoded can be written again**: in no more bytes than were taken
for it, and with as many levels to go it is read back if it is small. -/
def Rewrites (m : Decoding α) (small : α → Prop) (written : α → List UInt8) :
    Prop :=
  ∀ ⦃levels : Nat⦄ ⦃input left : Input⦄ ⦃a : α⦄,
    m levels input = .ok a left →
      (written a).length + left.rest.length ≤ input.rest.length
        ∧ (small a → ∀ rest : Input,
          m levels (rest.prepend (written a)) = .ok a rest)

namespace Rewrites

variable {m : Decoding α} {n : Decoding β} {small : α → Prop}
  {written : α → List UInt8}

theorem pure {a : α} (h : written a = []) :
    Rewrites (Pure.pure a) small written := by
  intro levels input left b hb
  obtain ⟨rfl, rfl⟩ := EStateM.Result.ok.inj hb
  rw [h]
  exact ⟨Nat.le_of_eq (Nat.zero_add _), fun _ _ => rfl⟩

theorem rejected : Rewrites (Decoding.rejected : Decoding α) small written :=
  fun _ _ _ _ h => nomatch h

theorem reading {read : Read α} (h : read.Rewrites written) :
    Rewrites (Decoding.reading read) small written := by
  intro levels input left a ha
  obtain ⟨hlength, hreads⟩ := h (reading_eq_ok ha)
  exact ⟨hlength, fun _ rest => reading_ok (hreads rest) levels⟩

theorem deeper (h : m.Rewrites small written) :
    Rewrites (Decoding.deeper limit m) small written := by
  intro levels input left a ha
  obtain ⟨below, rfl, ha⟩ := deeper_eq_ok ha
  exact h ha

theorem entered (h : m.Rewrites small written) (r : TypeExpr) :
    Rewrites (Decoding.entered limit r m) small written := by
  unfold Decoding.entered
  split
  · exact h
  · exact h.deeper

/-- What is made of a value is written like the value. -/
theorem map (hm : m.Rewrites small written) {f : α → β} {small' : β → Prop}
    {written' : β → List UInt8}
    (hwritten : ∀ {levels : Nat} {input left : Input} {a : α},
      m levels input = .ok a left → written' (f a) = written a)
    (hsmall : ∀ a, small' (f a) → small a) :
    Rewrites (do return f (← m)) small' written' := by
  intro levels input left b h
  obtain ⟨a, between, ha, h⟩ := bind_eq_ok h
  obtain ⟨rfl, rfl⟩ := EStateM.Result.ok.inj h
  obtain ⟨hlength, hback⟩ := hm ha
  rw [hwritten ha]
  exact ⟨hlength, fun hb rest => bind_ok (hback (hsmall a hb) rest)⟩

/-- **One value after another** is written so. -/
theorem both {small' : β → Prop} {written' : β → List UInt8}
    (hm : m.Rewrites small written) (hn : n.Rewrites small' written')
    {f : α → β → γ} {both : γ → Prop} {writtenBoth : γ → List UInt8}
    (hwritten : ∀ a b, writtenBoth (f a b) = written a ++ written' b)
    (hsmall : ∀ a b, both (f a b) → small a ∧ small' b) :
    Rewrites (do
      let a ← m
      let b ← n
      return f a b) both writtenBoth := by
  intro levels input left c h
  obtain ⟨a, between, ha, h⟩ := bind_eq_ok h
  obtain ⟨b, behind, hb, h⟩ := bind_eq_ok h
  obtain ⟨rfl, rfl⟩ := EStateM.Result.ok.inj h
  obtain ⟨hfirst, hback⟩ := hm ha
  obtain ⟨hsecond, hback'⟩ := hn hb
  rw [hwritten]
  refine ⟨?_, fun hc rest => ?_⟩
  · rw [List.length_append]
    omega
  · obtain ⟨ha, hb⟩ := hsmall a b hc
    rw [Input.prepend_append, bind_ok (hback ha _), bind_ok (hback' hb rest)]
    rfl

/-- **The items of a loop** are written in one block. -/
theorem blocks (h : m.Rewrites small written) :
    Rewrites (Decoding.blocks limit m)
      (fun items => Countable items ∧ ∀ a ∈ items, small a)
      (fun items => Wire.block items.length (items.flatMap written)) := by
  intro levels input left items hitems
  have hitem : (Decoding.deeper limit m).Rewrites small written := h.deeper
  obtain ⟨hgiven, hlength⟩ := blocks_eq_ok (fun ha => (hitem ha).1) hitems
  refine ⟨hlength, fun hsmall rest => ?_⟩
  refine blocks_block hsmall.1 (fun a ha rest => ?_) rest
  obtain ⟨input, left, hread⟩ := hgiven a ha
  exact (hitem hread).2 (hsmall.2 a ha) rest

/-- **The entries of a loop** are written in one block, each key once. The
entries that are dropped make it shorter, and those that are kept are entries
that were read. -/
theorem entries {entry : Decoding (String × α)} {small : String × α → Prop}
    {written : String × α → List UInt8} (h : entry.Rewrites small written) :
    Rewrites (do return Entries.ofList (← Decoding.blocks limit entry))
      (fun entries => Countable entries ∧ ∀ x ∈ entries, small x)
      (fun entries =>
        Wire.block entries.length (entries.flatMap written)) := by
  intro levels input left kept hkept
  have hentry : (Decoding.deeper limit entry).Rewrites small written :=
    h.deeper
  obtain ⟨pairs, between, hpairs, hkept⟩ := bind_eq_ok hkept
  obtain ⟨rfl, rfl⟩ := EStateM.Result.ok.inj hkept
  obtain ⟨hgiven, hlength⟩ := blocks_eq_ok (fun ha => (hentry ha).1) hpairs
  have hshorter := length_block_ofList_le written pairs
  refine ⟨(Nat.add_le_add_right hshorter _).trans hlength,
    fun hsmall rest => ?_⟩
  have hback : ∀ x ∈ Entries.ofList pairs, ∀ rest : Input,
      Decoding.deeper limit entry levels (rest.prepend (written x))
        = .ok x rest := by
    intro x hx rest
    obtain ⟨input, left, hread⟩ := hgiven x (Entries.mem_of_mem_ofList hx)
    exact (hentry hread).2 (hsmall.2 x hx) rest
  rw [bind_ok (blocks_block hsmall.1 hback rest),
    Entries.ofList_eq (Entries.sorted_ofList pairs)]
  rfl

end Rewrites

end Decoding

end Avro
