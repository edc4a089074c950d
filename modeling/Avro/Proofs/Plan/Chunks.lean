import Avro.Proofs.Plan.Evaluation
import Avro.Proofs.Wire.Chunks

/-!
# Loops over chunks

A loop over blocks does a round for every item, whatever the chunks are into
which the items are cut.

What the rounds do with the items is a relation of its own (`OnItems`): each
round takes its item and leaves what comes after it, and the first round that
fails is the last. It knows nothing of chunks. A loop over the bytes of items
in chunks then does what the rounds do (`Running.blocks_chunked`), so it does
the same with all bytes of the same items.
-/

namespace Avro

open Wire (BlockHeader Chunked)

variable {σ : Type}

/-- **Rounds on items**, one for each, in their order. A round takes the bytes
of its item and leaves what comes after them, which it does not look at; the
first one that fails is the last. -/
inductive OnItems
    (Round : Input × σ → EStateM.Result ExecutionCause (Input × σ) Unit →
      Prop) :
    List (List UInt8) → σ → EStateM.Result ExecutionCause σ Unit → Prop
  /-- There are no more items. -/
  | done (s : σ) : OnItems Round [] s (.ok () s)
  /-- A round takes its item. -/
  | next {item : List UInt8} {items : List (List UInt8)} {s t : σ}
    {result : EStateM.Result ExecutionCause σ Unit} :
    (∀ rest : Input, Round (rest.prepend item, s) (.ok () (rest, t))) →
    OnItems Round items t result → OnItems Round (item :: items) s result
  /-- A round fails on its item. -/
  | fail {item : List UInt8} {items : List (List UInt8)} {s t : σ}
    {cause : ExecutionCause} :
    (∀ rest : Input, ∃ left,
      Round (rest.prepend item, s) (.error cause (left, t))) →
    OnItems Round (item :: items) s (.error cause t)

/-- **A computation has taken all in front of an input** with a result: it left
the input, or it failed. -/
def TookAll (rest : Input) (result : EStateM.Result ExecutionCause σ Unit)
    (r : EStateM.Result ExecutionCause (Input × σ) Unit) : Prop :=
  match result with
  | .ok () t => r = .ok () (rest, t)
  | .error cause t => ∃ left, r = .error cause (left, t)

namespace OnItems

variable {Round Round' : Input × σ →
    EStateM.Result ExecutionCause (Input × σ) Unit → Prop}
  {items others : List (List UInt8)} {s : σ}
  {result : EStateM.Result ExecutionCause σ Unit}

/-- What is true of rounds that do more is true of rounds that do less. -/
theorem mono (h : OnItems Round items s result)
    (hle : ∀ s r, Round s r → Round' s r) : OnItems Round' items s result := by
  induction h with
  | done s => exact .done s
  | next hitem _ ih => exact .next (fun rest => hle _ _ (hitem rest)) ih
  | fail hitem =>
    exact .fail fun rest => (hitem rest).imp fun _ => hle _ _

/-- Rounds on items and others are rounds on the items, and then, if none
fails, rounds on the others. -/
theorem of_append (h : OnItems Round (items ++ others) s result) :
    (∃ t, OnItems Round items s (.ok () t) ∧ OnItems Round others t result)
      ∨ ∃ cause t, result = .error cause t
        ∧ OnItems Round items s (.error cause t) := by
  induction items generalizing s with
  | nil => exact .inl ⟨s, .done s, h⟩
  | cons item items ih =>
    cases h with
    | next hitem h =>
      rcases ih h with ⟨t, h, h'⟩ | ⟨cause, t, hresult, h⟩
      · exact .inl ⟨t, .next hitem h, h'⟩
      · exact .inr ⟨cause, t, hresult, .next hitem h⟩
    | fail hitem => exact .inr ⟨_, _, rfl, .fail hitem⟩

/-- **Rounds on items have one result** if a round has. -/
theorem unique (hround : ∀ s r r', Round s r → Round s r' → r = r')
    (h : OnItems Round items s result)
    {result' : EStateM.Result ExecutionCause σ Unit}
    (h' : OnItems Round items s result') : result = result' := by
  induction h generalizing result' with
  | done s => cases h'; rfl
  | next hitem _ ih =>
    cases h' with
    | next hitem' h' =>
      have hsame :=
        hround _ _ _ (hitem (.ofBytes [])) (hitem' (.ofBytes []))
      obtain ⟨-, rfl⟩ := Prod.mk.inj (EStateM.Result.ok.inj hsame).2
      exact ih h'
    | fail hitem' =>
      obtain ⟨left, hfail⟩ := hitem' (.ofBytes [])
      exact absurd (hround _ _ _ (hitem _) hfail) (by simp)
  | fail hitem =>
    obtain ⟨left, hfail⟩ := hitem (.ofBytes [])
    cases h' with
    | next hitem' _ =>
      exact absurd (hround _ _ _ hfail (hitem' _)) (by simp)
    | fail hitem' =>
      obtain ⟨left', hfail'⟩ := hitem' (.ofBytes [])
      obtain ⟨rfl, hs⟩ :=
        EStateM.Result.error.inj (hround _ _ _ hfail hfail')
      rw [(Prod.mk.inj hs).2]

end OnItems

namespace Running

variable {round : Running σ Unit}

/-- **The header of a block is read as the magnitude of its number.** -/
theorem blockCount_header {n : Int64} {header : List UInt8}
    (h : BlockHeader n header) (input : Input) (s : σ) :
    blockCount (input.prepend header, s)
      = .ok n.toInt.natAbs (input, s) := by
  cases h with
  | count hpos hn =>
    have hnot : ¬ n < 0 := Int64.not_lt.mpr (Int64.le_of_lt hpos)
    rw [blockCount, bind_ok (reading_ok (hn input)), if_neg hnot]
    rfl
  | sized hneg hn hm =>
    rw [Input.prepend_append, blockCount, bind_ok (reading_ok (hn _)),
      if_pos hneg, bind_ok (reading_ok (hm _))]
    rfl

/-- The rounds of a block do what rounds on its items do. -/
theorem rounds_items {items : List (List UInt8)} {s : σ}
    {result : EStateM.Result ExecutionCause σ Unit}
    (h : OnItems (fun s r => round s = r) items s result) (rest : Input) :
    TookAll rest result
      (rounds round items.length (rest.prepend items.flatten, s)) := by
  induction h with
  | done s => rfl
  | @next item items s t result hitem _ ih =>
    rw [List.flatten_cons, Input.prepend_append, List.length_cons,
      rounds_ok (hitem _)]
    exact ih
  | @fail item items s t cause hitem =>
    obtain ⟨left, hround⟩ := hitem (rest.prepend items.flatten)
    rw [List.flatten_cons, Input.prepend_append, List.length_cons]
    exact ⟨left, rounds_error hround _⟩

/-- **A loop over blocks does what rounds on the items do**, whatever the
chunks are. Every chunk takes a byte, so the loop is allowed as many blocks as
there are chunks. -/
theorem blocks_chunked {items : List (List UInt8)} {bytes : List UInt8}
    (hchunks : Chunked items bytes) {s : σ}
    {result : EStateM.Result ExecutionCause σ Unit}
    (h : OnItems (fun s r => round s = r) items s result) (rest : Input) :
    TookAll rest result (blocks round (rest.prepend bytes, s)) := by
  have hwithin : ∀ more, bytes.length ≤ more →
      TookAll rest result
        (blocksWithin round (more + 1) (rest.prepend bytes, s)) := by
    induction hchunks generalizing s with
    | @done bytes hzero =>
      intro more _
      have hcount : blockCount (rest.prepend bytes, s) = .ok 0 (rest, s) := by
        rw [blockCount, bind_ok (reading_ok (hzero rest))]
        rfl
      cases h
      rw [blocksWithin, bind_ok hcount, if_pos rfl]
      rfl
    | @chunk items others n header bytes hheader hcount _ ih =>
      intro more hmore
      rw [List.length_append, List.length_append] at hmore
      have hlength := hheader.length_pos
      obtain ⟨more, rfl⟩ : ∃ m, more = m + 1 := ⟨more - 1, by omega⟩
      have hread := blockCount_header hheader
        ((rest.prepend bytes).prepend items.flatten) s
      rw [List.append_assoc, Input.prepend_append, Input.prepend_append,
        blocksWithin, bind_ok hread,
        if_neg (Nat.ne_of_gt hheader.natAbs_pos), hcount]
      rcases h.of_append with ⟨t, hitems, hothers⟩ | ⟨cause, t, rfl, hitems⟩
      · have hrounds := rounds_items hitems (rest.prepend bytes)
        rw [bind_ok hrounds]
        exact ih hothers more (by omega)
      · obtain ⟨left, hrounds⟩ := rounds_items hitems (rest.prepend bytes)
        exact ⟨left, bind_error hrounds⟩
  exact hwithin _ (by
    show bytes.length ≤ (bytes ++ rest.rest).length
    rw [List.length_append]
    exact Nat.le_add_right _ _)

end Running

end Avro
