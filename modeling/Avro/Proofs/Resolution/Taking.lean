import Avro.Proofs.Plan.Chunks
import Avro.Proofs.Resolution.Basic

/-!
# Computations that take bytes

A computation takes bytes for a result if, with these bytes in front of any
input, it gives the result and leaves the input, or fails with the cause of
the result's error (`Decoding.Takes`). It may need levels and a depth of
records; enough of them are asked for, since every value nests finitely deep.

There is a rule for everything that decoding is made of, so that what is
decoded from an encoded value is found by going through the value.
-/

namespace Avro

/-- Values that are all kept are kept as a list. -/
theorem mapM_eq_ok {α : Type} {f : α → Resolved α} :
    ∀ {items : List α}, (∀ a ∈ items, f a = .ok a) → items.mapM f = .ok items
  | [], _ => rfl
  | a :: rest, h => by
    rw [List.mapM_cons, h a List.mem_cons_self,
      mapM_eq_ok fun b hb => h b (List.mem_cons_of_mem _ hb)]
    rfl

namespace Decoding

variable {α β : Type}

/-- What a computation does with an input that has some bytes in front. -/
def TakesAt (m : Decoding α) (levels : Nat) (bytes : List UInt8)
    (result : Resolved α) : Prop :=
  ∀ input : Input, match result with
    | .ok a => m levels (input.prepend bytes) = .ok a input
    | .error e => ∃ left, m levels (input.prepend bytes) = .error e.cause left

/-- **A computation takes bytes for a result**, whatever the limit on levels is,
if the depth of records and the levels that are left are great enough. -/
def Takes (m : (limit depth : Nat) → Decoding α) (bytes : List UInt8)
    (result : Resolved α) : Prop :=
  ∃ enough, ∀ limit depth levels, enough ≤ depth → enough ≤ levels →
    TakesAt (m limit depth) levels bytes result

theorem TakesAt.bind {m : Decoding α} {f : α → Decoding β} {levels : Nat}
    {bytes bytes' : List UInt8} {result : Resolved α}
    {result' : α → Resolved β} (hm : TakesAt m levels bytes result)
    (hf : ∀ a, result = .ok a → TakesAt (f a) levels bytes' (result' a)) :
    TakesAt (m >>= f) levels (bytes ++ bytes') (result >>= result') := by
  intro input
  have h := hm (input.prepend bytes')
  rw [Input.prepend_append]
  cases result with
  | error e =>
    obtain ⟨left, h⟩ := h
    exact ⟨left, bind_error h⟩
  | ok a =>
    rw [bind_ok h]
    exact hf a rfl input

namespace Takes

variable {m : (limit depth : Nat) → Decoding α} {bytes bytes' : List UInt8}
  {result : Resolved α}

/-- A computation that is the same with every depth from some depth on. -/
theorem congr {m' : (limit depth : Nat) → Decoding α}
    (h : Takes m bytes result) (heq : ∀ limit depth, m' limit depth
      = m limit depth) : Takes m' bytes result := by
  have hfun : m' = m := funext fun limit => funext fun depth => heq limit depth
  rw [hfun]
  exact h

theorem pure (a : α) :
    Takes (fun _ _ => Pure.pure a) [] (.ok a) :=
  ⟨0, fun _ _ _ _ _ _ => rfl⟩

/-- A stop with the message of an error. -/
theorem stop {message : String} {e : ResolutionError}
    (h : e.cause = .halt message) (bytes : List UInt8) :
    Takes (fun _ _ => (Decoding.stop message : Decoding α)) bytes
      (.error e) :=
  ⟨0, fun _ _ _ _ _ input => ⟨input.prepend bytes, by rw [h]; rfl⟩⟩

theorem rejected (bytes : List UInt8) :
    Takes (fun _ _ => (Decoding.rejected : Decoding α)) bytes
      (.error .mismatch) :=
  stop rfl bytes

/-- A read that reads the bytes. -/
theorem reading {read : Read α} {a : α} (h : Reads read bytes a) :
    Takes (fun _ _ => Decoding.reading read) bytes (.ok a) :=
  ⟨0, fun _ _ levels _ _ input => reading_ok (h input) levels⟩

/-- A read that fails on the bytes. -/
theorem reading_fails {read : Read α} {e : ResolutionError}
    {fault : DecodeError} (hcause : e.cause = .decode fault)
    (h : ∀ input : Input, ∃ left,
      read (input.prepend bytes) = .error fault left) :
    Takes (fun _ _ => Decoding.reading read) bytes (.error e) := by
  refine ⟨0, fun _ _ levels _ _ input => ?_⟩
  obtain ⟨left, h⟩ := h input
  exact ⟨left, by rw [hcause]; exact reading_error h levels⟩

/-- **One computation after another** takes the bytes of both. -/
theorem bind {f : α → (limit depth : Nat) → Decoding β}
    {g : α → Resolved β} (hm : Takes m bytes result)
    (hf : ∀ a, result = .ok a → Takes (f a) bytes' (g a)) :
    Takes (fun limit depth => m limit depth >>= fun a => f a limit depth)
      (bytes ++ bytes') (result >>= g) := by
  obtain ⟨enough, hm⟩ := hm
  cases result with
  | error e =>
    exact ⟨enough, fun limit depth levels hdepth hlevels =>
      (hm limit depth levels hdepth hlevels).bind nofun⟩
  | ok a =>
    obtain ⟨enough', hf⟩ := hf a rfl
    refine ⟨max enough enough', fun limit depth levels hdepth hlevels => ?_⟩
    refine (hm limit depth levels (by omega) (by omega)).bind ?_
    rintro _ ⟨⟩
    exact hf limit depth levels (by omega) (by omega)

/-- What is made of the value takes no bytes. -/
theorem map (hm : Takes m bytes result) (f : α → β) :
    Takes (fun limit depth => do return f (← m limit depth)) bytes
      (result.map f) := by
  have h := hm.bind (f := fun a _ _ => Pure.pure (f a)) fun a _ => pure (f a)
  rw [List.append_nil] at h
  cases result with
  | error e => exact h
  | ok a => exact h

/-- **A level below** asks for a level more. -/
theorem deeper (hm : Takes m bytes result) :
    Takes (fun limit depth => Decoding.deeper limit (m limit depth)) bytes
      result := by
  obtain ⟨enough, hm⟩ := hm
  refine ⟨enough + 1, fun limit depth levels hdepth hlevels => ?_⟩
  obtain ⟨levels, rfl⟩ : ∃ l, levels = l + 1 := ⟨levels - 1, by omega⟩
  exact hm limit depth levels (by omega) (by omega)

/-- **A record below** asks for a depth more. -/
theorem descend {f : (limit depth : Nat) → Decoding α}
    (hm : Takes m bytes result) (heq : ∀ limit depth, f limit (depth + 1)
      = m limit depth) : Takes f bytes result := by
  obtain ⟨enough, hm⟩ := hm
  refine ⟨enough + 1, fun limit depth levels hdepth hlevels => ?_⟩
  obtain ⟨depth, rfl⟩ : ∃ d, depth = d + 1 := ⟨depth - 1, by omega⟩
  rw [heq]
  exact hm limit depth levels (by omega) (by omega)

/-- A level below, unless there is null. -/
theorem entered (hm : Takes m bytes result) (r : TypeExpr) :
    Takes (fun limit depth => Decoding.entered limit r (m limit depth)) bytes
      result := by
  unfold Decoding.entered
  split
  · exact hm
  · exact hm.deeper

end Takes

/-! ## Selecting a branch -/

section

variable {pick : List TypeExpr → Option Nat}
  {leaf : (limit depth : Nat) → TypeExpr → Decoding Value}
  {leaf' : TypeExpr → Resolved Value} {bytes : List UInt8}

mutual

/-- **Selecting a branch** takes what the type that is reached takes. -/
theorem takes_select (hleaf : ∀ t, t.isUnion = false →
      Takes (fun limit depth => leaf limit depth t) bytes (leaf' t)) :
    ∀ r : TypeExpr, Takes
      (fun limit depth => r.select .rejected (Decoding.entered limit) pick
        (leaf limit depth)) bytes
      (r.select (.error .mismatch) (fun _ v => v) pick leaf')
  | .union branches => by
    simp only [TypeExpr.select]
    cases pick branches with
    | none => exact .rejected bytes
    | some index => exact takes_selectFrom hleaf index index branches
  | .primitive p => by
    simp only [TypeExpr.select_leaf _ _ _ _ (rfl :
      (TypeExpr.primitive p).isUnion = false)]
    exact hleaf _ rfl
  | .array items => by
    simp only [TypeExpr.select_leaf _ _ _ _ (rfl :
      (TypeExpr.array items).isUnion = false)]
    exact hleaf _ rfl
  | .map values => by
    simp only [TypeExpr.select_leaf _ _ _ _ (rfl :
      (TypeExpr.map values).isUnion = false)]
    exact hleaf _ rfl
  | .named name => by
    simp only [TypeExpr.select_leaf _ _ _ _ (rfl :
      (TypeExpr.named name).isUnion = false)]
    exact hleaf _ rfl

theorem takes_selectFrom (hleaf : ∀ t, t.isUnion = false →
      Takes (fun limit depth => leaf limit depth t) bytes (leaf' t))
    (index : Nat) :
    ∀ (position : Nat) (branches : List TypeExpr), Takes
      (fun limit depth => TypeExpr.selectFrom .rejected
        (Decoding.entered limit) pick (leaf limit depth) index position
        branches) bytes
      (TypeExpr.selectFrom (.error .mismatch) (fun _ v => v) pick leaf' index
        position branches)
  | position, [] => by
    simp only [TypeExpr.selectFrom]
    exact .rejected bytes
  | 0, branch :: rest => by
    simp only [TypeExpr.selectFrom]
    exact ((takes_select hleaf branch).entered branch).map (Value.union index)
  | position + 1, branch :: rest => by
    simp only [TypeExpr.selectFrom]
    exact takes_selectFrom hleaf index position rest

end

end

/-! ## Blocks -/

/-- **Rounds that collect** keep what is taken from the items, up to the first
item that fails. -/
theorem onItems_collecting {item : EStateM ExecutionCause Input α}
    {bytes : β → List UInt8} {result : β → Resolved α} :
    ∀ (items : List β) (before : List α),
      (∀ i ∈ items, ∀ input : Input, match result i with
        | .ok a => item (input.prepend (bytes i)) = .ok a input
        | .error e => ∃ left,
          item (input.prepend (bytes i)) = .error e.cause left) →
      match items.mapM result with
      | .ok found => OnItems (fun s r => collecting item s = r)
          (items.map bytes) before (.ok () (found.reverse ++ before))
      | .error e => ∃ kept, OnItems (fun s r => collecting item s = r)
          (items.map bytes) before (.error e.cause kept)
  | [], before, _ => .done before
  | i :: rest, before, h => by
    have hi := h i List.mem_cons_self
    rw [List.mapM_cons, List.map_cons]
    cases hr : result i with
    | error e =>
      simp only [hr] at hi
      refine ⟨before, .fail fun input => ?_⟩
      obtain ⟨left, hi⟩ := hi input
      exact ⟨left, by simp only [collecting, hi]⟩
    | ok a =>
      simp only [hr] at hi
      have hround : ∀ input : Input, collecting item
          (input.prepend (bytes i), before) = .ok () (input, a :: before) :=
        fun input => by simp only [collecting, hi input]
      have ih := onItems_collecting rest (a :: before)
        fun j hj => h j (List.mem_cons_of_mem _ hj)
      cases hrest : rest.mapM result with
      | error e =>
        rw [hrest] at ih
        obtain ⟨kept, ih⟩ := ih
        exact ⟨kept, .next hround ih⟩
      | ok found =>
        rw [hrest] at ih
        show OnItems _ _ _ (.ok () ((a :: found).reverse ++ before))
        rw [List.reverse_cons, List.append_assoc]
        exact .next hround ih

/-- There are levels enough for every item of a list. -/
theorem exists_enough {m : (limit depth : Nat) → Decoding α}
    {bytes : β → List UInt8} {result : β → Resolved α} :
    ∀ items : List β, (∀ i ∈ items, Takes m (bytes i) (result i)) →
      ∃ enough, ∀ i ∈ items, ∀ limit depth levels, enough ≤ depth →
        enough ≤ levels → TakesAt (m limit depth) levels (bytes i) (result i)
  | [], _ => ⟨0, nofun⟩
  | i :: rest, h => by
    obtain ⟨enough, hi⟩ := h i List.mem_cons_self
    obtain ⟨others, hrest⟩ := exists_enough rest
      fun j hj => h j (List.mem_cons_of_mem _ hj)
    refine ⟨max enough others, fun j hj limit depth levels hd hl => ?_⟩
    rcases List.mem_cons.mp hj with rfl | hj
    · exact hi limit depth levels (by omega) (by omega)
    · exact hrest j hj limit depth levels (by omega) (by omega)

/-- **The items of blocks** take the bytes of the items, whatever the chunks
are. -/
theorem Takes.chunked {m : (limit depth : Nat) → Decoding α}
    {bytes : β → List UInt8} {result : β → Resolved α} {items : List β}
    {all : List UInt8} (hchunks : Wire.Chunked (items.map bytes) all)
    (h : ∀ i ∈ items, Takes m (bytes i) (result i)) :
    Takes (fun limit depth => Decoding.blocks limit (m limit depth)) all
      (items.mapM result) := by
  obtain ⟨enough, h⟩ := exists_enough items h
  refine ⟨enough + 1, fun limit depth levels hdepth hlevels input => ?_⟩
  obtain ⟨levels, rfl⟩ : ∃ l, levels = l + 1 := ⟨levels - 1, by omega⟩
  have hitems := @onItems_collecting _ _
    (Decoding.deeper limit (m limit depth) (levels + 1)) bytes result items []
    fun i hi => h i hi limit depth levels (by omega) (by omega)
  cases hr : items.mapM result with
  | error e =>
    rw [hr] at hitems
    obtain ⟨kept, hitems⟩ := hitems
    obtain ⟨left, hblocks⟩ := Running.blocks_chunked hchunks hitems input
    exact ⟨left, by simp only [Decoding.blocks, hblocks]⟩
  | ok found =>
    rw [hr] at hitems
    have hblocks : Running.blocks _ _ = _ :=
      Running.blocks_chunked hchunks hitems input
    simp only [Decoding.blocks, hblocks, List.append_nil, List.reverse_reverse]

/-- The items of blocks take the bytes of one block. -/
theorem Takes.blocks {m : (limit depth : Nat) → Decoding α}
    {bytes : β → List UInt8} {result : β → Resolved α} {items : List β}
    (hcount : items.length < 0x8000000000000000)
    (h : ∀ i ∈ items, Takes m (bytes i) (result i)) :
    Takes (fun limit depth => Decoding.blocks limit (m limit depth))
      (Wire.block items.length (items.flatMap bytes)) (items.mapM result) :=
  .chunked (Wire.chunked_flatMap hcount bytes) h

end Decoding

end Avro
