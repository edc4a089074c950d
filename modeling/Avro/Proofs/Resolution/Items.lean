import Avro.Proofs.Plan.Chunks
import Avro.Proofs.Resolution.Covering

/-!
# Loops over items

A plan has a loop over blocks where it delivers or discards an array or a map
(`Plan.LoopOver`). The items of the loop are data of the type of the items, for
a map behind a key (`Schema.Item`).

A round of the loop takes an item as a whole, or fails inside it, and which of
the two depends on nothing but the item and the sink
(`Plan.LoopOver.exists_onItems`). That a round goes no further than its item is
seen by comparing it with skipping, which covers it; that it does not look
further is what it means to be local.
-/

namespace Avro

open Running (CoveredBy)
open Decoding (Takes onInput deeper)

namespace Running

variable {σ : Type} {round : Running σ Unit}

/-- **A round on an item**: one that is covered by what takes the item takes it
as well or fails, whatever comes after the item. -/
theorem exists_round (hlocal : round.Local)
    {m : EStateM ExecutionCause Input Unit}
    (hcovered : CoveredBy (fun _ _ => True) round
      (onInput m : Running Unit Unit)) {item : List UInt8}
    (hitem : ∀ input : Input, m (input.prepend item) = .ok () input) (s : σ) :
    (∃ t, ∀ rest : Input, round (rest.prepend item, s) = .ok () (rest, t))
      ∨ ∃ cause t, ∀ rest : Input, ∃ left,
        round (rest.prepend item, s) = .error cause (left, t) := by
  have h := hcovered ((Input.ofBytes []).prepend item) s ()
  have hleft := hlocal.consumes ((Input.ofBytes []).prepend item, s)
  cases hr : round ((Input.ofBytes []).prepend item, s) with
  | ok _ u =>
    rw [hr] at h
    obtain ⟨b, t', hm, -⟩ := h
    obtain ⟨left, t⟩ := u
    have hm := Decoding.eq_ok_of_onInput hm
    rw [hitem] at hm
    obtain rfl : Input.ofBytes [] = left := (EStateM.Result.ok.inj hm).2
    have hr : round ((Input.ofBytes []).prepend item, s)
        = .ok () ((Input.ofBytes []).prepend [], t) := hr
    exact .inl ⟨t, hlocal.ok hr⟩
  | error cause u =>
    rw [hr] at h hleft
    obtain ⟨left, t⟩ := u
    obtain ⟨kept, rfl⟩ : ∃ kept, left = (Input.ofBytes []).prepend kept := by
      obtain ⟨rest, ending⟩ := left
      obtain rfl : ending = .endOfInput := hleft.2
      exact ⟨rest, congrArg (Input.mk · _) (List.append_nil rest).symm⟩
    -- the round has not failed at the end, since skipping takes the item
    have hcause : cause ≠ .decode (Input.ofBytes []).ending.error := by
      rintro rfl
      obtain ⟨t', hm⟩ := h ⟨_, rfl⟩
      have hm := Decoding.eq_error_of_onInput hm
      rw [hitem] at hm
      exact absurd hm (by simp)
    exact .inr ⟨cause, t, fun rest => ⟨_, hlocal.error hcause hr rest⟩⟩

/-- Rounds that take their items or fail do so one after another. -/
theorem exists_onItems {items : List (List UInt8)}
    (h : ∀ item ∈ items, ∀ s,
      (∃ t, ∀ rest : Input, round (rest.prepend item, s) = .ok () (rest, t))
        ∨ ∃ cause t, ∀ rest : Input, ∃ left,
          round (rest.prepend item, s) = .error cause (left, t)) (s : σ) :
    ∃ result, OnItems (fun s r => round s = r) items s result := by
  induction items generalizing s with
  | nil => exact ⟨_, .done s⟩
  | cons item items ih =>
    rcases h item List.mem_cons_self s with ⟨t, hitem⟩ | ⟨cause, t, hitem⟩
    · obtain ⟨result, hitems⟩ :=
        ih (fun item hmem => h item (List.mem_cons_of_mem _ hmem)) t
      exact ⟨result, .next hitem hitems⟩
    · exact ⟨_, .fail hitem⟩

end Running

/-! ## Items -/

/-- **An item** of an array, or an entry of a map: a key and then data. -/
def Schema.Item (s : Schema) : TypeExpr → List UInt8 → Prop
  | .array t, bytes => s.Data t bytes
  | .map t, bytes => ∃ key value text, bytes = key ++ value
    ∧ Reads Wire.readBytes key text ∧ s.Data t value
  | _, _ => False

/-- Drops an item. -/
def skipItem (limit : Nat) (writer : Schema) (depth : Nat) :
    TypeExpr → Decoding Unit
  | .array t => skip limit writer depth t
  | .map t => do
    Kind.bytes.skip
    skip limit writer depth t
  | _ => .rejected

/-- Dropping an item takes it. -/
theorem Schema.Item.takes_skip {writer : Schema} :
    ∀ {t : TypeExpr} {item : List UInt8}, writer.Item t item →
      Takes (fun limit depth => skipItem limit writer depth t) item (.ok ())
  | .array _, _, h => Schema.Data.takes_skip h
  | .map _, _, ⟨_, _, _, heq, hkey, hvalue⟩ => by
    rw [heq]
    have hkey : Reads Kind.bytes.readValue _ _ := hkey.map Value.bytes
    exact (Kind.takes_skip hkey).bind fun _ _ => hvalue.takes_skip
  | .primitive _, _, h | .named _, _, h | .union _, _, h => h.elim

namespace Plan

section

variable (writer reader : Schema)

/-- **A plan is a loop over a type** of the writer: it delivers an array or a
map, or discards one. -/
inductive LoopOver : Plan → TypeExpr → Prop
  /-- An array is delivered. -/
  | deliverArray (w r : TypeExpr) (label : String) :
    LoopOver (deliver writer (.array w) reader (.array r) label) (.array w)
  /-- A map is delivered. -/
  | deliverMap (w r : TypeExpr) (label : String) :
    LoopOver (deliver writer (.map w) reader (.map r) label) (.map w)
  /-- An array is discarded. -/
  | discardArray (w : TypeExpr) (label : String) :
    LoopOver (discard writer (.array w) label) (.array w)
  /-- A map is discarded. -/
  | discardMap (w : TypeExpr) (label : String) :
    LoopOver (discard writer (.map w) label) (.map w)

end

variable {writer reader : Schema} {R : Demand → Prop} {body : Demand → Plan}
  {plan : Plan} {t : TypeExpr}

/-- Delivering an array is a loop. -/
theorem deliver_array (w r : TypeExpr) (label : String) :
    deliver writer (.array w) reader (.array r) label
      = .blocks label (.within ⟨.appendArray, 0, label⟩ label
        (deliver writer w reader r (partLabel label))) := by
  rw [deliver, choosing_leaf rfl]

/-- Delivering a map is a loop. -/
theorem deliver_map (w r : TypeExpr) (label : String) :
    deliver writer (.map w) reader (.map r) label
      = .blocks label (.seq (read .string (keyLabel label))
        (.within ⟨.appendMap, 0, label⟩ label
          (deliver writer w reader r (partLabel label)))) := by
  rw [deliver, choosing_leaf rfl]

/-- **A round of a loop is covered by dropping an item.** -/
theorem LoopOver.covered (hwriter : writer.Fits)
    (hreads : ReadsDemands writer reader body R)
    (h : LoopOver writer reader plan t) (ht : t.Fits)
    (haccepted : Accepted R plan) :
    ∃ label inner, plan = .blocks label inner
      ∧ ∀ {σ : Type} {k : Sink σ} {limit depth l l' : Nat}, l ≤ depth →
        l ≤ l' →
        Covered k limit l l' body inner (skipItem limit writer depth t) := by
  cases h with
  | deliverArray w r label =>
    rw [deliver_array] at haccepted ⊢
    refine ⟨_, _, rfl, fun hdepth hle => .within (.inr (.inl rfl))
      (fun l hl => ?_) label⟩
    exact covered_deliver hwriter hreads w r _ ht haccepted (by omega)
      (by omega)
  | deliverMap w r label =>
    rw [deliver_map] at haccepted ⊢
    refine ⟨_, _, rfl, fun hdepth hle => .seq (.read rfl .string _)
      (.within (.inr (.inr rfl)) (fun l hl => ?_) label)⟩
    exact covered_deliver hwriter hreads w r _ ht haccepted.2 (by omega)
      (by omega)
  | discardArray w label =>
    rw [discard] at haccepted ⊢
    exact ⟨_, _, rfl, fun hdepth hle =>
      covered_discard hwriter hreads w _ haccepted hdepth hle⟩
  | discardMap w label =>
    rw [discard] at haccepted ⊢
    exact ⟨_, _, rfl, fun hdepth hle => .seq (.read rfl (.refl _) _)
      (covered_discard hwriter hreads w _ haccepted.2 hdepth hle)⟩

/-- **The rounds of a loop take their items or fail**, whatever the sink is. -/
theorem LoopOver.exists_onItems (hwriter : writer.Fits)
    (hreads : ReadsDemands writer reader body R)
    (h : LoopOver writer reader plan t) (ht : t.Fits)
    (haccepted : Accepted R plan) :
    ∃ label inner, plan = .blocks label inner
      ∧ ∀ {σ : Type} (k : Sink σ) (limit levels : Nat)
        {items : List (List UInt8)}, (∀ item ∈ items, writer.Item t item) →
        ∀ s, ∃ result, OnItems (fun s r =>
          beneath limit (evalBelow k limit body levels) inner s = r) items s
          result := by
  obtain ⟨label, inner, heq, hcovered⟩ :=
    h.covered hwriter hreads ht haccepted
  refine ⟨label, inner, heq, fun {σ} k limit levels {items} hitems s =>
    Running.exists_onItems (fun item hitem => ?_) s⟩
  -- dropping the item may use as many levels as it needs
  obtain ⟨enough, htakes⟩ := (hitems item hitem).takes_skip.deeper
  have htakes := htakes limit (max enough levels) (max enough levels)
    (Nat.le_max_left _ _) (Nat.le_max_left _ _)
  have hle : levels ≤ max enough levels := Nat.le_max_right _ _
  exact Running.exists_round (beneath_evalBelow_local levels inner)
    (Covered.beneath hle fun l l' hl hl' => hcovered (by omega) hl') htakes

end Plan

end Avro
