import Avro.Proofs.Decoding.Delivering
import Avro.Proofs.Plan.Chunks

/-!
# Entries that are delivered

The rounds of a loop that delivers a map, run on a builder, each leave an entry
in front of the entries that are there already and do not look at these
(`Plan.leavesEntry_beneath`). After the rounds on some items the builder
therefore has the entries of the items, each of which an item leaves on its own
(`OnItems.entries`).

A value of the builder is the map of the entries read one by one, so of a
repeated key the last entry stays (`OnItems.value?_entries`).
-/

namespace Avro

/-! ## Values of entries -/

namespace Builder

/-- The values of entries are those of the builders under the keys. -/
theorem forall₂_of_entryValues {s : Schema} :
    ∀ {entries : List (String × Builder)} {pairs : List (String × Value)},
      entryValues s entries = .ok pairs →
      List.Forall₂ (fun x y => x.1 = y.1 ∧ x.2.value? s = .ok y.2) entries
        pairs
  | [], pairs, h => by
    rw [entryValues] at h
    rw [← Except.ok.inj h]
    exact .nil
  | (key, entry) :: earlier, pairs, h => by
    rw [entryValues] at h
    cases he : entryValues s earlier with
    | error e => rw [he] at h; exact absurd h (by simp)
    | ok values =>
      rw [he] at h
      cases hv : value? s entry with
      | error e => rw [hv] at h; cases h
      | ok v =>
        rw [hv] at h
        rw [← Except.ok.inj h]
        exact .cons ⟨rfl, hv⟩ (forall₂_of_entryValues he)

/-- The value of a map that received entries. -/
theorem value?_map {s : Schema} {t : TypeExpr}
    {latest : List (String × Builder)} {v : Value}
    (h : (map t latest).value? s = .ok v) :
    ∃ pairs, entryValues s latest = .ok pairs
      ∧ v = .map (Entries.ofList pairs.reverse) := by
  rw [value?] at h
  cases he : entryValues s latest with
  | error e => rw [he] at h; cases h
  | ok pairs =>
    rw [he] at h
    exact ⟨pairs, rfl, (Except.ok.inj h).symm⟩

/-- The value of a map that received one entry. -/
theorem value?_map_single {s : Schema} {t : TypeExpr} {key : String}
    {entry : Builder} {v : Value} (h : entry.value? s = .ok v) :
    (map t [(key, entry)]).value? s = .ok (.map [(key, v)]) := by
  rw [value?, entryValues, entryValues]
  simp only [h]
  rfl

end Builder

/-! ## Rounds that leave entries -/

/-- **A round leaves an entry** if it succeeds on the builder of a map, in front
of whatever entries there are. -/
def Running.LeavesEntry (r : TypeExpr) (round : Running Builder Unit) : Prop :=
  ∀ input latest,
    match round (input, .map r latest) with
    | .error _ _ => True
    | .ok _ u => ∃ x, ∀ latest',
      round (input, .map r latest') = .ok () (u.1, .map r (x :: latest'))

namespace Plan

variable {reader : Schema} {limit levels : Nat} {body : Demand → Plan}
  {label label' : String} {inner : Plan} {r : TypeExpr}

/-- What is opened in a map starts afresh, whatever the map has received. -/
theorem opened_appendMap (part : Running Builder Unit) (frame : Frame)
    (input : Input) (latest : List (String × Builder)) :
    opened (Builder.sink reader) ⟨.appendMap, 0, label⟩ part frame
        (input, .map r latest)
      = match part (input, Builder.fresh reader r) with
        | .ok () t => .ok { frame with string := "" }
          (t.1, .map r ((frame.string, t.2) :: latest))
        | .error cause t => .error cause
          (t.1, .map r ((frame.string, t.2) :: latest)) := by
  have hstep : step [] (Builder.sink reader) ⟨.appendMap, 0, label⟩ 0 frame
      input (.map r latest)
      = .descend 1 (Builder.fresh reader r)
        (fun child => .map r ((frame.string, child) :: latest)) (· + 1)
        { frame with string := "" } input := rfl
  unfold opened
  simp only [hstep]
  cases part (input, Builder.fresh reader r) <;> rfl

/-- The plan of a round that reads a key and delivers under it. -/
def entry (label label' : String) (inner : Plan) : Plan :=
  .seq (read .string label) (.within ⟨.appendMap, 0, label'⟩ label' inner)

/-- A key is read, and what is opened under it is run. -/
theorem eval_entry (frame : Frame) (input : Input)
    (latest : List (String × Builder)) :
    eval (Builder.sink reader) limit body levels (entry label label' inner)
        frame (input, .map r latest)
      = match Kind.string.readValue input with
        | .error e left => .error (.decode e) (left, .map r latest)
        | .ok v left =>
          opened (Builder.sink reader) ⟨.appendMap, 0, label'⟩
            (beneathPart (Builder.sink reader) limit
              (evalBelow (Builder.sink reader) limit body levels) inner)
            (frame.after .string v) (left, .map r latest) := by
  have hkind : Kind.ofOperand? Kind.string.operand = some .string := rfl
  rw [entry, eval_read_seq hkind]
  cases Kind.string.readValue input with
  | error e left => rfl
  | ok v left =>
    dsimp only
    rw [eval_eq, evalWith]

/-- **A round that delivers under a key leaves an entry.** -/
theorem leavesEntry_beneath : Running.LeavesEntry r
    (beneath limit (evalBelow (Builder.sink reader) limit body levels)
      (entry label label' inner)) := by
  intro input latest
  cases levels with
  | zero => trivial
  | succ l =>
    have hround : ∀ latest, beneath limit
        (evalBelow (Builder.sink reader) limit body (l + 1))
        (entry label label' inner) (input, .map r latest)
        = (do
          let _ ← eval (Builder.sink reader) limit body l
            (entry label label' inner) .blank
          return ()) (input, .map r latest) := fun _ => rfl
    simp only [hround, bind, EStateM.bind, eval_entry, opened_appendMap]
    cases Kind.string.readValue input with
    | error e left => trivial
    | ok v left =>
      dsimp only
      cases beneathPart (Builder.sink reader) limit
          (evalBelow (Builder.sink reader) limit body l) inner
          (left, Builder.fresh reader r) with
      | error cause t => trivial
      | ok _ t => exact ⟨_, fun latest' => rfl⟩

end Plan

/-! ## Rounds on items -/

namespace OnItems

variable {reader : Schema} {r : TypeExpr} {items : List (List UInt8)}
  {round : Running Builder Unit} {latest : List (String × Builder)}
  {b : Builder}

/-- **Rounds that leave an entry each** leave the entries of their items, each
of which an item leaves on its own. -/
theorem entries (hround : round.LeavesEntry r)
    (h : OnItems (fun s r => round s = r) items (.map r latest) (.ok () b)) :
    ∃ entries, b = .map r (entries.reverse ++ latest)
      ∧ List.Forall₂ (fun item x => OnItems (fun s r => round s = r) [item]
        (.map r []) (.ok () (.map r [x]))) items entries := by
  induction items generalizing latest with
  | nil =>
    cases h
    exact ⟨[], rfl, .nil⟩
  | cons item items ih =>
    cases h with
    | @next _ _ _ t _ hitem h =>
    have hentry : ∀ rest : Input, ∃ x, t = .map r (x :: latest)
        ∧ round (rest.prepend item, .map r []) = .ok () (rest, .map r [x]) :=
      fun rest => by
        have h := hround (rest.prepend item) latest
        rw [hitem rest] at h
        obtain ⟨x, h⟩ := h
        have hsame := (hitem rest).symm.trans (h latest)
        exact ⟨x, (Prod.mk.inj (EStateM.Result.ok.inj hsame).2).2, h []⟩
    obtain ⟨x, rfl, -⟩ := hentry (.ofBytes [])
    obtain ⟨entries, rfl, hall⟩ := ih h
    refine ⟨x :: entries, ?_, .cons (.next (fun rest => ?_) (.done _)) hall⟩
    · rw [List.reverse_cons, List.append_assoc]
      rfl
    · obtain ⟨y, hy, hround⟩ := hentry rest
      obtain ⟨rfl, -⟩ := List.cons.inj (Builder.map.inj hy).2
      exact hround

/-- **A value of the entries** is that of the entries read one by one. -/
theorem value?_entries {v : Value} (hround : round.LeavesEntry r)
    (h : OnItems (fun s r => round s = r) items (.map r []) (.ok () b))
    (hv : b.value? reader = .ok v) :
    ∃ pairs, v = .map (Entries.ofList pairs)
      ∧ List.Forall₂ (fun item x => ∃ b', OnItems (fun s r => round s = r)
        [item] (.map r []) (.ok () b')
        ∧ b'.value? reader = .ok (.map [x])) items pairs := by
  obtain ⟨entries, rfl, hentries⟩ := h.entries hround
  rw [List.append_nil] at hv
  obtain ⟨pairs, hpairs, rfl⟩ := Builder.value?_map hv
  refine ⟨pairs.reverse, rfl, ?_⟩
  have hvalues := List.rel_reverse (Builder.forall₂_of_entryValues hpairs)
  rw [List.reverse_reverse] at hvalues
  clear hpairs hv h
  generalize pairs.reverse = pairs at hvalues ⊢
  induction hentries generalizing pairs with
  | nil => cases hvalues; exact .nil
  | @cons item x items entries hitem _ ih =>
    cases hvalues with
    | cons hxy hvalues =>
      obtain ⟨key, entry⟩ := x
      obtain ⟨rfl, hvalue⟩ := hxy
      exact .cons ⟨_, hitem, Builder.value?_map_single hvalue⟩ (ih _ hvalues)

end OnItems

end Avro
