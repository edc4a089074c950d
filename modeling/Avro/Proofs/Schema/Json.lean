import Avro.Json.Parser
import Avro.Proofs.Value.Defaults

/-!
# What JSON that is read is like

Reading an object inserts its members one by one, so the members of every
object in a JSON value that was read are sorted by key (`Json.parse_ordered`).
An integer is one that fits in 64 bits (`Json.parse_bounded`). Both are
properties that hold of what is read if they hold of its parts (`Json.Kept`).
-/

namespace Avro

/-- The characters of a text that is put together of two. With the characters
of each literal (`String.toList_ofList`), no literal has to be taken apart
where a document is read. -/
theorem toList_append_eq {a b : String} {cs ds : List Char}
    (ha : a.toList = cs) (hb : b.toList = ds) : (a ++ b).toList = cs ++ ds := by
  rw [String.toList_append, ha, hb]

namespace Json

/-- **What a scanner gives** when it succeeds. -/
def Scans {α : Type} (P : α → Prop) (m : Scan α) : Prop :=
  ∀ cs a rest, m cs = .ok (a, rest) → P a

/-- **A property that reading keeps**: it holds of what has no parts, integers
being those that fit in 64 bits, and otherwise if it holds of the parts. -/
structure Kept (P : Json → Prop) : Prop where
  /-- The literal `null`. -/
  null : P .null
  /-- A truth value. -/
  bool : ∀ b, P (.bool b)
  /-- An integer. -/
  integer : ∀ n : Int, n < 0x10000000000000000 → P (.integer n)
  /-- Any other number. -/
  double : ∀ x, P (.double x)
  /-- A string. -/
  string : ∀ s, P (.string s)
  /-- A list. -/
  array : ∀ items, (∀ j ∈ items, P j) → P (.array items)
  /-- Sorted members. -/
  object : ∀ members, Entries.Sorted members → (∀ m ∈ members, P m.2) →
    P (.object members)

/-- A scan that is continued succeeds first. -/
theorem scan_bind_ok {α β : Type} {m : Except Failure (α × List Char)}
    {f : α × List Char → Except Failure (β × List Char)}
    {result : β × List Char} (h : (m >>= f) = .ok result) :
    ∃ first, m = .ok first ∧ f first = .ok result := by
  cases m with
  | error e => exact absurd h (by simp [bind, Except.bind])
  | ok first => exact ⟨first, rfl, h⟩

/-- A scan that has failed gives nothing. -/
theorem failBefore_ne {α : Type} {fault : Fault} {left : List Char}
    {result : α × List Char} : failBefore fault left ≠ .ok result := by
  simp [failBefore]

theorem failAt_ne {α : Type} {fault : Fault} {left : List Char}
    {result : α × List Char} : failAt fault left ≠ .ok result := by
  simp [failAt]

/-- What is scanned first, and in front of the others. -/
theorem Scans.cons {α : Type} {Q : α → Prop} {first : Scan α}
    {others : Scan (List α)} (hfirst : Scans Q first)
    (hothers : Scans (fun as => ∀ a ∈ as, Q a) others) :
    Scans (fun as => ∀ a ∈ as, Q a) fun cs => do
      let a ← first cs
      let as ← others a.2
      return (a.1 :: as.1, as.2) := by
  intro cs as rest h
  obtain ⟨⟨a, left⟩, ha, h⟩ := scan_bind_ok h
  obtain ⟨⟨as, left'⟩, has, h⟩ := scan_bind_ok h
  obtain ⟨rfl, -⟩ := Prod.mk.inj (Except.ok.inj h)
  exact List.forall_mem_cons.mpr
    ⟨hfirst _ _ _ ha, hothers _ _ _ has⟩

section Kept

variable {P : Json → Prop} (hP : Kept P)

/-! ## Literals and numbers -/

theorem literal_kept {value : Json} (h : P value) :
    ∀ expected : List Char, Scans P (literal value expected)
  | [], cs, a, rest, hscan => by
    obtain ⟨rfl, -⟩ := Prod.mk.inj (Except.ok.inj hscan)
    exact h
  | _ :: _, [], a, rest, hscan => absurd hscan failBefore_ne
  | e :: expected, c :: cs, a, rest, hscan => by
    rw [literal] at hscan
    split at hscan
    · exact literal_kept h expected cs a rest hscan
    · exact absurd hscan failAt_ne

include hP

theorem doubleOf_kept (negative : Bool) (significand : Nat)
    (exponent : Int) : Scans P (doubleOf negative significand exponent) := by
  intro cs a rest h
  unfold doubleOf at h
  dsimp only at h
  split at h
  · obtain ⟨rfl, -⟩ := Prod.mk.inj (Except.ok.inj h)
    exact hP.double _
  · exact absurd h failBefore_ne

theorem exponentPart_kept (negative : Bool) (significand : Nat)
    (exponent : Int) :
    Scans P (exponentPart negative significand exponent) := by
  intro cs a rest h
  unfold exponentPart at h
  dsimp only at h
  split at h
  · exact absurd h failBefore_ne
  · split at h
    · split at h
      · exact doubleOf_kept hP _ _ _ _ a rest h
      · -- the sign of the exponent is looked at again
        split at h <;> split at h <;>
          first
          | exact absurd h failBefore_ne
          | (obtain ⟨rfl, -⟩ := Prod.mk.inj (Except.ok.inj h)
             exact hP.double _)
    · exact absurd h failAt_ne

theorem afterFraction_kept (negative : Bool) (significand : Nat)
    (exponent : Int) :
    Scans P (afterFraction negative significand exponent) := by
  intro cs a rest h
  unfold afterFraction at h
  split at h
  · exact exponentPart_kept hP _ _ _ _ a rest h
  · exact exponentPart_kept hP _ _ _ _ a rest h
  · exact doubleOf_kept hP _ _ _ _ a rest h

theorem fractionPart_kept (negative : Bool) (significand : Nat)
    (exponent : Int) :
    Scans P (fractionPart negative significand exponent) := by
  intro cs a rest h
  unfold fractionPart at h
  dsimp only at h
  split at h
  · exact absurd h failBefore_ne
  · exact absurd h failAt_ne
  · exact afterFraction_kept hP _ _ _ _ a rest h

theorem integerOf_kept (negative : Bool) {significand : Nat}
    (h : significand < 0x10000000000000000) :
    P (integerOf negative significand) := by
  unfold integerOf
  split
  · exact hP.integer _ (by omega)
  · split
    · exact hP.double _
    · exact hP.integer _ (by omega)

theorem afterInteger_kept (negative : Bool) {significand : Nat}
    (hfits : significand < 0x10000000000000000) (excess : Nat) :
    Scans P (afterInteger negative significand excess) := by
  intro cs a rest h
  unfold afterInteger at h
  split at h
  · exact fractionPart_kept hP _ _ _ _ a rest h
  · exact exponentPart_kept hP _ _ _ _ a rest h
  · exact exponentPart_kept hP _ _ _ _ a rest h
  · split at h
    · obtain ⟨rfl, -⟩ := Prod.mk.inj (Except.ok.inj h)
      exact integerOf_kept hP _ hfits
    · exact doubleOf_kept hP _ _ _ _ a rest h

omit hP in
/-- The digits that are gathered fit. -/
theorem gather_lt : ∀ {significand : Nat} {digits : List Char},
    significand < 0x10000000000000000 →
    (gather significand digits).1 < 0x10000000000000000
  | _, [], h => h
  | significand, c :: rest, h => by
    rw [gather]
    split
    · rename_i hnext
      exact gather_lt hnext
    · exact h

/-- A number has no parts. -/
theorem number_kept (negative : Bool) :
    Scans P (number negative) := by
  intro cs a rest h
  unfold number at h
  split at h
  · exact absurd h failBefore_ne
  · split at h
    · split at h
      · exact absurd h failAt_ne
      · exact afterInteger_kept hP _ (by decide) _ _ a rest h
    · exact afterInteger_kept hP _ (by decide) _ _ a rest h
  · split at h
    · exact afterInteger_kept hP _ (gather_lt (by decide)) _ _ a rest h
    · exact absurd h failAt_ne

/-! ## Arrays and objects -/

section

variable {item : Scan Json}

omit hP

theorem moreItems_kept (hitem : Scans P item) :
    ∀ fuel, Scans (fun items => ∀ j ∈ items, P j) (moreItems item fuel)
  | 0, cs, a, rest, h => absurd h failBefore_ne
  | fuel + 1, cs, a, rest, h => by
    rw [moreItems] at h
    split at h
    · exact absurd h failBefore_ne
    · obtain ⟨rfl, -⟩ := Prod.mk.inj (Except.ok.inj h)
      exact nofun
    · split at h
      · exact absurd h failBefore_ne
      · exact absurd h failAt_ne
      · exact hitem.cons (moreItems_kept hitem fuel) _ _ _ h
    · exact absurd h failAt_ne

theorem arrayItems_kept (hitem : Scans P item) :
    Scans (fun items => ∀ j ∈ items, P j) (arrayItems item) := by
  intro cs a rest h
  unfold arrayItems at h
  dsimp only at h
  split at h
  · exact absurd h failBefore_ne
  · obtain ⟨rfl, -⟩ := Prod.mk.inj (Except.ok.inj h)
    exact nofun
  · have hmore : Scans (fun items => ∀ j ∈ items, P j)
        fun cs => moreItems item cs.length cs :=
      fun cs => moreItems_kept hitem _ cs
    exact hitem.cons hmore _ _ _ h

theorem member_kept (hitem : Scans P item) :
    Scans (fun m => P m.2) (member item) := by
  intro cs a rest h
  unfold member at h
  obtain ⟨⟨key, rest'⟩, hkey, h⟩ := scan_bind_ok h
  dsimp only at h
  split at h
  · exact absurd h failBefore_ne
  · obtain ⟨⟨value, rest''⟩, hvalue, h⟩ := scan_bind_ok h
    obtain ⟨rfl, -⟩ := Prod.mk.inj (Except.ok.inj h)
    exact hitem _ _ _ hvalue
  · exact absurd h failAt_ne

theorem moreMembers_kept (hitem : Scans P item) :
    ∀ fuel, Scans (fun members => ∀ m ∈ members, P m.2)
      (moreMembers item fuel)
  | 0, cs, a, rest, h => absurd h failBefore_ne
  | fuel + 1, cs, a, rest, h => by
    rw [moreMembers] at h
    split at h
    · exact absurd h failBefore_ne
    · obtain ⟨rfl, -⟩ := Prod.mk.inj (Except.ok.inj h)
      exact nofun
    · split at h
      · exact absurd h failBefore_ne
      · exact (member_kept hitem).cons (moreMembers_kept hitem fuel) _ _ _ h
      · exact absurd h failAt_ne
      · exact absurd h failAt_ne
    · exact absurd h failAt_ne

theorem objectMembers_kept (hitem : Scans P item) :
    Scans (fun members => ∀ m ∈ members, P m.2)
      (objectMembers item) := by
  intro cs a rest h
  unfold objectMembers at h
  dsimp only at h
  split at h
  · exact absurd h failBefore_ne
  · obtain ⟨rfl, -⟩ := Prod.mk.inj (Except.ok.inj h)
    exact nofun
  · have hmore : Scans (fun members => ∀ m ∈ members, P m.2)
        fun cs => moreMembers item cs.length cs :=
      fun cs => moreMembers_kept hitem _ cs
    exact (member_kept hitem).cons hmore _ _ _ h
  · exact absurd h failAt_ne

/-! ## Values -/

include hP

/-- **What is read has the property if its parts have it**: the members of an
object are inserted one by one. -/
theorem valueWith_kept {item : Option (Scan Json)}
    (hitem : ∀ m ∈ item, Scans P m) :
    Scans P (valueWith item) := by
  intro cs a rest h
  unfold valueWith at h
  dsimp only at h
  split at h
  · exact absurd h failBefore_ne
  · exact literal_kept hP.null _ _ a rest h
  · exact literal_kept (hP.bool true) _ _ a rest h
  · exact literal_kept (hP.bool false) _ _ a rest h
  · exact number_kept hP true _ a rest h
  · obtain ⟨⟨s, rest'⟩, hs, h⟩ := scan_bind_ok h
    obtain ⟨rfl, -⟩ := Prod.mk.inj (Except.ok.inj h)
    exact hP.string _
  · split at h
    · exact absurd h failAt_ne
    · obtain ⟨⟨items, rest'⟩, hitems, h⟩ := scan_bind_ok h
      obtain ⟨rfl, -⟩ := Prod.mk.inj (Except.ok.inj h)
      exact hP.array _ (arrayItems_kept (hitem _ rfl) _ _ _ hitems)
  · split at h
    · exact absurd h failAt_ne
    · obtain ⟨⟨members, rest'⟩, hmembers, h⟩ := scan_bind_ok h
      obtain ⟨rfl, -⟩ := Prod.mk.inj (Except.ok.inj h)
      exact hP.object _ (Entries.sorted_ofList members) fun m hm =>
        objectMembers_kept (hitem _ rfl) _ _ _ hmembers m
          (Entries.mem_of_mem_ofList hm)
  · split at h
    · exact number_kept hP false _ a rest h
    · exact absurd h failAt_ne

theorem value_kept : ∀ levels, Scans P (value levels)
  | 0 => valueWith_kept hP nofun
  | levels + 1 => valueWith_kept hP fun m hm => by
    rw [← Option.some.inj hm]
    exact value_kept levels

end

/-- **What a JSON text gives has the property.** -/
theorem parse_kept {text : String} {j : Json} (h : parse text = .ok j) :
    P j := by
  unfold parse at h
  split at h
  · rename_i j' hdocument
    obtain rfl := Except.ok.inj h
    unfold document at hdocument
    cases hvalue : value maxLevels text.toList with
    | error e =>
      rw [hvalue] at hdocument
      exact absurd hdocument (by simp [bind, Except.bind])
    | ok result =>
      rw [hvalue] at hdocument
      obtain ⟨result, rest⟩ := result
      simp only [bind, Except.bind] at hdocument
      split at hdocument
      · obtain rfl := Except.ok.inj hdocument
        exact value_kept hP maxLevels _ _ _ hvalue
      · exact absurd hdocument (by simp [failAt])
  · exact absurd h (by simp)

end Kept

/-- **A JSON text gives ordered JSON.** -/
theorem parse_ordered {text : String} {j : Json} (h : parse text = .ok j) :
    j.Ordered :=
  parse_kept ⟨.null, .bool, fun n _ => .integer n, .double, .string,
    fun _ => .array, fun _ => .object⟩ h

/-- **The integers in a JSON value fit** in 64 bits. -/
inductive Bounded : Json → Prop
  /-- The literal `null`. -/
  | null : Bounded .null
  /-- A truth value. -/
  | bool (b : Bool) : Bounded (.bool b)
  /-- An integer. -/
  | integer {n : Int} (h : n < 0x10000000000000000) : Bounded (.integer n)
  /-- Any other number. -/
  | double (x : Binary64) : Bounded (.double x)
  /-- A string. -/
  | string (s : String) : Bounded (.string s)
  /-- A list. -/
  | array {items : List Json} (h : ∀ j ∈ items, Bounded j) :
    Bounded (.array items)
  /-- An object. -/
  | object {members : List (String × Json)} (h : ∀ m ∈ members, Bounded m.2) :
    Bounded (.object members)

/-- **A JSON text gives integers that fit.** -/
theorem parse_bounded {text : String} {j : Json} (h : parse text = .ok j) :
    j.Bounded :=
  parse_kept ⟨.null, .bool, fun _ => .integer, .double, .string,
    fun _ => .array, fun _ _ => .object⟩ h

end Json

end Avro
