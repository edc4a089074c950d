import Avro.Diagnostic.Report
import Mathlib.Algebra.GroupWithZero.Nat
import Mathlib.Data.List.GetD
import Mathlib.Data.String.Basic

/-!
# Where the spans of a text lie

A span counts bytes. It lies on a line if it begins and ends at characters of
the line (`Span.LiesOn`). A report takes it as a span of characters, and these
two agree up to a character of more than one byte. What they differ by is the
*surplus* of the characters in front (`Text.surplus`).

Here is what a report shows of a span that has no surplus in front: the line,
and the place on it (`Span.LiesOn.exists_excerpt`). Conversely the place that is
shown tells how many characters are in front (`Text.eq_of_place?`).
-/

namespace Avro

namespace Text

/-! ## Places of characters -/

/-- The lines that are shown of a text. The empty text is shown as an empty
line. -/
def shownLines (text : List Char) : List (List Char) :=
  match lines text with
  | [] => [[]]
  | line :: rest => line :: rest

section

variable {text : List Char} {earlier later : List (List Char)}
  {line : List Char}

/-- What is shown is the text. -/
theorem flatten_shownLines : (shownLines text).flatten = text := by
  have h : (lines text).flatten = text := flatten_pieces _ _
  unfold shownLines
  cases hlines : lines text with
  | nil => rw [hlines] at h; exact h
  | cons line rest => rw [hlines] at h; exact h

/-- An offset has the same place among the lines that are shown. -/
theorem place?_shownLines (offset : Nat) :
    place? offset (shownLines text) = place? offset (lines text) := by
  unfold shownLines
  cases lines text with
  | nil => cases offset <;> simp [place?]
  | cons line rest => rfl

theorem getD_shownLines (n : Nat) :
    (shownLines text).getD n [] = (lines text).getD n [] := by
  unfold shownLines
  cases lines text with
  | nil => cases n <;> rfl
  | cons line rest => rfl

theorem flatten_take_shownLines (n : Nat) :
    ((shownLines text).take n).flatten = ((lines text).take n).flatten := by
  unfold shownLines
  cases lines text with
  | nil => cases n <;> simp
  | cons line rest => rfl

/-- Behind a line that is not the last one, places are those of the rest. -/
theorem place?_cons {rest : List (List Char)} (hrest : rest ≠ [])
    (offset : Nat) : place? (line.length + offset) (line :: rest)
      = (place? offset rest).map fun p => ⟨p.line + 1, p.column⟩ := by
  cases rest with
  | nil => exact absurd rfl hrest
  | cons next others =>
    rw [place?.eq_def]
    dsimp only
    rw [if_neg (by omega), Nat.add_sub_cancel_left]

/-- **The place of a character of a line**, or of the end of the text. -/
theorem place?_eq {k : Nat}
    (hk : k < line.length ∨ k = line.length ∧ later = []) :
    place? (earlier.flatten.length + k) (earlier ++ line :: later)
      = some ⟨earlier.length, k⟩ := by
  induction earlier with
  | nil =>
    rw [List.flatten_nil, List.length_nil, Nat.zero_add, List.nil_append,
      place?.eq_def]
    dsimp only
    rcases hk with hk | ⟨rfl, rfl⟩
    · rw [if_pos hk]
      rfl
    · rw [if_neg (Nat.lt_irrefl _)]
      exact if_pos rfl
  | cons first rest ih =>
    rw [List.flatten_cons, List.length_append, Nat.add_assoc, List.cons_append,
      place?_cons (by simp), ih]
    rfl

/-- **A place has one offset**: so many characters are in front of it. -/
theorem eq_of_place? {p : Place} : ∀ {rows : List (List Char)} {offset : Nat},
    place? offset rows = some p →
      offset = (rows.take p.line).flatten.length + p.column
  | [], offset, h => by
    rw [place?] at h
    split at h
    · next h0 =>
      obtain rfl := Option.some.inj h
      exact h0
    · cases h
  | line :: rest, offset, h => by
    by_cases hlt : offset < line.length
    · rw [place?.eq_def] at h
      dsimp only at h
      rw [if_pos hlt] at h
      obtain rfl := Option.some.inj h
      exact (Nat.zero_add _).symm
    · cases rest with
      | nil =>
        rw [place?.eq_def] at h
        dsimp only at h
        rw [if_neg hlt] at h
        split at h
        · obtain rfl := Option.some.inj h
          exact (Nat.zero_add _).symm
        · cases h
      | cons next others =>
        obtain ⟨k, rfl⟩ := Nat.exists_eq_add_of_le (Nat.le_of_not_lt hlt)
        rw [place?_cons (List.cons_ne_nil _ _)] at h
        obtain ⟨p', hp', rfl⟩ := Option.map_eq_some_iff.mp h
        rw [eq_of_place? hp', List.take_succ_cons, List.flatten_cons,
          List.length_append, Nat.add_assoc]

end

/-! ## Bytes and characters -/

/-- **The surplus of characters**: how many bytes they have beyond one each. -/
def surplus (cs : List Char) : Nat := (cs.map (·.utf8Size - 1)).sum

theorem utf8Len_eq (cs : List Char) :
    String.utf8Len cs = cs.length + surplus cs := by
  induction cs with
  | nil => rfl
  | cons c rest ih =>
    have hpos := c.utf8Size_pos
    rw [String.utf8Len, ih, surplus, surplus, List.map_cons, List.sum_cons,
      List.length_cons]
    omega

/-- **Characters without surplus** are those of one byte. -/
theorem surplus_eq_zero_iff {cs : List Char} :
    surplus cs = 0 ↔ ∀ c ∈ cs, c.utf8Size = 1 := by
  induction cs with
  | nil => simp [surplus]
  | cons c rest ih =>
    have hpos := c.utf8Size_pos
    rw [List.forall_mem_cons, ← ih, surplus, List.map_cons, List.sum_cons]
    change _ + surplus rest = 0 ↔ _
    omega

end Text

/-! ## Spans on a line -/

/-- **A span lies on a line of a text**: it begins behind the characters `left`
of the line, and ends behind those that it marks. A span that marks nothing
lies where the character begins that follows, or at the end of the text. -/
structure Span.LiesOn (span : Span) (source : String)
    (earlier : List (List Char)) (left marked right : List Char)
    (later : List (List Char)) : Prop where
  /-- The text has the line. -/
  lines : Text.shownLines source.toList
    = earlier ++ (left ++ marked ++ right) :: later
  /-- The span begins behind the bytes in front of it. -/
  start : span.start = String.utf8Len (earlier.flatten ++ left)
  /-- It ends behind the bytes that it marks. -/
  stop : span.stop = span.start + String.utf8Len marked
  /-- It does not lie behind the line. -/
  inside : marked ++ right ≠ [] ∨ later = []

namespace Span.LiesOn

variable {span : Span} {source : String} {earlier later : List (List Char)}
  {left marked right : List Char}
  (h : span.LiesOn source earlier left marked right later)
include h

/-- The text up to the end of the span, and what is behind. -/
theorem toList_eq : source.toList = earlier.flatten ++ left ++ marked
    ++ (right ++ later.flatten) := by
  have hflat := congrArg List.flatten h.lines
  rw [Text.flatten_shownLines] at hflat
  rw [hflat]
  simp only [List.flatten_append, List.flatten_cons, List.append_assoc]

/-- **A span on a line ends within the bytes of the text.** -/
theorem stop_le : span.stop ≤ source.utf8ByteSize := by
  rw [← String.ofList_toList (s := source), String.utf8ByteSize_ofList,
    h.toList_eq, h.stop, h.start, Text.utf8Len_eq, Text.utf8Len_eq,
    Text.utf8Len_eq]
  simp only [List.length_append, Text.surplus, List.map_append,
    List.sum_append]
  omega

/-- Where the span begins, in characters. -/
theorem start_eq : span.start = earlier.flatten.length + left.length
    + Text.surplus (earlier.flatten ++ left) := by
  rw [h.start, Text.utf8Len_eq, List.length_append]

/-- Where the span ends, in characters. -/
theorem stop_eq : span.stop
    = span.start + (marked.length + Text.surplus marked) := by
  rw [h.stop, Text.utf8Len_eq]

/-- The line of the span. -/
theorem getD_lines :
    (Text.lines source.toList).getD earlier.length []
      = left ++ marked ++ right := by
  rw [← Text.getD_shownLines, h.lines, List.getD_append_right _ _ _ _
      (Nat.le_refl _), Nat.sub_self]
  rfl

/-- The characters in front of the line of the span. -/
theorem flatten_take_lines :
    ((Text.lines source.toList).take earlier.length).flatten
      = earlier.flatten := by
  rw [← Text.flatten_take_shownLines, h.lines, List.take_left]

/-- The place of a character of the line, or of the end of the text. -/
theorem place?_lines {k : Nat}
    (hk : k < left.length + (marked.length + right.length)
      ∨ k = left.length + (marked.length + right.length) ∧ later = []) :
    Text.place? (earlier.flatten.length + k) (Text.lines source.toList)
      = some ⟨earlier.length, k⟩ := by
  rw [← Text.place?_shownLines, h.lines, Text.place?_eq]
  simpa only [List.length_append, Nat.add_assoc] using hk

/-- Where the span begins on the line. -/
theorem place?_left :
    Text.place? (earlier.flatten.length + left.length)
      (Text.lines source.toList) = some ⟨earlier.length, left.length⟩ := by
  refine h.place?_lines ?_
  have hinside := h.inside
  rw [← List.length_pos_iff, List.length_append] at hinside
  rcases Nat.eq_zero_or_pos (marked.length + right.length) with hnone | hpos
  · exact .inr ⟨by omega, hinside.resolve_left (by omega)⟩
  · exact .inl (by omega)

variable (hfront : Text.surplus (earlier.flatten ++ left) = 0)
include hfront

/-- The last character of a span is on the line as well, if what the span is too
long by is. A span that marks nothing has none, and takes where it begins. -/
theorem exists_place?_last (hmarked : Text.surplus marked ≤ right.length) :
    ∃ k, Text.place? (max span.start (span.stop - 1))
      (Text.lines source.toList) = some ⟨earlier.length, k⟩ := by
  have hstart := h.start_eq
  have hstop := h.stop_eq
  rw [hfront, Nat.add_zero] at hstart
  by_cases hnone : marked = []
  · refine ⟨left.length, ?_⟩
    rw [hstop, hnone, hstart, ← h.place?_left]
    congr 1
    simp [Text.surplus]
  · have hpos := List.length_pos_iff.mpr hnone
    refine ⟨left.length + (marked.length + Text.surplus marked - 1), ?_⟩
    rw [← h.place?_lines (.inl (by omega))]
    congr 1
    omega

/-- **What a report shows of a span** without surplus in front whose marks end
on its line: the line, and its place. -/
theorem exists_excerpt (hmarked : Text.surplus marked ≤ right.length) :
    ∃ x, Excerpt.ofSpan? source span = some x
      ∧ x.lines = Text.lines source.toList ∧ x.span = span
      ∧ x.first = ⟨earlier.length, left.length⟩
      ∧ x.lastLine = x.first.line := by
  have hstart := h.start_eq
  rw [hfront, Nat.add_zero] at hstart
  have hfirst := h.place?_left
  rw [← hstart] at hfirst
  obtain ⟨k, hlast⟩ := h.exists_place?_last hfront hmarked
  refine ⟨⟨Text.lines source.toList, span, ⟨earlier.length, left.length⟩,
    earlier.length⟩, ?_, rfl, rfl, rfl, rfl⟩
  rw [Excerpt.ofSpan?]
  simp only [hfirst, hlast]

end Span.LiesOn

end Avro
