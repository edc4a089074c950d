import Avro.Diagnostic.Report
import Mathlib.Algebra.GroupWithZero.Nat
import Mathlib.Data.String.Basic

/-!
# What stands under a line

The row of marks under a line has so many pieces for a character as the
character takes columns (`Row.length_marksFrom`). So it can be cut where the
line can: in front of the span everything is blank, in the span every piece is a
stroke, and behind the span everything is blank again (`Row.Underlines`,
`Excerpt.Spans.underlines`).

The strokes can be counted in the text of the row, in colours or without
(`Row.Underlines.countIn_render`).
-/

namespace Avro

namespace Row

/-! ## Columns -/

/-- **The columns of characters** from an index on. Where there are none, every
index has one. -/
def columnsFrom : (index length : Nat) → List Char → Nat
  | _, 0, _ => 0
  | index, length + 1, [] => 1 + columnsFrom (index + 1) length []
  | index, length + 1, c :: rest =>
    Text.columns index c + columnsFrom (index + 1) length rest

/-- **The columns in front of an index** of a line, which is shown up to the
last character that is not a blank. -/
def columnsBefore (line : List Char) (index : Nat) : Nat :=
  columnsFrom 0 index (trimmed line)

section

variable {line cs : List Char} {mark : Nat → Mark}

theorem columnsFrom_nil (index length : Nat) :
    columnsFrom index length [] = length := by
  induction length generalizing index with
  | zero => rfl
  | succ length ih => rw [columnsFrom, ih, Nat.add_comm]

theorem columnsFrom_add (index first second : Nat) (cs : List Char) :
    columnsFrom index (first + second) cs = columnsFrom index first cs
      + columnsFrom (index + first) second (cs.drop first) := by
  induction first generalizing index cs with
  | zero => rw [Nat.zero_add, columnsFrom, Nat.zero_add]; rfl
  | succ first ih =>
    cases cs with
    | nil =>
      rw [List.drop_nil, columnsFrom_nil, columnsFrom_nil, columnsFrom_nil]
    | cons c rest =>
      have hindex : index + (first + 1) = index + 1 + first := by omega
      rw [hindex, Nat.add_right_comm, columnsFrom, ih, columnsFrom,
        List.drop_succ_cons, Nat.add_assoc (Text.columns index c)]

theorem columnsBefore_add (line : List Char) (index length : Nat) :
    columnsBefore line (index + length) = columnsBefore line index
      + columnsFrom index length ((trimmed line).drop index) := by
  rw [columnsBefore, columnsFrom_add, Nat.zero_add]
  rfl

theorem length_trimmed_le : (trimmed line).length ≤ line.length := by
  rw [trimmed, List.length_reverse]
  exact (List.dropWhile_suffix _).length_le.trans List.length_reverse.le

/-- **Behind a line** every index has a column. -/
theorem columnsBefore_behind (line : List Char) {index : Nat}
    (h : line.length ≤ index) (length : Nat) :
    columnsBefore line (index + length)
      = columnsBefore line index + length := by
  rw [columnsBefore_add, List.drop_of_length_le (length_trimmed_le.trans h),
    columnsFrom_nil]

/-- So what takes no columns does not reach behind the line. -/
theorem le_length_of_columnsBefore {index length : Nat}
    (hle : index ≤ line.length)
    (h : columnsBefore line (index + length) = columnsBefore line index) :
    index + length ≤ line.length := by
  by_contra hgt
  obtain ⟨rest, hrest⟩ := Nat.exists_eq_add_of_le hle
  obtain ⟨more, hmore⟩ := Nat.exists_eq_add_of_lt (Nat.lt_of_not_le hgt)
  have hline := columnsBefore_add line index rest
  have hbehind := columnsBefore_behind line (Nat.le_refl _) (more + 1)
  rw [hmore, Nat.add_assoc line.length] at h
  rw [← hrest] at hline
  omega

/-! ## Marks -/

theorem length_ofMark (mark : Mark) (width : Nat) :
    (ofMark mark width).length = width := by
  cases width with
  | zero => rfl
  | succ others => rw [ofMark, List.length_cons, List.length_replicate]

theorem mem_ofMark {mark : Mark} {width : Nat} {p : Piece}
    (hp : p ∈ ofMark mark width) : p = mark.first ∨ p = mark.other := by
  cases width with
  | zero => exact absurd hp List.not_mem_nil
  | succ others =>
    exact (List.mem_cons.mp hp).imp id fun hp => (List.mem_replicate.mp hp).2

theorem marksFrom_add (mark : Nat → Mark) (index first second : Nat)
    (cs : List Char) : marksFrom mark index (first + second) cs
      = marksFrom mark index first cs
        ++ marksFrom mark (index + first) second (cs.drop first) := by
  induction first generalizing index cs with
  | zero => rw [Nat.zero_add, marksFrom]; rfl
  | succ first ih =>
    cases cs with
    | nil =>
      have hnil := ih (index + 1) []
      rw [List.drop_nil] at hnil ⊢
      rw [Nat.add_right_comm, marksFrom, hnil, marksFrom, List.append_assoc,
        Nat.add_right_comm index 1 first, Nat.add_assoc index]
    | cons c rest =>
      rw [Nat.add_right_comm, marksFrom, ih, marksFrom, List.drop_succ_cons,
        List.append_assoc, Nat.add_right_comm index 1 first,
        Nat.add_assoc index]

/-- **Marks are as wide as the characters over them.** -/
theorem length_marksFrom (mark : Nat → Mark) (index length : Nat)
    (cs : List Char) :
    (marksFrom mark index length cs).length = columnsFrom index length cs := by
  induction length generalizing index cs with
  | zero => rfl
  | succ length ih =>
    cases cs with
    | nil => rw [marksFrom, List.length_append, length_ofMark, ih, columnsFrom]
    | cons c rest =>
      rw [marksFrom, List.length_append, length_ofMark, ih, columnsFrom]

theorem mem_marksFrom {index length : Nat} {p : Piece}
    (hp : p ∈ marksFrom mark index length cs) :
    ∃ k, index ≤ k ∧ k < index + length
      ∧ (p = (mark k).first ∨ p = (mark k).other) := by
  induction length generalizing index cs with
  | zero => exact absurd hp List.not_mem_nil
  | succ length ih =>
    have hsplit : ∃ width rest, p ∈ ofMark (mark index) width
        ++ marksFrom mark (index + 1) length rest := by
      cases cs with
      | nil => exact ⟨_, _, hp⟩
      | cons c rest => exact ⟨_, _, hp⟩
    obtain ⟨width, rest, hp⟩ := hsplit
    rcases List.mem_append.mp hp with hp | hp
    · exact ⟨index, Nat.le_refl _, by omega, mem_ofMark hp⟩
    · obtain ⟨k, hle, hlt, hk⟩ := ih hp
      exact ⟨k, by omega, by omega, hk⟩

/-- Where there is no mark everything is blank. -/
theorem marksFrom_none {index length : Nat}
    (h : ∀ k, index ≤ k → k < index + length → mark k = .none) :
    marksFrom mark index length cs
      = List.replicate (columnsFrom index length cs) (.blanks 1) := by
  refine List.eq_replicate_iff.mpr ⟨length_marksFrom _ _ _ _, fun p hp => ?_⟩
  obtain ⟨k, hle, hlt, hk⟩ := mem_marksFrom hp
  rw [h k hle hlt] at hk
  exact hk.elim id id

end

/-! ## Underlines -/

/-- **A row underlines characters** of a line, `length` of them from an index
on: it has strokes in exactly their columns. If there are none, a bar may stand
where they would begin. -/
def Underlines (s : Strokes) (line : List Char) (index length : Nat)
    (row : Row) : Prop :=
  ∃ strokes behind : Row,
    row = List.replicate (columnsBefore line index) (.blanks 1) ++ strokes
      ++ behind
    ∧ (∀ p ∈ behind, p = .blanks 1 ∨ p = .char .mark ' ')
    ∧ if length = 0 then strokes = [] ∨ strokes = [.char .mark s.down]
      else columnsBefore line (index + length)
          = columnsBefore line index + strokes.length
        ∧ ∀ p ∈ strokes,
          p = .char .mark s.underline ∨ p = .char .mark s.stem

/-- Only the columns of the characters count, and whether there are any. -/
theorem Underlines.congr {s : Strokes} {line : List Char}
    {index length length' : Nat} {row : Row}
    (h : row.Underlines s line index length)
    (hcolumns : columnsBefore line (index + length)
      = columnsBefore line (index + length'))
    (hnone : length = 0 ↔ length' = 0) :
    row.Underlines s line index length' := by
  obtain ⟨strokes, behind, hrow, hbehind, hstrokes⟩ := h
  refine ⟨strokes, behind, hrow, hbehind, ?_⟩
  simpa only [hcolumns, hnone] using hstrokes

end Row

namespace Excerpt

variable {x : Excerpt} {s : Strokes} {index length : Nat}

/-- The mark under a character of the line of a span. -/
def markAt (x : Excerpt) (s : Strokes) (index : Nat) : Mark :=
  let start := x.lineStart x.first.line
  if index = (x.span.start + x.span.stop) / 2 - start then
    if x.first.column < x.span.stop - start then .of s.stem s.underline
    else .of s.down ' '
  else if x.marked (start + index) then .of s.underline s.underline
  else .none

/-- **An excerpt has its span on one line**: so many characters of the line from
an index on. -/
structure Spans (x : Excerpt) (index length : Nat) : Prop where
  /-- The first of them. -/
  column : x.first.column = index
  /-- Its offset. -/
  start : x.span.start = x.lineStart x.first.line + index
  /-- Where they end. -/
  stop : x.span.stop = x.span.start + length

namespace Spans

variable (h : x.Spans index length)
include h

theorem markAt_outside {k : Nat} (hk : k < index ∨ index + length ≤ k)
    (hne : length = 0 → k ≠ index) : x.markAt s k = .none := by
  have hstart := h.start
  have hstop := h.stop
  have hmarked : x.marked (x.lineStart x.first.line + k) = false := by
    rw [marked, Bool.and_eq_false_iff, decide_eq_false_iff_not,
      decide_eq_false_iff_not]
    omega
  rw [markAt, if_neg (by omega), hmarked]
  rfl

theorem markAt_inside {k : Nat} (hle : index ≤ k) (hlt : k < index + length) :
    x.markAt s k = .of s.stem s.underline
      ∨ x.markAt s k = .of s.underline s.underline := by
  have hcolumn := h.column
  have hstart := h.start
  have hstop := h.stop
  have hmarked : x.marked (x.lineStart x.first.line + k) = true := by
    rw [marked, Bool.and_eq_true_iff, decide_eq_true_iff, decide_eq_true_iff]
    omega
  rw [markAt, hmarked]
  split
  · rw [if_pos (by omega)]
    exact .inl rfl
  · exact .inr rfl

/-- The bar of a span that marks nothing. -/
theorem markAt_empty (hlength : length = 0) :
    x.markAt s index = .of s.down ' ' := by
  have hcolumn := h.column
  have hstart := h.start
  have hstop := h.stop
  rw [markAt, if_pos (by omega), if_neg (by omega)]

/-- In front of a span everything is blank. -/
theorem ofMarks_eq (line : List Char) (count : Nat) :
    Row.ofMarks line (index + count) (x.markAt s)
      = List.replicate (Row.columnsBefore line index) (.blanks 1)
        ++ Row.marksFrom (x.markAt s) index count
          ((Row.trimmed line).drop index) := by
  have hfront : Row.marksFrom (x.markAt s) 0 index (Row.trimmed line)
      = List.replicate (Row.columnsBefore line index) (.blanks 1) :=
    Row.marksFrom_none fun k _ hk =>
      h.markAt_outside (.inl (by omega)) (by omega)
  rw [Row.ofMarks, Row.marksFrom_add, Nat.zero_add, hfront]

/-- Behind a span, and behind its bar, everything is blank. -/
theorem blank_behind {first count : Nat} {cs : List Char}
    (hle : index + length ≤ first) (hne : length = 0 → first ≠ index) :
    ∀ p ∈ Row.marksFrom (x.markAt s) first count cs,
      p = .blanks 1 ∨ p = .char .mark ' ' := by
  intro p hp
  rw [Row.marksFrom_none fun k hk _ =>
    h.markAt_outside (.inr (by omega)) (by omega)] at hp
  exact .inl (List.mem_replicate.mp hp).2

/-- The bar of a span that marks nothing is as wide as the character that
follows. -/
theorem exists_bar (hlength : length = 0) (cs : List Char) :
    ∃ strokes rest : Row,
      Row.marksFrom (x.markAt s) index 1 cs = strokes ++ rest
      ∧ (strokes = [] ∨ strokes = [.char .mark s.down])
      ∧ ∀ p ∈ rest, p = .blanks 1 ∨ p = .char .mark ' ' := by
  have hmark : ∀ width, ∃ strokes rest : Row,
      Row.ofMark (x.markAt s index) width = strokes ++ rest
      ∧ (strokes = [] ∨ strokes = [.char .mark s.down])
      ∧ ∀ p ∈ rest, p = .blanks 1 ∨ p = .char .mark ' ' := by
    intro width
    rw [h.markAt_empty hlength]
    cases width with
    | zero => exact ⟨[], [], rfl, .inl rfl, nofun⟩
    | succ others =>
      exact ⟨[_], List.replicate others _, rfl, .inr rfl, fun p hp =>
        .inr (List.mem_replicate.mp hp).2⟩
  cases cs with
  | nil | cons c rest =>
    rw [Row.marksFrom, Row.marksFrom, List.append_nil]
    exact hmark _

/-- **The marks of a span on one line underline its characters.** -/
theorem underlines (line : List Char) : Row.Underlines s line index length
    (.ofMarks line (index + length + 2) (x.markAt s)) := by
  rw [Nat.add_assoc, h.ofMarks_eq]
  by_cases hlength : length = 0
  · obtain ⟨strokes, rest, heq, hstrokes, hrest⟩ :=
      h.exists_bar (s := s) hlength ((Row.trimmed line).drop index)
    rw [hlength, Nat.zero_add, Row.marksFrom_add _ index 1 1, heq,
      List.append_assoc, ← List.append_assoc]
    refine ⟨strokes, _, rfl, fun p hp => ?_, ?_⟩
    · rcases List.mem_append.mp hp with hp | hp
      · exact hrest p hp
      · exact h.blank_behind (by omega) (by omega) p hp
    · rwa [if_pos rfl]
  · rw [Row.marksFrom_add]
    refine ⟨_, _, (List.append_assoc _ _ _).symm,
      h.blank_behind (Nat.le_refl _) fun h0 => absurd h0 hlength, ?_⟩
    rw [if_neg hlength, Row.length_marksFrom, Row.columnsBefore_add]
    refine ⟨rfl, fun p hp => ?_⟩
    obtain ⟨k, hle, hlt, hk⟩ := Row.mem_marksFrom hp
    rcases h.markAt_inside (s := s) hle hlt with hmark | hmark <;>
      rw [hmark] at hk
    · exact hk.symm
    · exact .inl (hk.elim id id)

end Spans

end Excerpt

/-! ## Counting strokes -/

section

variable {s : Strokes} {line : List Char} {index length : Nat} {row : Row}

/-- The strokes in a text that underline something. -/
def Strokes.countIn (s : Strokes) (text : String) : Nat :=
  text.toList.countP fun c => c = s.underline || c = s.stem

theorem Strokes.countIn_render (s : Strokes) (colored : Bool) (row : Row) :
    s.countIn (row.render colored)
      = (row.map fun p => s.countIn (p.render colored)).sum := by
  rw [countIn, Row.render, String.toList_join, List.flatMap_map,
    List.countP_flatMap]
  rfl

/-- **A row has so many strokes as columns are underlined.** -/
theorem Row.Underlines.countIn_render (h : row.Underlines s line index length)
    (hs : s = .unicode ∨ s = .ascii) (hlength : length ≠ 0) (colored : Bool) :
    columnsBefore line (index + length)
      = columnsBefore line index + s.countIn (row.render colored) := by
  obtain ⟨strokes, behind, rfl, hbehind, hstrokes⟩ := h
  rw [if_neg hlength] at hstrokes
  obtain ⟨hcolumns, hstrokes⟩ := hstrokes
  have hblank : s.countIn ((Piece.blanks 1).render colored) = 0
      ∧ s.countIn ((Piece.char .mark ' ').render colored) = 0 := by
    rcases hs with rfl | rfl <;> cases colored <;> decide
  have hstroke : s.countIn ((Piece.char .mark s.underline).render colored) = 1
      ∧ s.countIn ((Piece.char .mark s.stem).render colored) = 1 := by
    rcases hs with rfl | rfl <;> cases colored <;> decide
  have hone : (strokes.map fun p => s.countIn (p.render colored))
      = List.replicate strokes.length 1 := by
    refine List.map_eq_replicate_iff.mpr fun p hp => ?_
    rcases hstrokes p hp with rfl | rfl
    · exact hstroke.1
    · exact hstroke.2
  have hzero : (behind.map fun p => s.countIn (p.render colored))
      = List.replicate behind.length 0 := by
    refine List.map_eq_replicate_iff.mpr fun p hp => ?_
    rcases hbehind p hp with rfl | rfl
    · exact hblank.1
    · exact hblank.2
  rw [hcolumns, Strokes.countIn_render, List.map_append, List.map_append,
    List.map_replicate, hblank.1, hone, hzero]
  simp

end

end Avro
