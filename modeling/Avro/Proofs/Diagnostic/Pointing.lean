import Avro.Engine.Basic
import Avro.Engine.Report
import Avro.Proofs.Diagnostic.Excerpts
import Avro.Proofs.Diagnostic.Marks
import Avro.Proofs.Schema.CanonicalText
import Mathlib

/-!
# Reports that point at what they are about

A report points at some characters of a line if it shows the place of the first
of them, the line, and under the line strokes in exactly the columns of these
characters, and if it prints every help text (`Diagnostic.PointsAt`).

Reports take the bytes of a span for characters. So a report points at the
characters of its span if and only if no character in front of the span has
more than one byte, and what the span is too long by takes no columns
(`Diagnostic.pointsAt_iff`): one character of two bytes in front, and the report
points elsewhere, or shows nothing but its heading.
-/

namespace Avro

/-! ## What a report should show -/

section

variable (s : Strokes)

/-- The row with the place that a report points at. -/
def placeRow (margin : Nat) (filename : String) (number column : Nat) : Row :=
  [.blanks margin, .char .frame s.topLeft, .char .frame s.across,
    .char .frame '[', .plain s!" {filename}:{number}:{column} ",
    .char .frame ']']

/-- The left edge of the line with a number. -/
def lineEdge (number : Nat) : Row :=
  [.blanks 1, ⟨.frame, toString number ++ " " ++ s.down.toString⟩, .blanks 1]

/-- The left edge of the rows under the line, which is as wide. -/
def markEdge (number : Nat) : Row :=
  let filling := String.ofList
    (List.replicate ((toString number).length + 1) ' ')
  [.blanks 1, ⟨.gutter, filling ++ s.down.toString⟩, .blanks 1]

/-- The two edges are equally wide, so what stands in a column of the one row
stands in the same column of the other. -/
theorem length_markEdge (number : Nat) :
    (markEdge s number).map (·.text.length)
      = (lineEdge s number).map (·.text.length) := by
  simp [markEdge, lineEdge, Piece.blanks, Piece.plain, Char.toString]
  rfl

end

/-- **Rows print a help text**: one row above, and then one for each line of the
text, which stands at the end of the row. -/
def PrintsHelp (text : String) (rows : List String) : Prop :=
  ∃ above below, rows = above :: below
    ∧ List.Forall₂ (fun line row => ∃ margin, row = margin ++ line)
      (Text.messageLines text) below

/-- **A report points at characters** of a line: it shows their place and the
line, in whichever inks, underlines exactly these characters, and prints the
help texts. -/
def Diagnostic.PointsAt (d : Diagnostic) (style : ReportStyle)
    (filename : String) (number : Nat) (left marked right : List Char)
    (report : List String) : Prop :=
  ∃ (heading bar arrow foot : String) (highlighted : Nat → Bool) (marks : Row)
    (help : List (List String)),
    report = heading
      :: (placeRow style.strokes ((toString number).length + 2) filename number
        (left.length + 1)).render style.colored
      :: bar
      :: Row.render style.colored (lineEdge style.strokes number
        ++ .ofLine highlighted (left ++ marked ++ right))
      :: (markEdge style.strokes number ++ marks).render style.colored
      :: arrow :: (help.flatten ++ [foot])
    ∧ marks.Underlines style.strokes (left ++ marked ++ right) left.length
      marked.length
    ∧ List.Forall₂ PrintsHelp d.help help

/-! ## Rows that are rendered -/

namespace Row

variable {colored : Bool}

theorem render_append (row row' : Row) :
    Row.render colored (row ++ row')
      = row.render colored ++ row'.render colored := by
  refine String.toList_inj.mp ?_
  rw [String.toList_append]
  simp only [Row.render, String.toList_join, List.map_append,
    List.flatMap_append]

theorem render_plain (text : String) :
    Row.render colored [.plain text] = text := by
  cases colored <;> simp [Row.render, Piece.render, Piece.plain, Ink.color?]

end Row

section

variable (s : Strokes) (colored : Bool) (filename : String)

/-- How the row of a place ends. -/
theorem exists_placeRow (margin number column : Nat) : ∃ front : List Char,
    ((placeRow s margin filename number column).render colored).toList
      = front ++ ':' :: ((toString number).toList
        ++ ':' :: (toString column).toList)
        ++ (' ' :: ((Piece.char .frame ']').render colored).toList) := by
  let front : Row := [.blanks margin, .char .frame s.topLeft,
    .char .frame s.across, .char .frame '[', .plain (" " ++ filename)]
  have hplace : s!" {filename}:{number}:{column} "
      = " " ++ filename ++ ":" ++ toString number ++ ":" ++ toString column
        ++ " " := rfl
  refine ⟨(front.render colored).toList, ?_⟩
  rw [placeRow, hplace]
  cases colored <;>
    simp [front, Row.render, Piece.render, Piece.plain, Piece.char,
      Piece.blanks, Ink.color?]

variable {s colored filename} in
/-- **A place is told by its row.** -/
theorem placeRow_inj {margin margin' number number' column column' : Nat}
    (h : (placeRow s margin filename number column).render colored
      = (placeRow s margin' filename number' column').render colored) :
    number = number' ∧ column = column' := by
  obtain ⟨front, hfront⟩ :=
    exists_placeRow s colored filename margin number column
  obtain ⟨front', hfront'⟩ :=
    exists_placeRow s colored filename margin' number' column'
  rw [h, hfront'] at hfront
  -- Read from behind, the column ends with a colon, and so does the number.
  have hwords := congrArg List.reverse (List.append_cancel_right hfront)
  simp only [List.reverse_append, List.reverse_cons, List.append_assoc,
    List.cons_append, List.nil_append] at hwords
  have hcolon : ∀ n : Nat, ':' ∉ (toString n).toList.reverse := fun n h =>
    not_mem_toString rfl n (List.mem_reverse.mp h)
  obtain ⟨hcolumn, hwords⟩ := append_stop_inj (hcolon _) (hcolon _) hwords
  obtain ⟨hnumber, -⟩ := append_stop_inj (hcolon _) (hcolon _) hwords
  exact ⟨(toString_nat_inj (List.reverse_inj.mp hnumber)).symm,
    (toString_nat_inj (List.reverse_inj.mp hcolumn)).symm⟩

end

/-! ## Help texts -/

/-- How many rows print some help texts. -/
def helpHeight (help : List String) : Nat :=
  (help.map fun text => (Text.messageLines text).length + 1).sum

theorem length_of_printsHelp {help : List String} {rows : List (List String)}
    (h : List.Forall₂ PrintsHelp help rows) :
    rows.flatten.length = helpHeight help := by
  induction h with
  | nil => rfl
  | cons h _ ih =>
    obtain ⟨above, below, rfl, hbelow⟩ := h
    rw [List.flatten_cons, List.length_append, ih, List.length_cons,
      ← hbelow.length_eq, helpHeight, helpHeight, List.map_cons, List.sum_cons]

namespace Excerpt

variable (x : Excerpt) (s : Strokes) (colored : Bool)

theorem printsHelp_helpRows (word text : String) :
    PrintsHelp text ((x.helpRows s word text).map (Row.render colored)) := by
  rw [helpRows]
  refine ⟨_, _, List.map_cons, ?_⟩
  have hplain : ∀ (row : Row) (front line : String),
      ∃ margin, Row.render colored (row ++ [.plain (front ++ line)])
        = margin ++ line := by
    intro row front line
    refine ⟨row.render colored ++ front, ?_⟩
    rw [Row.render_append, Row.render_plain, String.append_assoc]
  cases Text.messageLines text with
  | nil => exact .nil
  | cons line others =>
    have hfirst := hplain (x.helpEdge s ++ [⟨.help, word⟩]) ": " line
    rw [List.append_assoc] at hfirst
    refine .cons hfirst ?_
    rw [List.map_map]
    refine List.forall₂_map_right_iff.mpr
      (List.forall₂_same.mpr fun line _ => ?_)
    have h := hplain (x.helpEdge s ++ [.blanks (word.length + 2)]) "" line
    simpa using h

theorem length_helpWords (count : Nat) : (helpWords count).length = count := by
  rw [helpWords]
  split
  · next h => exact h.symm
  · rw [List.length_map, List.length_range]

/-- **Every help text is printed**, whatever else is shown. -/
theorem forall₂_printsHelp (help : List String) :
    List.Forall₂ PrintsHelp help
      ((List.zipWith (x.helpRows s) (helpWords help.length) help).map
        (·.map (Row.render colored))) := by
  have hall : ∀ (words help : List String), words.length = help.length →
      List.Forall₂ PrintsHelp help
        ((List.zipWith (x.helpRows s) words help).map
          (·.map (Row.render colored))) := by
    intro words help hlength
    induction words generalizing help with
    | nil =>
      obtain rfl := List.length_eq_zero_iff.mp hlength.symm
      exact .nil
    | cons word words ih =>
      cases help with
      | nil => cases hlength
      | cons text rest =>
        exact .cons (x.printsHelp_helpRows s colored word text)
          (ih rest (Nat.succ.inj hlength))
  exact hall _ _ (length_helpWords _)

/-! ## Excerpts on one line -/

/-- What is drawn around the rows of an excerpt. -/
theorem exists_frame (filename message : String) (help : List String) :
    ∃ (bar foot : Row) (rows : List (List String)),
      (x.frame s filename message help).map (Row.render colored)
        = (placeRow s (x.numberWidth + 2) filename (x.first.line + 1)
            (x.first.column + 1)).render colored
          :: bar.render colored
          :: ((x.rows s message).map (Row.render colored)
            ++ (rows.flatten ++ [foot.render colored]))
      ∧ List.Forall₂ PrintsHelp help rows := by
  refine ⟨[.blanks (x.numberWidth + 2), .char .frame s.down],
    [⟨.frame, String.ofList (List.replicate (x.numberWidth + 2) s.across
      ++ [s.bottomRight])⟩], _, ?_, x.forall₂_printsHelp s colored help⟩
  rw [frame]
  simp only [List.map_append, List.map_cons, List.map_nil, List.map_flatten,
    List.append_assoc, List.cons_append, List.nil_append]
  rfl

/-- The rows of a span on one line. -/
theorem inlineRows_eq (message : String) : ∃ arrow : Row,
    x.inlineRows s message
      = if x.span.stop - x.lineStart x.first.line
            ≤ (x.lineAt x.first.line).length then
          [x.numberEdge s x.first.line ++ x.lineRow x.first.line,
            x.edge s.down ++ .ofMarks (x.lineAt x.first.line)
              (x.span.stop - x.lineStart x.first.line + 2) (x.markAt s),
            arrow]
        else [x.edge s.down] :=
  ⟨_, rfl⟩

/-- **Three rows are those of a span on one line** that ends on it. -/
theorem inline_of_length {message : String}
    (h : (x.rows s message).length = 3) : x.lastLine = x.first.line
      ∧ x.span.stop - x.lineStart x.first.line
        ≤ (x.lineAt x.first.line).length := by
  rw [rows] at h
  split at h
  · next hinline =>
    refine ⟨(decide_eq_true_iff.mp hinline).symm, ?_⟩
    obtain ⟨arrow, hrows⟩ := x.inlineRows_eq s message
    rw [hrows] at h
    split at h
    · assumption
    · cases h
  · rw [bracketRows] at h
    dsimp only at h
    split at h
    · split at h <;> simp at h
    · cases h

theorem numberEdge_eq (h : x.lastLine = x.first.line) :
    x.numberEdge s x.first.line = lineEdge s (x.first.line + 1) := by
  rw [numberEdge, numberWidth, h]
  simp [lineEdge]

theorem edge_eq (h : x.lastLine = x.first.line) :
    x.edge s.down = markEdge s (x.first.line + 1) := by
  rw [edge, numberWidth, h]
  rfl

end Excerpt

/-! ## Reports of a span on a line -/

/-- What an excerpt shows of a span. -/
theorem Excerpt.of_ofSpan? {source : String} {span : Span} {x : Excerpt}
    (h : ofSpan? source span = some x) :
    x.lines = Text.lines source.toList ∧ x.span = span
      ∧ Text.place? span.start (Text.lines source.toList) = some x.first := by
  rw [ofSpan?] at h
  split at h
  · next first last hfirst hlast =>
    obtain rfl := Option.some.inj h
    exact ⟨rfl, rfl, hfirst⟩
  · cases h

section

variable {d : Diagnostic} {style : ReportStyle} {filename source : String}
  {span : Span} {earlier later : List (List Char)}
  {left marked right : List Char}

/-- A report that points at something is as long as its help texts and seven
more rows. -/
theorem Diagnostic.PointsAt.length_eq {number : Nat} {report : List String}
    (h : d.PointsAt style filename number left marked right report) :
    report.length = helpHeight d.help + 7 := by
  obtain ⟨_, _, _, _, _, _, help, rfl, -, hhelp⟩ := h
  have hlength := length_of_printsHelp hhelp
  simp only [List.length_cons, List.length_append, List.length_nil]
  omega

/-- A span on a line is within the text, so its diagnostic is not reported in
plain lines. -/
theorem Diagnostic.place?_eq (hspan : d.span = some span)
    (hon : span.LiesOn source earlier left marked right later) :
    d.place? source = some span := by
  rw [place?, hspan]
  exact Option.filter_eq_some_iff.mpr ⟨rfl, decide_eq_true hon.stop_le⟩

/-- The report of a diagnostic with an excerpt. -/
theorem Diagnostic.report_some {x : Excerpt}
    (hplace : d.place? source = some span)
    (hx : Excerpt.ofSpan? source span = some x) :
    d.report style filename source
      = (d.heading :: x.frame style.strokes filename d.message d.help).map
        (Row.render style.colored) := by
  simp only [report, hplace, hx]

/-- Without an excerpt there is only the heading. -/
theorem Diagnostic.report_none (hplace : d.place? source = some span)
    (hx : Excerpt.ofSpan? source span = none) :
    d.report style filename source
      = [Row.render style.colored d.heading] := by
  simp only [report, hplace, hx, List.map_cons, List.map_nil]

namespace Span.LiesOn

variable (hon : span.LiesOn source earlier left marked right later)
include hon

/-- The excerpt of a span without surplus in front has it on its line. -/
theorem spans {x : Excerpt}
    (hfront : Text.surplus (earlier.flatten ++ left) = 0)
    (hlines : x.lines = Text.lines source.toList) (hspan : x.span = span)
    (hfirst : x.first = ⟨earlier.length, left.length⟩) :
    x.lineAt x.first.line = left ++ marked ++ right
      ∧ x.Spans left.length (marked.length + Text.surplus marked) := by
  refine ⟨?_, ?_, ?_, ?_⟩
  · rw [Excerpt.lineAt, hlines, hfirst, hon.getD_lines]
  · rw [hfirst]
  · rw [Excerpt.lineStart, hlines, hspan, hfirst, hon.flatten_take_lines,
      hon.start_eq, hfront, Nat.add_zero]
  · rw [hspan, hon.stop_eq]

end Span.LiesOn

/-- The rows of an excerpt that has a span on its line: the line, the marks, and
the arrow, with the left edges of the line's number. -/
theorem Excerpt.exists_rows {x : Excerpt} (s : Strokes) (message : String)
    {line : List Char} {index length : Nat}
    (hline : x.lineAt x.first.line = line) (hspans : x.Spans index length)
    (hinline : x.lastLine = x.first.line)
    (hle : index + length ≤ line.length) : ∃ arrow : Row,
      x.rows s message
        = [lineEdge s (x.first.line + 1) ++ x.lineRow x.first.line,
          markEdge s (x.first.line + 1)
            ++ .ofMarks line (index + length + 2) (x.markAt s),
          arrow] := by
  obtain ⟨arrow, hrows⟩ := x.inlineRows_eq s message
  have hstart := hspans.start
  have hstop := hspans.stop
  have hright : x.span.stop - x.lineStart x.first.line = index + length := by
    omega
  have hisInline : x.isInline = true := decide_eq_true hinline.symm
  refine ⟨arrow, ?_⟩
  rw [rows, if_pos hisInline, hrows, hright, hline, if_pos hle,
    x.numberEdge_eq s hinline, x.edge_eq s hinline]

/-- Strokes of a row behind another one are counted by themselves. -/
theorem Strokes.countIn_append (s : Strokes) (text text' : String) :
    s.countIn (text ++ text') = s.countIn text + s.countIn text' := by
  rw [countIn, String.toList_append, List.countP_append]
  rfl

open Row (columnsBefore)

/-- **A report points at the characters of its span** if no character in front
has a surplus, and what the span is too long by takes no columns. -/
theorem Span.LiesOn.pointsAt (hspan : d.span = some span)
    (hon : span.LiesOn source earlier left marked right later)
    (hfront : Text.surplus (earlier.flatten ++ left) = 0)
    (hcolumns : columnsBefore (left ++ marked ++ right)
        (left.length + marked.length + Text.surplus marked)
      = columnsBefore (left ++ marked ++ right) (left.length + marked.length)) :
    d.PointsAt style filename (earlier.length + 1) left marked right
      (d.report style filename source) := by
  have hle := Row.le_length_of_columnsBefore (by simp) hcolumns
  have hmarked : Text.surplus marked ≤ right.length := by
    simp only [List.length_append] at hle
    omega
  obtain ⟨x, hx, hlines, hxspan, hfirst, hinline⟩ :=
    hon.exists_excerpt hfront hmarked
  obtain ⟨hline, hspans⟩ := hon.spans hfront hlines hxspan hfirst
  obtain ⟨bar, foot, help, hframe, hhelp⟩ := x.exists_frame style.strokes
    style.colored filename d.message d.help
  obtain ⟨arrow, hrows⟩ := Excerpt.exists_rows style.strokes d.message hline
    hspans hinline (by rwa [← Nat.add_assoc])
  have hmargin : x.numberWidth = (toString (earlier.length + 1)).length := by
    rw [Excerpt.numberWidth, hinline, hfirst]
  refine ⟨Row.render style.colored d.heading, bar.render style.colored,
    arrow.render style.colored, foot.render style.colored,
    fun index => x.marked (x.lineStart x.first.line + index),
    .ofMarks (left ++ marked ++ right)
      (left.length + (marked.length + Text.surplus marked) + 2)
      (x.markAt style.strokes), help, ?_, ?_, hhelp⟩
  · rw [Diagnostic.report_some (Diagnostic.place?_eq hspan hon) hx,
      List.map_cons, hframe, hrows, hmargin, Excerpt.lineRow, hline, hfirst]
    simp only [List.map_cons, List.map_nil, List.cons_append, List.nil_append]
  · rw [Nat.add_assoc] at hcolumns
    refine (hspans.underlines _).congr hcolumns ?_
    rw [Nat.add_eq_zero_iff, List.length_eq_zero_iff]
    exact ⟨And.left, fun hnone => ⟨hnone, by rw [hnone]; rfl⟩⟩

/-- **What a report tells that points at some characters**: the excerpt has
their place, its rows are those of a span on one line, and the second of them
underlines the characters. -/
theorem Excerpt.of_pointsAt {x : Excerpt} {number : Nat}
    (h : d.PointsAt style filename number left marked right
      ((d.heading :: x.frame style.strokes filename d.message d.help).map
        (Row.render style.colored))) :
    x.first.line + 1 = number ∧ x.first.column = left.length
    ∧ x.lastLine = x.first.line
    ∧ x.span.stop - x.lineStart x.first.line
      ≤ (x.lineAt x.first.line).length
    ∧ ∃ marks : Row, marks.Underlines style.strokes (left ++ marked ++ right)
        left.length marked.length
      ∧ ((x.rows style.strokes d.message).map (Row.render style.colored))[1]?
        = some ((markEdge style.strokes number ++ marks).render
          style.colored) := by
  obtain ⟨bar, foot, help, hframe, hhelp⟩ := x.exists_frame style.strokes
    style.colored filename d.message d.help
  have hlength := h.length_eq
  have hheight := length_of_printsHelp hhelp
  rw [List.map_cons, hframe] at h hlength
  simp only [List.length_cons, List.length_append, List.length_map,
    List.length_nil] at hlength
  have hthree : (x.rows style.strokes d.message).length = 3 := by omega
  obtain ⟨hinline, hle⟩ := x.inline_of_length style.strokes hthree
  obtain ⟨_, _, _, _, _, marks, _, hreport, hmarks, -⟩ := h
  obtain ⟨-, hreport⟩ := List.cons.inj hreport
  obtain ⟨hrow, hreport⟩ := List.cons.inj hreport
  obtain ⟨-, hreport⟩ := List.cons.inj hreport
  obtain ⟨hnumber, hcolumn⟩ := placeRow_inj hrow
  refine ⟨hnumber, Nat.succ.inj hcolumn, hinline, hle, marks, hmarks, ?_⟩
  have hsecond := congrArg (·[1]?) hreport
  rwa [List.getElem?_append_left (by rw [List.length_map, hthree]; decide)]
    at hsecond

/-- **A report that points at the characters of its span** tells by its rows
that the span has no surplus. -/
theorem Diagnostic.PointsAt.columns_eq
    (hstrokes : style.strokes = .unicode ∨ style.strokes = .ascii)
    (hspan : d.span = some span)
    (hon : span.LiesOn source earlier left marked right later)
    (h : d.PointsAt style filename (earlier.length + 1) left marked right
      (d.report style filename source)) :
    Text.surplus (earlier.flatten ++ left) = 0
    ∧ columnsBefore (left ++ marked ++ right)
        (left.length + marked.length + Text.surplus marked)
      = columnsBefore (left ++ marked ++ right)
        (left.length + marked.length) := by
  have hplace := place?_eq hspan hon
  cases hx : Excerpt.ofSpan? source span with
  | none =>
    rw [report_none hplace hx] at h
    exact absurd h.length_eq (by simp)
  | some x =>
    rw [report_some hplace hx] at h
    obtain ⟨hlines, hxspan, hbegin⟩ := Excerpt.of_ofSpan? hx
    obtain ⟨hnumber, hcolumn, hinline, hle, marks, hmarks, hsecond⟩ :=
      Excerpt.of_pointsAt h
    -- The place tells how many characters are in front.
    have hfirst : x.first = ⟨earlier.length, left.length⟩ := by
      rw [← Nat.succ.inj hnumber, ← hcolumn]
    have hfront : Text.surplus (earlier.flatten ++ left) = 0 := by
      have hstart := Text.eq_of_place? hbegin
      rw [hfirst] at hstart
      dsimp only at hstart
      rw [hon.flatten_take_lines, hon.start_eq] at hstart
      omega
    refine ⟨hfront, ?_⟩
    obtain ⟨hline, hspans⟩ := hon.spans hfront hlines hxspan hfirst
    by_cases hnone : marked = []
    · rw [hnone]
      rfl
    -- The marks have as many strokes as columns are underlined.
    have hstart := hspans.start
    have hstop := hspans.stop
    rw [hline] at hle
    obtain ⟨arrow, hrows⟩ := Excerpt.exists_rows style.strokes d.message hline
      hspans hinline (by omega)
    rw [hrows, hnumber] at hsecond
    have hcount := congrArg style.strokes.countIn (Option.some.inj hsecond)
    rw [Row.render_append, Row.render_append, Strokes.countIn_append,
      Strokes.countIn_append] at hcount
    have hpos := List.length_pos_iff.mpr hnone
    have hwide := hspans.underlines (s := style.strokes)
      (left ++ marked ++ right)
    rw [Nat.add_assoc,
      hwide.countIn_render hstrokes (by omega) style.colored,
      hmarks.countIn_render hstrokes (by omega) style.colored]
    exact congrArg _ (Nat.add_left_cancel hcount)

/-- **When a report points at the characters of its span**: no character in
front of the span has more than one byte, and the characters that the span is
too long by take no columns. -/
theorem Diagnostic.pointsAt_iff
    (hstrokes : style.strokes = .unicode ∨ style.strokes = .ascii)
    (hspan : d.span = some span)
    (hon : span.LiesOn source earlier left marked right later) :
    d.PointsAt style filename (earlier.length + 1) left marked right
        (d.report style filename source)
      ↔ (∀ c ∈ earlier.flatten ++ left, c.utf8Size = 1)
        ∧ columnsBefore (left ++ marked ++ right) (left.length + marked.length
            + Text.surplus marked)
          = columnsBefore (left ++ marked ++ right)
            (left.length + marked.length) := by
  rw [← Text.surplus_eq_zero_iff]
  exact ⟨fun h => h.columns_eq hstrokes hspan hon,
    fun h => hon.pointsAt hspan h.1 h.2⟩

end

/-! ## Reports of errors -/

namespace EngineError

open Row (columnsBefore)

/-- **An error reports a diagnostic** of a text. -/
def Reports (e : EngineError) (d : Diagnostic) (source : String) : Prop :=
  match e with
  | .compilation diagnostics text _ => d ∈ diagnostics ∧ text = source
  | .runtime diagnostic text _ => diagnostic = d ∧ text = source
  | .misuse _ | .resourceExceeded _ => False

/-- The name that a report shows for the file of an error. -/
def shownFile (e : EngineError) (style : ReportStyle) : String :=
  (style.filename.or e.filename).getD unknownFile

section

variable {e : EngineError} {d : Diagnostic} {source : String}

/-- The report of a diagnostic is part of the report of its error. -/
theorem exists_report (h : e.Reports d source) (style : ReportStyle) :
    ∃ front back, e.report style = String.join
      ((front ++ d.report style (e.shownFile style) source ++ back).map
        (· ++ "\n")) := by
  cases e with
  | misuse reason | resourceExceeded reason => exact h.elim
  | runtime diagnostic text filename =>
    obtain ⟨rfl, rfl⟩ := h
    exact ⟨[], [], by rw [List.append_nil]; rfl⟩
  | compilation diagnostics text filename =>
    obtain ⟨hmem, rfl⟩ := h
    obtain ⟨before, behind, rfl⟩ := List.append_of_mem hmem
    let lines := fun d : Diagnostic => d.report style
      ((style.filename.or filename).getD unknownFile) text
    refine ⟨before.flatMap lines, behind.flatMap lines, ?_⟩
    rw [List.append_assoc]
    show String.join (((before ++ d :: behind).flatMap lines).map _) = _
    rw [List.flatMap_append, List.flatMap_cons]
    rfl

/-- **Reports point at the diagnosed text where bytes are characters.** Whatever
the text of an error, and whichever of its diagnostics has a span on a line of
the text, the report of the error has the report of the diagnostic. This one
points at exactly the characters of the span if and only if each character in
front of the span is one byte, and the characters behind the span that are taken
for marked ones, as many as the marked ones have bytes too many, take no
columns. -/
theorem report_pointsAt_iff (h : e.Reports d source) {style : ReportStyle}
    (hstrokes : style.strokes = .unicode ∨ style.strokes = .ascii) {span : Span}
    (hspan : d.span = some span) {earlier later : List (List Char)}
    {left marked right : List Char}
    (hon : span.LiesOn source earlier left marked right later) :
    (∃ front back, e.report style = String.join
      ((front ++ d.report style (e.shownFile style) source ++ back).map
        (· ++ "\n")))
    ∧ (d.PointsAt style (e.shownFile style) (earlier.length + 1) left marked
        right (d.report style (e.shownFile style) source)
      ↔ (∀ c ∈ earlier.flatten ++ left, c.utf8Size = 1)
        ∧ columnsBefore (left ++ marked ++ right) (left.length + marked.length
            + Text.surplus marked)
          = columnsBefore (left ++ marked ++ right)
            (left.length + marked.length)) :=
  ⟨exists_report h style, Diagnostic.pointsAt_iff hstrokes hspan hon⟩

end

end EngineError

/-! ### A letter with an accent -/

namespace Accented

/-- Reports without colours, drawn in ASCII. -/
def style : ReportStyle := ⟨false, .ascii, none⟩

/-- A document in front of the name of a type that is unknown. -/
def front : String := "\x7b\"type\":\"array\",\"items\":\""

/-- The rest of the document, which has an accent. -/
def back : String := "\",\"doc\":\"é\"\x7d"

/-- The same in another order: here the accent is in front of the name. -/
def front' : String :=
  "\x7b\"type\":\"array\",\"doc\":\"é\",\"items\":\""

/-- The rest of that document. -/
def back' : String := "\"\x7d"

/-- A document with the name. -/
def document (front back : String) : String := front ++ "Missing" ++ back

/-- What is wrong with the documents: the name of the type, from a byte on. -/
def diagnostic (start : Nat) : Diagnostic :=
  ⟨.error, "unable to resolve definition of type `Missing`",
    some ⟨start, start + 7⟩, [], some "schema"⟩

/-- The error about a document. -/
def fault (source : String) (start : Nat) : EngineError :=
  .compilation [diagnostic start] source none

/-- The name is nowhere defined. -/
def cause : SchemaError := .unresolvedReference ⟨"Missing", ""⟩

theorem parse_eq {source : String} {start : Nat}
    (hparse : Schema.parse source = .error cause)
    (hspan : cause.span? source = some ⟨start, start + 7⟩) :
    Engine.parse source = .error (fault source start) := by
  have hmessage : cause.message
      = "unable to resolve definition of type `Missing`" := by decide
  rw [Engine.parse, hparse]
  show Except.error (EngineError.ofSchema cause source) = _
  rw [EngineError.ofSchema, SchemaError.diagnostic, hspan, hmessage]
  rfl

/-- The name in the first document. -/
theorem liesOn_front : Span.LiesOn ⟨25, 32⟩ (document front back) []
    front.toList "Missing".toList back.toList [] where
  lines := by cbv
  start := by cbv
  stop := by cbv
  inside := .inr rfl

/-- The name in the second document. -/
theorem liesOn_front' : Span.LiesOn ⟨36, 43⟩ (document front' back') []
    front'.toList "Missing".toList back'.toList [] where
  lines := by cbv
  start := by cbv
  stop := by cbv
  inside := .inr rfl

/-- **An accent behind a name** does no harm: the report points at the name. -/
theorem report_pointsAt_iff_behind :
    Engine.parse (document front back) = .error (fault (document front back) 25)
    ∧ (diagnostic 25).PointsAt style "<unknown>" 1 front.toList
      "Missing".toList back.toList
      ((diagnostic 25).report style "<unknown>" (document front back)) := by
  have hstrokes : style.strokes = .unicode ∨ style.strokes = .ascii := .inr rfl
  obtain ⟨-, hiff⟩ := EngineError.report_pointsAt_iff
    (e := fault (document front back) 25) ⟨List.mem_singleton_self _, rfl⟩
    hstrokes rfl liesOn_front
  exact ⟨parse_eq (by cbv) (by cbv),
    hiff.mpr ⟨Text.surplus_eq_zero_iff.mp (by cbv), rfl⟩⟩

/-- **An accent in front of a name** shifts the report: it shows the column
behind the first letter of the name, and underlines the closing quote instead of
this letter. -/
theorem pointsElsewhere :
    Engine.parse (document front' back')
      = .error (fault (document front' back') 36)
    ∧ Span.LiesOn ⟨36, 43⟩ (document front' back') [] front'.toList
      "Missing".toList back'.toList []
    ∧ (fault (document front' back') 36).report style
      = "[schema] Error: unable to resolve definition of type `Missing`\n"
        ++ "   ,-[ <unknown>:1:37 ]\n"
        ++ "   |\n"
        ++ " 1 | \x7b\"type\":\"array\",\"doc\":\"é\","
        ++ "\"items\":\"Missing\"\x7d\n"
        ++ "   |                                     ^^^|^^^  \n"
        ++ "   |                                        `----- "
        ++ "unable to resolve definition of type `Missing`\n"
        ++ "---'\n"
    ∧ ¬ (diagnostic 36).PointsAt style "<unknown>" 1 front'.toList
      "Missing".toList back'.toList
      ((diagnostic 36).report style "<unknown>" (document front' back')) := by
  refine ⟨parse_eq (by cbv) (by cbv), liesOn_front', by decide +kernel,
    fun h => ?_⟩
  have hcolumn := (Diagnostic.pointsAt_iff (.inr rfl) rfl liesOn_front').mp h
  exact absurd (hcolumn.1 'é' (by decide)) (by decide)

end Accented

end Avro
