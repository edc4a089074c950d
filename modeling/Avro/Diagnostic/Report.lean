import Avro.Diagnostic.Drawing

/-!
# Reports

A diagnostic that points into its text is reported with the line it points to: a heading, the file
with line and column, the line in a frame, the marked part underlined with the message at the end of
an arrow, and the help texts. A span over several lines is marked by a bracket on the left, from its
first line to its last, and the lines between are left out. A diagnostic that points nowhere, or
past the end of the text, is reported in plain lines.

The offsets of a span are taken as offsets of *characters*. They are offsets of bytes, so the marks
are shifted to the right after characters of more than one byte. Marks may thereby end one character
after the text, and are then incomplete; a report whose marks go further consists of its heading.
-/

namespace Avro

/-- **How reports look.** -/
structure ReportStyle where
  /-- Whether inks are shown as colours. -/
  colored : Bool
  /-- The strokes. -/
  strokes : Strokes
  /-- The name to show for the file, whatever the error says. -/
  filename : Option String
  deriving Repr, Inhabited

/-- Coloured reports with Unicode strokes. -/
def ReportStyle.default : ReportStyle := ⟨true, .unicode, none⟩

/-- **The part of a text that a report shows.** -/
structure Excerpt where
  /-- The lines of the text. -/
  lines : List (List Char)
  /-- The marked characters. -/
  span : Span
  /-- The place of the first of them. -/
  first : Text.Place
  /-- The number of the line of the last of them. -/
  lastLine : Nat
  deriving DecidableEq, Repr, Inhabited

namespace Excerpt

/-- The excerpt of a span; `none` if it leaves the text. -/
def ofSpan? (source : String) (span : Span) : Option Excerpt :=
  let lines := Text.lines source.toList
  match Text.place? span.start lines, Text.place? (max span.start (span.stop - 1)) lines with
  | some first, some last => some ⟨lines, span, first, last.line⟩
  | _, _ => none

variable (x : Excerpt) (s : Strokes)

/-- The characters of a line. -/
def lineAt (number : Nat) : List Char := x.lines.getD number []

/-- The offset of the first character of a line. -/
def lineStart (number : Nat) : Nat := (x.lines.take number).flatten.length

/-- Whether the character at an offset is marked. -/
def marked (offset : Nat) : Bool := x.span.start ≤ offset && offset < x.span.stop

/-- Whether the last marked character is one of the text. It is not if the span ends one character
after the text. -/
def ends : Bool := x.span.stop ≤ x.lines.flatten.length

/-- The width of the line numbers. -/
def numberWidth : Nat := (toString (x.lastLine + 1)).length

/-- The left edge of a line of the text. -/
def numberEdge (number : Nat) : Row :=
  let shown := toString (number + 1)
  let filling := String.ofList (List.replicate (x.numberWidth - shown.length) ' ')
  [.blanks 1, ⟨.frame, filling ++ shown ++ " " ++ s.down.toString⟩, .blanks 1]

/-- The left edge of another row. -/
def edge (stroke : Char) : Row :=
  let filling := String.ofList (List.replicate (x.numberWidth + 1) ' ')
  [.blanks 1, ⟨.gutter, filling ++ stroke.toString⟩, .blanks 1]

/-- The pieces of a line of the text. -/
def lineRow (number : Nat) : Row :=
  let start := x.lineStart number
  .ofLine (fun index => x.marked (start + index)) (x.lineAt number)

/-- **The rows of a span on one line**: the line, the marks, and the arrow from the middle of the
span to the message. A span that ends after the line has no marks. -/
def inlineRows (message : String) : List Row :=
  let number := x.first.line
  let line := x.lineAt number
  let start := x.lineStart number
  let left := x.first.column
  let right := x.span.stop - start
  let middle := (x.span.start + x.span.stop) / 2 - start
  let mark (index : Nat) : Mark :=
    if index = middle then
      if left < right then .of s.stem s.underline else .of s.down ' '
    else if x.marked (start + index) then .of s.underline s.underline
    else .none
  let arrow (index : Nat) : Mark :=
    if index < middle then .none
    else if index = middle then .of s.bottomLeft s.across
    else .of s.across s.across
  let text := x.numberEdge s number ++ x.lineRow number
  if right ≤ line.length then
    [text, x.edge s.down ++ .ofMarks line (right + 2) mark,
     x.edge s.down ++ .ofMarks line (right + 2) arrow ++ [.plain (" " ++ message)]]
  else [x.edge s.down]

/-- **The rows of a span over several lines**: the first and the last line with a bracket on their
left, and the message at the end of an arrow under them. The bracket of a span that ends after the
text stays open, without its last line and the message. -/
def bracketRows (message : String) : List Row :=
  let strokes (cs : List Char) : Row := cs.map (.char .mark)
  let line := x.lineAt x.lastLine
  let row (number : Nat) (corner : Char) : Row :=
    x.numberEdge s number ++ strokes [corner, s.across, s.tip, ' '] ++ x.lineRow number
  let gap : Row := x.edge s.gap ++ strokes [s.gap] ++ [.blanks 3]
  let under (mark : Mark) : Row := .ofMarks line (line.length + 2) fun _ => mark
  let closing : List Row :=
    [row x.lastLine s.branch,
     x.edge s.down ++ strokes [s.down] ++ [.blanks 3] ++ under .none,
     x.edge s.down ++ strokes [s.bottomLeft, s.across, s.across, s.across] ++
       under (.of s.across s.across) ++ [.plain (" " ++ message)]]
  row x.first.line s.topLeft ::
    if x.ends then (if x.first.line + 1 < x.lastLine then [gap] else []) ++ closing else [gap]

/-- Whether the span lies on one line. -/
def isInline : Bool := x.first.line = x.lastLine

/-- The rows of the text and its marks. -/
def rows (message : String) : List Row :=
  if x.isInline then x.inlineRows s message else x.bracketRows s message

/-- The left edge of the rows of help texts. Beside a bracket it leaves the bracket's columns free,
but draws it on if the bracket begins with the second line of the text. -/
def helpEdge : Row :=
  x.edge s.down ++
    if x.isInline then []
    else if x.span.start = (x.lineAt 0).length then [.char .mark s.down, .blanks 3]
    else [.blanks 4]

/-- **The rows of a help text** with the word before it, and an empty row above. -/
def helpRows (word text : String) : List Row :=
  let edge := x.helpEdge s
  let first (line : String) : Row := edge ++ [⟨.help, word⟩, .plain (": " ++ line)]
  let other (line : String) : Row := edge ++ [.blanks (word.length + 2), .plain line]
  edge ::
    match Text.messageLines text with
    | [] => []
    | line :: others => first line :: others.map other

/-- The words before a number of help texts, which are numbered if there are several. -/
def helpWords (count : Nat) : List String :=
  if count = 1 then ["Help"] else (List.range count).map fun i => s!"Help {i + 1}"

/-- **The frame of an excerpt**: the file with line and column, the marked text, the help texts. -/
def frame (filename message : String) (help : List String) : List Row :=
  let place := s!" {filename}:{x.first.line + 1}:{x.first.column + 1} "
  let margin := Piece.blanks (x.numberWidth + 2)
  let foot := List.replicate (x.numberWidth + 2) s.across ++ [s.bottomRight]
  [[margin, .char .frame s.topLeft, .char .frame s.across, .char .frame '[', .plain place,
    .char .frame ']'],
   [margin, .char .frame s.down]] ++
    x.rows s message ++
    (List.zipWith (x.helpRows s) (helpWords help.length) help).flatten ++
    [[⟨.frame, String.ofList foot⟩]]

end Excerpt

namespace Diagnostic

/-- The word for a severity in the heading of a report. -/
def headingWord : Severity → String
  | .error => "Error"
  | .warning => "Warning"
  | .info => "Advice"

/-- The heading: the code, filled up to two characters, the severity and the message. -/
def heading (d : Diagnostic) : Row :=
  let code :=
    match d.code with
    | some code =>
      "[" ++ code ++ String.ofList (List.replicate (2 - code.length) ' ') ++ "] "
    | none => ""
  [⟨.heading d.severity, code ++ headingWord d.severity ++ ":"⟩, .plain (" " ++ d.message)]

/-- **The lines of a diagnostic that points nowhere.** -/
def plainLines (d : Diagnostic) : List String :=
  let code :=
    match d.code with
    | some code => s!"[{code}] "
    | none => ""
  (code ++ d.severity.text ++ ": " ++ d.message) :: d.help.map ("  help: " ++ ·)

/-- The place of a diagnostic, if it ends within the bytes of the text. -/
def place? (d : Diagnostic) (source : String) : Option Span :=
  d.span.filter (·.stop ≤ source.utf8ByteSize)

/-- **The lines of the report of a diagnostic.** -/
def report (d : Diagnostic) (style : ReportStyle) (filename source : String) : List String :=
  match d.place? source with
  | none => d.plainLines
  | some span =>
    let frame :=
      match Excerpt.ofSpan? source span with
      | some x => x.frame style.strokes filename d.message d.help
      | none => []
    (d.heading :: frame).map (Row.render style.colored)

end Diagnostic

end Avro
