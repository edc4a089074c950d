import Avro.Diagnostic.Basic
import Avro.Text.Lines
import Avro.Text.Width

/-!
# Drawing reports

A report is drawn row by row, and a row is a sequence of pieces of one ink each. The strokes of the
frame come in a Unicode and an ASCII set, and inks can be shown as terminal colours or not at all.

Where a row stands under a line of text, it has one *mark* for every character of the line, as wide
as that character, so that marks stand under what they mark.
-/

namespace Avro

/-- **The characters that frames and marks are drawn with.** -/
structure Strokes where
  /-- A horizontal line. -/
  across : Char
  /-- A vertical line. -/
  down : Char
  /-- A vertical line where lines of the text are left out. -/
  gap : Char
  /-- A top left corner. -/
  topLeft : Char
  /-- A bottom left corner. -/
  bottomLeft : Char
  /-- A bottom right corner. -/
  bottomRight : Char
  /-- A line to the right off a vertical line. -/
  branch : Char
  /-- The tip of an arrow to the right. -/
  tip : Char
  /-- An underlined character. -/
  underline : Char
  /-- The underlined character from which the arrow starts. -/
  stem : Char
  deriving DecidableEq, Repr, Inhabited

namespace Strokes

/-- The set that uses Unicode box drawing. -/
def unicode : Strokes := ⟨'─', '│', '┆', '╭', '╰', '╯', '├', '▶', '─', '┬'⟩

/-- The set that uses ASCII only. -/
def ascii : Strokes := ⟨'-', '|', ':', ',', '`', '\'', '|', '>', '^', '|'⟩

end Strokes

/-- **The ink of a piece**: what it is there for. -/
inductive Ink
  /-- Nothing in particular. -/
  | plain
  /-- The heading of a report. -/
  | heading (severity : Severity)
  /-- The frame and the line numbers. -/
  | frame
  /-- The frame beside rows that are no lines of the text. -/
  | gutter
  /-- The text. -/
  | text
  /-- The marked part of the text, and its marks. -/
  | mark
  /-- The word before a help text. -/
  | help
  deriving DecidableEq, Repr, Inhabited

/-- The parameters by which a terminal selects the colour of an ink. -/
def Ink.color? : Ink → Option String
  | plain => none
  | heading .error => some "31"
  | heading .warning => some "33"
  | heading .info => some "38;5;147"
  | frame => some "38;5;246"
  | gutter => some "38;5;240"
  | text => some "38;5;249"
  | mark => some "38;5;155"
  | help => some "38;5;115"

/-- **A piece of a row.** -/
structure Piece where
  /-- Its ink. -/
  ink : Ink
  /-- Its text. -/
  text : String
  deriving DecidableEq, Repr, Inhabited

/-- A row of a report. -/
abbrev Row := List Piece

namespace Piece

/-- The text of a piece, with its colour switched on and off if colours are shown. -/
def render (colored : Bool) (p : Piece) : String :=
  match colored, p.ink.color? with
  | true, some color => "\x1b[" ++ color ++ "m" ++ p.text ++ "\x1b[0m"
  | _, _ => p.text

/-- Plain text. -/
def plain (text : String) : Piece := ⟨.plain, text⟩

/-- A single character. -/
def char (ink : Ink) (c : Char) : Piece := ⟨ink, c.toString⟩

/-- Plain blanks. -/
def blanks (n : Nat) : Piece := plain (String.ofList (List.replicate n ' '))

end Piece

/-- The text of a row. -/
def Row.render (colored : Bool) (row : Row) : String := String.join (row.map (·.render colored))

/-- **A mark under a character**: the piece in its first column and the piece in any others. -/
structure Mark where
  /-- The piece in the first column. -/
  first : Piece
  /-- The piece in the other columns. -/
  other : Piece
  deriving DecidableEq, Repr, Inhabited

/-- No mark. -/
def Mark.none : Mark := ⟨.blanks 1, .blanks 1⟩

/-- A mark of two strokes. -/
def Mark.of (first other : Char) : Mark := ⟨.char .mark first, .char .mark other⟩

namespace Row

/-- The characters of a line up to the last that is not a blank. -/
def trimmed (line : List Char) : List Char := (line.reverse.dropWhile Text.isBlank).reverse

/-- The pieces of a line: a piece for every character, or for every column of a blank. -/
def ofLine (marked : Nat → Bool) (line : List Char) : Row :=
  (trimmed line).zipIdx.flatMap fun (c, index) =>
    let ink := if marked index then .mark else .text
    if Text.isBlank c then List.replicate (Text.columns index c) (.char ink ' ')
    else [.char ink c]

/-- The pieces of a mark that is as wide as a number of columns. -/
def ofMark (mark : Mark) : (width : Nat) → Row
  | 0 => []
  | others + 1 => mark.first :: List.replicate others mark.other

/-- The marks under a number of characters from an index on, given the characters that are left.
Where there are none, every index has one column. -/
def marksFrom (mark : Nat → Mark) : (index length : Nat) → List Char → Row
  | _, 0, _ => []
  | index, length + 1, [] => ofMark (mark index) 1 ++ marksFrom mark (index + 1) length []
  | index, length + 1, c :: rest =>
    ofMark (mark index) (Text.columns index c) ++ marksFrom mark (index + 1) length rest

/-- **The marks under the first characters of a line.** -/
def ofMarks (line : List Char) (length : Nat) (mark : Nat → Mark) : Row :=
  marksFrom mark 0 length (trimmed line)

end Row

end Avro
