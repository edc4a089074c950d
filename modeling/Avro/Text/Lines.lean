/-!
# Lines of a text

A text is cut into lines at its line breaks. A break belongs to the line that it ends, and a carriage
return with the line feed after it is one break. The pieces of a text, cut in whatever way, are the
text when put in a row (`flatten_pieces`).

A character offset has a *place*: the number of its line and its column, both counted from 0. The
offset after the last character lies on the last line.
-/

namespace Avro

namespace Text

/-- **The pieces of a text** that end where `breaks` says so of a character and what follows it; each
keeps the character that ends it. The empty text has no piece. -/
def pieces (breaks : Char → List Char → Bool) : List Char → List (List Char)
  | [] => []
  | c :: rest =>
    match pieces breaks rest with
    | [] => [[c]]
    | piece :: others =>
      if breaks c rest then [c] :: piece :: others else (c :: piece) :: others

/-- The pieces in a row are the text. -/
@[simp] theorem flatten_pieces (breaks : Char → List Char → Bool) (text : List Char) :
    (pieces breaks text).flatten = text := by
  induction text with
  | nil => rfl
  | cons c rest ih =>
    unfold pieces
    split
    · next h => simp_all
    · next piece others h =>
      rw [h] at ih
      split <;> simp_all

/-- Whether a character ends a line, given what follows. -/
def isBreak (c : Char) (rest : List Char) : Bool :=
  (c = '\r' && rest.head? ≠ some '\n') || c = '\n' || c = '\x0b' || c = '\x0c' || c = '\u0085' ||
    c = '\u2028' || c = '\u2029'

/-- **The lines of a text**, each with its break. -/
def lines (text : List Char) : List (List Char) := pieces isBreak text

/-- A line that a line feed ends, without the line feed and a carriage return before it. -/
def withoutFeed (line : List Char) : List Char :=
  match line.reverse with
  | '\n' :: '\r' :: rest => rest.reverse
  | '\n' :: rest => rest.reverse
  | _ => line

/-- **The lines of a message**, which only line feeds end, without their ends. -/
def messageLines (text : String) : List String :=
  (pieces (fun c _ => c = '\n') text.toList).map fun line => String.ofList (withoutFeed line)

/-- **The place of a character**, given the lines. -/
structure Place where
  /-- The number of the line. -/
  line : Nat
  /-- The column on it. -/
  column : Nat
  deriving DecidableEq, Repr, Inhabited

/-- The place of an offset in a text with these lines; `none` beyond the text. -/
def place? : (offset : Nat) → List (List Char) → Option Place
  | offset, [] => if offset = 0 then some ⟨0, 0⟩ else none
  | offset, line :: rest =>
    if offset < line.length then some ⟨0, offset⟩
    else
      match rest with
      | [] => if offset = line.length then some ⟨0, offset⟩ else none
      | _ :: _ => (place? (offset - line.length) rest).map fun p => ⟨p.line + 1, p.column⟩

end Text

end Avro
