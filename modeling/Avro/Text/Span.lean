/-!
# Spans of a text

A span is a range of *byte* offsets in a text. Texts are searched as bytes, so a quoted word is
found wherever its bytes stand between two quotes (`Span.quoted?`).
-/

namespace Avro

/-- **A range of byte offsets**, the end not included. -/
structure Span where
  /-- The first offset. -/
  start : Nat
  /-- The offset after the last. -/
  stop : Nat
  deriving DecidableEq, Repr, Inhabited

/-- The bytes of a text. -/
def utf8 (text : String) : List UInt8 := text.toUTF8.toList

namespace Span

/-- The offset at which a byte string first occurs in another. -/
def find? (needle : List UInt8) : List UInt8 → Option Nat
  | [] => if needle.isEmpty then some 0 else none
  | b :: rest =>
    if needle.isPrefixOf (b :: rest) then some 0 else (find? needle rest).map (· + 1)

/-- **The first place where a word is quoted**: the span of the word between its quotes. -/
def quoted? (source word : String) : Option Span :=
  (find? (34 :: (utf8 word ++ [34])) (utf8 source)).map fun start =>
    ⟨start + 1, start + 1 + (utf8 word).length⟩

/-- The number of bytes of the first lines of a text, each with its line break. -/
def lineStart : (lines : Nat) → List UInt8 → Nat
  | 0, _ => 0
  | _ + 1, [] => 0
  | lines + 1, b :: rest =>
    if b = 10 then lineStart lines rest + 1 else lineStart (lines + 1) rest + 1

/-- **The byte at a line and a column**, both counted from 1; the empty span at the end of the text
when they lie beyond it. -/
def atPlace (source : String) (line column : Nat) : Span :=
  let bytes := utf8 source
  let offset := min (lineStart (line - 1) bytes + (column - 1)) bytes.length
  ⟨offset, max (min (offset + 1) bytes.length) offset⟩

end Span

end Avro
