import Avro.Text.Printable

/-!
# Quoted text

Text shown in messages and displays stands between quotes, with every character visible. The quote
and the backslash are escaped, a few control characters have short escapes, and whatever else would
not show on its own is written by its code point, as in `\u{200b}`.
-/

namespace Avro

namespace Text

/-- The visible form of a character between quotes. -/
def visible (c : Char) : List Char :=
  if c.toNat = 0 then ['\\', '0']
  else if c = '\t' then ['\\', 't']
  else if c = '\r' then ['\\', 'r']
  else if c = '\n' then ['\\', 'n']
  else if c = '"' then ['\\', '"']
  else if c = '\\' then ['\\', '\\']
  else if isPrintable c then [c]
  else ['\\', 'u', '{'] ++ Nat.toDigits 16 c.toNat ++ ['}']

/-- **The text between quotes**, every character visible. -/
def quoted (s : String) : String :=
  String.ofList ('"' :: (s.toList.flatMap visible ++ ['"']))

end Text

end Avro
