import FlatRecord.Text.Hidden

/-!
# Quoted texts in messages

A text is shown between double quotes.  A quote, a backslash, a line break, a
tab and the null character are written with a backslash, and every character
that does not show as its number in braces.
-/

namespace FlatRecord.Text

/-- The written form of a character. -/
def quotedChar (c : Char) : List Char :=
  if c = '\x00' then ['\\', '0']
  else if c = '\t' then ['\\', 't']
  else if c = '\r' then ['\\', 'r']
  else if c = '\n' then ['\\', 'n']
  else if c = '\\' || c = '"' then ['\\', c]
  else if isHidden c then
    '\\' :: 'u' :: '\x7b' :: Nat.toDigits 16 c.toNat ++ ['\x7d']
  else [c]

/-- A text with its quotes. -/
def quoted (s : String) : String :=
  String.ofList ('"' :: s.toList.flatMap quotedChar ++ ['"'])

end FlatRecord.Text
