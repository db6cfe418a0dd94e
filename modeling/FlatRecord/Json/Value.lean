import FlatRecord.Json.Problem

/-!
# JSON values

A JSON value without the text that it comes from.  Members of an object keep
their order, and a key may occur more than once.
-/

namespace FlatRecord

/-- A JSON value. -/
inductive Json where
  | null
  | boolean (b : Bool)
  | number (n : Json.Number)
  | string (s : String)
  | array (items : List Json)
  | object (members : List (String × Json))

namespace Json

/-- The kind of a value. -/
def kind : Json → Kind
  | null => .null
  | boolean b => .boolean b
  | number n => .number n
  | string s => .string s
  | array _ => .sequence
  | object _ => .map

/-! ## Compact text -/

/-- The written form of a character of a string.  Only the quote, the backslash
and the controls below U+0020 are escaped. -/
def escapedChar (c : Char) : List Char :=
  if c = '"' ∨ c = '\\' then ['\\', c]
  else if c = '\x08' then ['\\', 'b']
  else if c = '\x0c' then ['\\', 'f']
  else if c = '\n' then ['\\', 'n']
  else if c = '\r' then ['\\', 'r']
  else if c = '\t' then ['\\', 't']
  else if c.toNat < 0x20 then
    ['\\', 'u', '0', '0', Nat.digitChar (c.toNat / 16), Nat.digitChar (c.toNat % 16)]
  else [c]

/-- A string with its quotes. -/
def renderString (s : String) : List Char :=
  '"' :: s.toList.flatMap escapedChar ++ ['"']

def renderNumber : Number → List Char
  | .integer n => n.repr.toList
  | .float x => (Decimal.text x).toList

/-- The texts of items with commas between them. -/
def commaSeparated : List (List Char) → List Char
  | [] => []
  | [text] => text
  | text :: rest => text ++ ',' :: commaSeparated rest

mutual

/-- The text of a value without whitespace. -/
def render : Json → List Char
  | null => ['n', 'u', 'l', 'l']
  | boolean true => ['t', 'r', 'u', 'e']
  | boolean false => ['f', 'a', 'l', 's', 'e']
  | number n => renderNumber n
  | string s => renderString s
  | array items => '[' :: commaSeparated (renderItems items) ++ [']']
  | object members => '\x7b' :: commaSeparated (renderMembers members) ++ ['\x7d']

/-- The text of each item. -/
def renderItems : List Json → List (List Char)
  | [] => []
  | v :: rest => render v :: renderItems rest

/-- The text of each member. -/
def renderMembers : List (String × Json) → List (List Char)
  | [] => []
  | (k, v) :: rest => (renderString k ++ ':' :: render v) :: renderMembers rest

end

end Json

end FlatRecord
