import FlatRecord.Bytes

/-!
# JSON strings

`TextState` runs over the characters of a string from its opening quote to its
closing one.  It decides two things at once: whether the string is a JSON string
at all, and which text it stands for.  The two differ in surrogates: an escaped
surrogate without its partner is allowed in a string, but such a string stands
for no text.
-/

namespace FlatRecord.Json

/-- Why a text cannot be read on. -/
inductive Fault where
  /-- It ends too early. -/
  | unexpectedEnd
  /-- A character cannot stand where it does. -/
  | malformed
deriving DecidableEq, Repr

/-- Where in a string the next character stands. -/
inductive TextPlace where
  | plain
  /-- After a backslash. -/
  | escape
  /-- Among the four digits of an escaped number. -/
  | hex (left : Nat) (value : Nat)
deriving DecidableEq, Repr

/-- What has been read of a string. -/
structure TextState where
  place : TextPlace := .plain
  /-- A high surrogate that waits for its partner. -/
  high : Option Nat := none
  /-- The characters, last one first, unless the string stands for no text. -/
  chars : Option (List Char) := some []
deriving DecidableEq, Repr

/-- What the next character does to a string. -/
inductive TextStep where
  | extend (s : TextState)
  /-- It is the closing quote.  The string stands for this text, if any. -/
  | finish (text : Option String)
  | refuse (f : Fault)
deriving DecidableEq, Repr

/-- The value of a hexadecimal digit. -/
def hexDigit? (c : Char) : Option Nat :=
  if '0' ≤ c ∧ c ≤ '9' then some (c.toNat - '0'.toNat)
  else if 'a' ≤ c ∧ c ≤ 'f' then some (c.toNat - 'a'.toNat + 10)
  else if 'A' ≤ c ∧ c ≤ 'F' then some (c.toNat - 'A'.toNat + 10)
  else none

/-- The character that a letter after a backslash stands for. -/
def escaped? (c : Char) : Option Char :=
  if c = '"' ∨ c = '\\' ∨ c = '/' then some c
  else if c = 'b' then some '\x08'
  else if c = 'f' then some '\x0c'
  else if c = 'n' then some '\n'
  else if c = 'r' then some '\r'
  else if c = 't' then some '\t'
  else none

/-- Whether a text has at least four bytes. -/
def hasFourBytes (rest : List Char) : Bool :=
  4 ≤ (rest.take 4).foldl (fun size c => size + c.utf8Size) 0

def isHighSurrogate (n : Nat) : Bool :=
  0xD800 ≤ n && n < 0xDC00

def isLowSurrogate (n : Nat) : Bool :=
  0xDC00 ≤ n && n < 0xE000

namespace TextState

/-- Adds a character.  A high surrogate that waits is left without a partner. -/
def push (s : TextState) (c : Char) : TextState :=
  { place := .plain
    high := none
    chars := if s.high.isSome then none else s.chars.map (c :: ·) }

/-- Adds an escaped number. -/
def pushUnit (s : TextState) (n : Nat) : TextState :=
  match s.high with
  | some high =>
    if isLowSurrogate n then
      let c := Char.ofNat (0x10000 + (high - 0xD800) * 0x400 + (n - 0xDC00))
      { place := .plain, high := none, chars := s.chars.map (c :: ·) }
    else
      { place := .plain, high := none, chars := none }
  | none =>
    if isHighSurrogate n then { s with place := .plain, high := some n }
    else if isLowSurrogate n then { place := .plain, high := none, chars := none }
    else s.push (Char.ofNat n)

/-- The text of a string that ends here. -/
def text? (s : TextState) : Option String :=
  if s.high.isSome then none else s.chars.map fun cs => String.ofList cs.reverse

/-- The step by a character, before `rest`.  The four digits of an escaped
number are missing if less than four bytes follow. -/
def step (s : TextState) (c : Char) (rest : List Char) : TextStep :=
  match s.place with
  | .plain =>
    if c = '"' then .finish s.text?
    else if c = '\\' then .extend { s with place := .escape }
    else if c.toNat < 0x20 then .refuse .malformed
    else .extend (s.push c)
  | .escape =>
    if c = 'u' then
      if hasFourBytes rest then .extend { s with place := .hex 3 0 }
      else .refuse .unexpectedEnd
    else
      match escaped? c with
      | some e => .extend (s.push e)
      | none => .refuse .malformed
  | .hex left value =>
    match hexDigit? c with
    | none => .refuse .malformed
    | some d =>
      match left with
      | 0 => .extend (s.pushUnit (value * 16 + d))
      | left + 1 => .extend { s with place := .hex left (value * 16 + d) }

/-- The fault that the reader of the text meets when the string breaks off with
`f`.  If the string already stands for no text, it has met a wrong character
before. -/
def faultWhenRead (s : TextState) (f : Fault) : Fault :=
  if s.chars.isSome then f else .malformed

end TextState

end FlatRecord.Json
