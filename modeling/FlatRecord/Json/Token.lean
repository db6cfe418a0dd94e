import FlatRecord.Json.Number
import FlatRecord.Json.Text

/-!
# JSON tokens

A text is cut into tokens, and whitespace is dropped.  Cutting never fails: where
the text stops being made of tokens, the last token says how.

A scalar that breaks off carries two faults.  One is met by a reader that wants
its value, the other by a reader that only passes over it.
-/

namespace FlatRecord.Json

/-- What a reader meets in a scalar that breaks off. -/
structure Break where
  /-- The fault when the value is wanted. -/
  whenRead : Fault
  /-- The fault when the value is passed over. -/
  whenSkipped : Fault
deriving DecidableEq, Repr

inductive Token where
  | openBracket | closeBracket | openBrace | closeBrace
  | comma | colon
  | null
  | boolean (b : Bool)
  /-- A number; a float that is too large is none. -/
  | number (value : Option Number)
  /-- A string; one with a surrogate that has no partner stands for no text. -/
  | string (text : Option String)
  /-- A string that breaks off.  It is the last token. -/
  | brokenString (b : Break)
  /-- Another scalar that breaks off, or a character that starts no token.  It is
  the last token. -/
  | brokenScalar (b : Break)
deriving DecidableEq, Repr

/-- JSON whitespace. -/
def isBlank (c : Char) : Bool :=
  c = ' ' || c = '\n' || c = '\t' || c = '\r'

/-- What the next character is a part of. -/
inductive Scan where
  /-- No token. -/
  | between
  | inString (s : TextState)
  /-- A numeral, of which these characters have been read, the last one first. -/
  | inNumeral (s : NumeralState) (read : List Char)
  /-- A word, of which these characters are still to come. -/
  | inWord (rest : List Char) (token : Token)
deriving Repr

namespace Token

/-- The last token when a wrong character follows. -/
def wrong : Token :=
  brokenScalar ⟨.malformed, .malformed⟩

/-- The token that is a single character. -/
def punctuation? (c : Char) : Option Token :=
  match c with
  | '[' => some openBracket
  | ']' => some closeBracket
  | '{' => some openBrace
  | '}' => some closeBrace
  | ',' => some comma
  | ':' => some colon
  | _ => none

/-- The rest of the word that starts with a letter, and its token. -/
def word? (c : Char) : Option (List Char × Token) :=
  match c with
  | 'n' => some (['u', 'l', 'l'], null)
  | 't' => some (['r', 'u', 'e'], boolean true)
  | 'f' => some (['a', 'l', 's', 'e'], boolean false)
  | _ => none

/-- What a character between tokens is: the token that it is, if it is a whole
one, and what follows. -/
def start? (c : Char) : Option (List Token × Scan) :=
  if isBlank c then some ([], .between)
  else if c = '"' then some ([], .inString {})
  else
    match punctuation? c with
    | some token => some ([token], .between)
    | none =>
      match NumeralState.start? c with
      | some s => some ([], .inNumeral s [c])
      | none =>
        match word? c with
        | some (rest, token) => some ([], .inWord rest token)
        | none => none

/-- The tokens of the rest of a text. -/
def scan : Scan → List Char → List Token
  | .between, [] => []
  | .inString s, [] =>
    [brokenString ⟨s.faultWhenRead .unexpectedEnd, .unexpectedEnd⟩]
  | .inNumeral s read, [] =>
    if s.isComplete then [number (Number.ofNumeral? read.reverse)]
    else [brokenScalar ⟨.unexpectedEnd, .malformed⟩]
  | .inWord _ _, [] => [brokenScalar ⟨.unexpectedEnd, .unexpectedEnd⟩]
  | .between, c :: cs =>
    match start? c with
    | some (tokens, next) => tokens ++ scan next cs
    | none => [wrong]
  | .inString s, c :: cs =>
    match s.step c cs with
    | .extend s => scan (.inString s) cs
    | .finish text => string text :: scan .between cs
    | .refuse f => [brokenString ⟨s.faultWhenRead f, f⟩]
  | .inNumeral s read, c :: cs =>
    match s.step c with
    | .extend s => scan (.inNumeral s (c :: read)) cs
    | .refuse => [wrong]
    | .finish =>
      number (Number.ofNumeral? read.reverse) ::
        match start? c with
        | some (tokens, next) => tokens ++ scan next cs
        | none => [wrong]
  | .inWord rest token, c :: cs =>
    match rest with
    | [] => [wrong]
    | [last] => if c = last then token :: scan .between cs else [wrong]
    | next :: rest => if c = next then scan (.inWord rest token) cs else [wrong]

/-- The tokens of a text. -/
def ofChars (text : List Char) : List Token :=
  scan .between text

end Token

end FlatRecord.Json
