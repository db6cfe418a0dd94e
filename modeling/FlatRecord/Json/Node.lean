import FlatRecord.Json.Token

/-!
# Syntax trees of texts

Every text has a syntax tree, also one that is no JSON text.  The tree holds what
can be read before the text goes wrong, and shows at which place it goes wrong.
A reader that goes through a tree from left to right meets the first problem of
the text first, whether it is a wrong value or the end of what can be read.

The tree of a JSON text has no gaps, and all its containers are closed.
-/

namespace FlatRecord.Json

/-- Why there is no value where one is wanted. -/
inductive Gap where
  /-- The text ends. -/
  | ended
  /-- Something stands there that is no value. -/
  | misplaced
  /-- A string breaks off. -/
  | string (b : Break)
  /-- Another scalar breaks off, or no token starts there. -/
  | scalar (b : Break)
deriving DecidableEq, Repr

namespace Gap

/-- The fault met by a reader that wants the value. -/
def whenRead : Gap → Fault
  | ended => .unexpectedEnd
  | misplaced => .malformed
  | string b => b.whenRead
  | scalar b => b.whenRead

/-- The fault met by a reader that passes over the value. -/
def whenSkipped : Gap → Fault
  | ended => .unexpectedEnd
  | misplaced => .malformed
  | string b => b.whenSkipped
  | scalar b => b.whenSkipped

/-- The fault met by a reader that takes nothing but a string. -/
def whenStringRead : Gap → Fault
  | ended => .unexpectedEnd
  | string b => b.whenRead
  | misplaced | scalar _ => .malformed

end Gap

/-- How a container ends. -/
inductive Ending where
  | closed
  /-- Not at all.  A reader that passes over the container meets this fault. -/
  | cut (f : Fault)
deriving DecidableEq, Repr

/-- A syntax tree.  A member of an object is a key and a value.  A key is a string,
or the gap at which the object goes wrong. -/
inductive Node where
  | null
  | boolean (b : Bool)
  | number (value : Option Number)
  | string (text : Option String)
  | array (items : List Node) (ending : Ending)
  | object (members : List (Node × Node)) (ending : Ending)
  | gap (g : Gap)

namespace Node

/-- The fault met by a reader that passes over a node, if it meets one. -/
def skipFault? : Node → Option Fault
  | array _ (.cut f) | object _ (.cut f) => some f
  | gap g => some g.whenSkipped
  | _ => none

/-- The fault met where this stands and nothing but a string is taken. -/
def stringFault : Node → Fault
  | gap g => g.whenStringRead
  | _ => .malformed

end Node

/-! ## Building trees -/

/-- A container that is being read.  Items and members come last one first. -/
inductive Frame where
  | array (items : List Node)
  /-- An object whose next value belongs to `key`. -/
  | object (members : List (Node × Node)) (key : Node)

/-- The container with another value. -/
def Frame.plug (value : Node) (ending : Ending) : Frame → Node
  | array items => .array (value :: items).reverse ending
  | object members key => .object ((key, value) :: members).reverse ending

/-- The tree of a text, and whether something follows the value. -/
structure Document where
  root : Node
  trailing : Bool

namespace Document

/-- The tree of a text that goes wrong within containers, the innermost first. -/
def cut (f : Fault) (value : Node) (frames : List Frame) : Document :=
  ⟨frames.foldl (fun node frame => frame.plug node (.cut f)) value, false⟩

/-- The text goes wrong where a value is wanted. -/
def atGap (g : Gap) (frames : List Frame) : Document :=
  cut g.whenSkipped (.gap g) frames

/-- The text goes wrong where a key is wanted. -/
def atKey (g : Gap) (members : List (Node × Node)) (frames : List Frame) : Document :=
  let f := g.whenSkipped
  cut f (.object ((.gap g, .gap .misplaced) :: members).reverse (.cut f)) frames

/-- What is to come next.  The containers around it are kept apart. -/
inductive Expecting where
  | value
  /-- A value or the end, in an array that has just been opened. -/
  | firstItem
  /-- A key or the end, in an object that has just been opened. -/
  | firstKey
  /-- A key of an object with these members. -/
  | key (members : List (Node × Node))
  /-- The colon after a key of an object with these members. -/
  | colon (members : List (Node × Node)) (key : Node)
  /-- What follows a complete value. -/
  | separator (value : Node)

/-- The text ends here. -/
def finish : Expecting → List Frame → Document
  | .value, frames => atGap .ended frames
  | .firstItem, frames => atGap .ended (.array [] :: frames)
  | .firstKey, frames => atKey .ended [] frames
  | .key members, frames => atKey .ended members frames
  | .colon members key, frames => atGap .ended (.object members key :: frames)
  | .separator value, frames => cut .unexpectedEnd value frames

/-- A token where a value is wanted. -/
def startValue (frames : List Frame) : Token → Except Document (Expecting × List Frame)
  | .null => .ok (.separator .null, frames)
  | .boolean b => .ok (.separator (.boolean b), frames)
  | .number value => .ok (.separator (.number value), frames)
  | .string text => .ok (.separator (.string text), frames)
  | .openBracket => .ok (.firstItem, frames)
  | .openBrace => .ok (.firstKey, frames)
  | .brokenString b => .error (atGap (.string b) frames)
  | .brokenScalar b => .error (atGap (.scalar b) frames)
  | .closeBracket | .closeBrace | .comma | .colon => .error (atGap .misplaced frames)

/-- A token where a key is wanted. -/
def startKey (members : List (Node × Node)) (frames : List Frame) :
    Token → Except Document (Expecting × List Frame)
  | .string text => .ok (.colon members (.string text), frames)
  | .brokenString b => .error (atKey (.string b) members frames)
  | _ => .error (atKey .misplaced members frames)

/-- A token where it is known what is to come next: either something else is to
come then, or the tree is finished. -/
def advance (frames : List Frame) (t : Token) :
    Expecting → Except Document (Expecting × List Frame)
  | .value => startValue frames t
  | .firstItem =>
    if t = .closeBracket then .ok (.separator (.array [] .closed), frames)
    else startValue (.array [] :: frames) t
  | .firstKey =>
    if t = .closeBrace then .ok (.separator (.object [] .closed), frames)
    else startKey [] frames t
  | .key members => startKey members frames t
  | .colon members key =>
    if t = .colon then .ok (.value, .object members key :: frames)
    else .error (atGap .misplaced (.object members key :: frames))
  | .separator value =>
    match frames with
    | [] => .error ⟨value, true⟩
    | .array items :: outer =>
      if t = .comma then .ok (.value, .array (value :: items) :: outer)
      else if t = .closeBracket then
        .ok (.separator (.array (value :: items).reverse .closed), outer)
      else .error (cut .malformed value frames)
    | .object members key :: outer =>
      if t = .comma then .ok (.key ((key, value) :: members), outer)
      else if t = .closeBrace then
        .ok (.separator (.object ((key, value) :: members).reverse .closed), outer)
      else .error (cut .malformed value frames)

/-- The tree of a text of which these tokens are left. -/
def build : Expecting → List Frame → List Token → Document
  | expecting, frames, [] => finish expecting frames
  | expecting, frames, t :: ts =>
    match advance frames t expecting with
    | .ok (expecting, frames) => build expecting frames ts
    | .error document => document

/-- The tree of a text. -/
def ofChars (text : List Char) : Document :=
  build .value [] (Token.ofChars text)

end Document

end FlatRecord.Json
