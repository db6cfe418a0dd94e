import FlatRecord.Json.Value

/-!
# Reading syntax trees

Readers take what they want from a syntax tree, from left to right, and stop at
the first problem.  This module has the readers that every format needs; the
formats themselves build theirs from them.

A reader that keeps a value whole, to look at it later, is `Node.toJson`.  It
bounds how deep the containers of the value may lie in each other.  A value that
is only passed over may be as deep as it likes.
-/

namespace FlatRecord.Json

/-- How many containers may lie in each other in a text that is read. -/
def maxNesting : Nat := 127

/-- The value called `name` among the options. -/
def choose {α : Type} (options : List (String × α)) (name : String) : Except Problem α :=
  match options.lookup name with
  | some a => .ok a
  | none => .error (.data (.unknownName name (options.map Prod.fst)))

/-- A container may end here only if it is closed. -/
def Ending.read : Ending → Except Problem Unit
  | closed => .ok ()
  | cut f => .error (.fault f)

namespace Node

/-! ## Scalars -/

/-- What a node is, for a reader that wanted something else. -/
def kind : Node → Except Fault Kind
  | null => .ok .null
  | boolean b => .ok (.boolean b)
  | number (some n) => .ok (.number n)
  | string (some s) => .ok (.string s)
  | number none | string none => .error .malformed
  | array .. => .ok .sequence
  | object .. => .ok .map
  | gap g => .error g.whenRead

/-- The problem of a reader that wanted something else. -/
def mismatch (n : Node) (expected : String) : Problem :=
  match n.kind with
  | .ok k => .data (.wrongKind k expected)
  | .error f => .fault f

def readString (expected : String) : Node → Except Problem String
  | string (some s) => .ok s
  | n => .error (n.mismatch expected)

def readBoolean : Node → Except Problem Bool
  | boolean b => .ok b
  | n => .error (n.mismatch "a boolean")

def readUnit : Node → Except Problem Unit
  | null => .ok ()
  | n => .error (n.mismatch "unit")

/-- The key of a member. -/
def readKey : Node → Except Problem String
  | string (some s) => .ok s
  | n => .error (.fault n.stringFault)

/-- Passes over a value. -/
def skip (n : Node) : Except Problem Unit :=
  match n.skipFault? with
  | none => .ok ()
  | some f => .error (.fault f)

/-! ## Choices -/

/-- One of some named options.  It is given as the name, or as an object with
the name as its only key and null as its value.  Another value in the place of the
name or of the key makes the text malformed, of whatever kind it is. -/
def readChoice {α : Type} (options : List (String × α)) : Node → Except Problem α
  | string (some s) => choose options s
  | object ((key, value) :: more) ending => do
    let a ← choose options (← key.readKey)
    value.readUnit
    if more.isEmpty then ending.read else throw (.fault .malformed)
    pure a
  | n => .error (.fault n.stringFault)

/-! ## Containers -/

/-- The first of the items, if there is one, and the others. -/
def firstItem (ending : Ending) : List Node → Except Problem (Option Node × List Node)
  | [] => do
    ending.read
    pure (none, [])
  | n :: rest => pure (some n, rest)

/-- The end of an array from which all items have been read. -/
def lastItem (ending : Ending) : List Node → Except Problem Unit
  | [] => ending.read
  | _ :: _ => .error (.fault .malformed)

/-- An array of values that `read` reads. -/
def readArray {α : Type} (read : Node → Except Problem α) : Node → Except Problem (List α)
  | array items ending => do
    let values ← items.mapM read
    ending.read
    pure values
  | n => .error (n.mismatch "a sequence")

/-- Goes through the members of an object with `step`. -/
def foldMembers {σ : Type} (step : σ → String → Node → Except Problem σ) :
    σ → List (Node × Node) → Except Problem σ
  | s, [] => .ok s
  | s, (key, value) :: rest => do
    let name ← key.readKey
    let s ← step s name value
    foldMembers step s rest

/-! ## Whole values -/

/-- The value of a tree whose containers lie at most `levels` deep in each
other. -/
def toJson : (levels : Nat) → Node → Except Problem Json
  | _, null => .ok .null
  | _, boolean b => .ok (.boolean b)
  | _, number (some n) => .ok (.number n)
  | _, string (some s) => .ok (.string s)
  | _, number none | _, string none => .error (.fault .malformed)
  | _, gap g => .error (.fault g.whenRead)
  | 0, array .. | 0, object .. => .error (.fault .malformed)
  | levels + 1, array items ending => do
    let values ← items.mapM (toJson levels)
    ending.read
    pure (.array values)
  | levels + 1, object members ending => do
    let values ← members.mapM fun (key, value) => do
      let name ← key.readKey
      let value ← toJson levels value
      pure (name, value)
    ending.read
    pure (.object values)

end Node

/-! ## Parts of values -/

/-- A value that is a string. -/
def readString : Json → Except Problem String
  | string s => .ok s
  | v => .error (.data (.wrongKind v.kind "a string"))

/-- Refuses items after the first `count`. -/
def noMoreItems (count : Nat) (expected : String) (rest : List Json) : Except Problem Unit :=
  if rest.isEmpty then .ok ()
  else .error (.data (.wrongLength (count + rest.length) expected))

/-! ## Members that are wanted once -/

/-- The value of a member that may be given once, after `read`, if it has not
been given before. -/
def readOnce {α : Type} (name : String) (slot : Option α) (read : Except Problem α) :
    Except Problem (Option α) :=
  match slot with
  | some _ => .error (.data (.repeated name))
  | none => read.map some

/-- The value of a member that must be given. -/
def required {α : Type} (name : String) (slot : Option α) : Except Problem α :=
  match slot with
  | some a => .ok a
  | none => .error (.data (.missing name))

/-! ## Texts -/

/-- Reads a text.  Only whitespace may follow the value. -/
def readText {α : Type} (read : Node → Except Problem α) (text : String) : Except Problem α := do
  let document := Document.ofChars text.toList
  let a ← read document.root
  if document.trailing then throw (.fault .malformed)
  pure a

end FlatRecord.Json
