import FlatRecord.Decimal.Shortest
import FlatRecord.Json.Node
import FlatRecord.Text.Quoted

/-!
# Problems of JSON texts

A reader stops at a fault of the text, or because the text says something that
the reader does not accept.  Each kind of the latter is a cause with its data;
the wording is in `message`.
-/

namespace FlatRecord.Json

/-- What stands where something else is expected. -/
inductive Kind where
  | null
  | boolean (b : Bool)
  | number (n : Number)
  | string (s : String)
  | sequence
  | map
deriving DecidableEq, Repr

/-- Why a reader does not accept what a text says. -/
inductive Cause where
  | wrongKind (found : Kind) (expected : String)
  | wrongValue (found : Kind) (expected : String)
  | wrongLength (length : Nat) (expected : String)
  | unknownName (name : String) (known : List String)
  | missing (name : String)
  | repeated (name : String)
deriving DecidableEq, Repr

/-- Why a text cannot be read. -/
inductive Problem where
  | fault (f : Fault)
  | data (c : Cause)
deriving DecidableEq, Repr

/-! ## Messages -/

def Kind.display : Kind → String
  | null => "null"
  | boolean true => "boolean `true`"
  | boolean false => "boolean `false`"
  | number (.integer n) =>
    let text := n.repr
    s!"integer `{text}`"
  | number (.float x) =>
    let text := Decimal.text x
    s!"floating point `{text}`"
  | string s => "string " ++ Text.quoted s
  | sequence => "sequence"
  | map => "map"

/-- A list of names to choose from. -/
def choices : List String → String
  | [a, b] => s!"`{a}` or `{b}`"
  | names => "one of " ++ ", ".intercalate (names.map fun name => s!"`{name}`")

def Cause.message : Cause → String
  | wrongKind found expected =>
    let shown := found.display
    s!"invalid type: {shown}, expected {expected}"
  | wrongValue found expected =>
    let shown := found.display
    s!"invalid value: {shown}, expected {expected}"
  | wrongLength length expected => s!"invalid length {length}, expected {expected}"
  | unknownName name known =>
    let shown := choices known
    s!"unknown variant `{name}`, expected {shown}"
  | missing name => s!"missing field `{name}`"
  | repeated name => s!"duplicate field `{name}`"

end FlatRecord.Json
