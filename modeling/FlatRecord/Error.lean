import FlatRecord.Scalar

/-!
# Errors

What can go wrong when fields are laid out, and when a record is written or
read.  Each kind is a cause with its data; the wording is in `message`.
-/

namespace FlatRecord

/-- Why a list of fields has no layout. -/
inductive LayoutError where
  /-- A field to be stored has a type that cannot be. -/
  | unstorable (field typeName : String)
  /-- An enumeration field is stored in something other than an integer. -/
  | notInteger (field : String) (underlying : Scalar)
  /-- A field to be stored has the empty name. -/
  | emptyName
  /-- Two fields to be stored have this name. -/
  | repeatedName (field : String)
deriving DecidableEq, Repr

/-- Why a record cannot be read. -/
inductive ReadError where
  /-- The record takes `needed` bytes, and only `remaining` follow the offset. -/
  | tooShort (needed remaining : Nat)
deriving DecidableEq, Repr

/-- Why a record cannot be written. -/
inductive WriteError where
  /-- The record takes `needed` bytes, and only `remaining` follow the offset. -/
  | tooShort (needed remaining : Nat)
  /-- There is no value for the field. -/
  | noValue (field : String)
  /-- The value for the field is not of the type that is stored. -/
  | wrongType (field : String) (expected found : Scalar)
deriving DecidableEq, Repr

/-- Any of the errors, for callers that make a layout and use it in one step. -/
inductive Error where
  | layout (e : LayoutError)
  | read (e : ReadError)
  | write (e : WriteError)
deriving DecidableEq, Repr

/-! ## Messages -/

def LayoutError.message : LayoutError → String
  | unstorable field typeName =>
    s!"cannot bit pack field `{field}` of type {typeName}: it is not a supported type"
  | notInteger field underlying =>
    let type := underlying.name
    s!"cannot bit pack enum field `{field}`: underlying type {type} is not an integer"
  | emptyName => "field name must not be empty"
  | repeatedName field => s!"field `{field}` is declared more than once"

def ReadError.message : ReadError → String
  | tooShort needed remaining =>
    s!"cannot get record from bytes: expected {needed} and got {remaining} " ++
      "remaining bytes after offset"

def WriteError.message : WriteError → String
  | tooShort needed remaining =>
    s!"cannot write record to byte array: needed {needed} bytes, " ++
      s!"and there are only {remaining} remaining bytes after offset"
  | noValue field => s!"record has no value for field `{field}`"
  | wrongType field expected found =>
    let wanted := expected.name
    let given := found.name
    s!"field `{field}` expects a {wanted} value, got {given}"

def Error.message : Error → String
  | layout e => e.message
  | read e => e.message
  | write e => e.message

end FlatRecord
