import FlatRecord.Error

/-!
# Fields

A field is declared with a name and a type.  Its backing is the scalar type
that is stored for it; some declared types have none.
-/

namespace FlatRecord

/-- The type that a field is declared with. -/
inductive FieldType where
  /-- A scalar, stored as it is. -/
  | scalar (s : Scalar)
  /-- An enumeration, stored as a value of `underlying`. -/
  | enumeration (name : String) (underlying : Scalar)
  /-- A type that cannot be stored. -/
  | unsupported (name : String)
deriving DecidableEq, Repr

namespace FieldType

/-- Only the boolean scalar is a boolean, and no enumeration is. -/
def isBool (t : FieldType) : Bool :=
  t == scalar .bool

/-- The type as shown to a reader. -/
def display : FieldType → String
  | scalar s => s.name
  | enumeration name underlying =>
    let type := underlying.name
    s!"{name} ({type})"
  | unsupported name => name

end FieldType

/-- A declared field. -/
structure Field where
  name : String
  type : FieldType
  /-- Whether the field is stored.  One that is not takes no part in a layout. -/
  included : Bool := true
deriving DecidableEq, Repr

namespace Field

/-- The scalar type stored for a field.  An enumeration is stored in an integer. -/
def backing (f : Field) : Except LayoutError Scalar :=
  match f.type with
  | .scalar s => .ok s
  | .enumeration _ underlying =>
    if underlying.isInteger then .ok underlying
    else .error (.notInteger f.name underlying)
  | .unsupported typeName => .error (.unstorable f.name typeName)

theorem backing_of_isBool {f : Field} (h : f.type.isBool) : f.backing = .ok .bool := by
  have : f.type = .scalar .bool := by simpa [FieldType.isBool] using h
  simp [backing, this]

end Field

end FlatRecord
