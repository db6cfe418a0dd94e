import FlatRecord.Field
import FlatRecord.Bytes

/-!
# Layouts

A layout says where each stored field of a record lies.  Layouts are made by
`Layout.arrange`, in the module on placing fields.
-/

namespace FlatRecord

/-- How boolean fields are stored. -/
inductive Packing where
  /-- Every boolean takes a byte. -/
  | loose
  /-- Booleans share bytes, up to eight to a byte. -/
  | dense
deriving DecidableEq, Repr

instance : Inhabited Packing := ⟨.loose⟩

def Packing.name : Packing → String
  | loose => "NoCompaction"
  | dense => "CompactBools"

/-- Where one field lies in a record. -/
structure Placement where
  name : String
  /-- The position of the field in the list that the layout is made from. -/
  index : Nat
  /-- The first byte, counted from the start of the record. -/
  offset : Nat
  /-- The bit of that byte that a boolean takes when booleans share bytes. -/
  bit : Nat
  backing : Scalar
  /-- The bytes that the field takes; a boolean that shares a byte counts it whole. -/
  size : Nat
deriving DecidableEq, Repr

namespace Placement

def isBool (p : Placement) : Bool :=
  p.backing == .bool

end Placement

/-- The places of the fields of a record, and the size of the record. -/
structure Layout where
  packing : Packing
  totalSize : Nat
  /-- Scalars first, then booleans, each by name. -/
  placements : List Placement
deriving DecidableEq, Repr

namespace Layout

/-- The place of the field with this name. -/
def get? (l : Layout) (name : String) : Option Placement :=
  l.placements.find? fun p => p.name == name

def isEmpty (l : Layout) : Bool :=
  l.placements.isEmpty

end Layout

end FlatRecord
