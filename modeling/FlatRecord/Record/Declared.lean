import FlatRecord.Enumeration
import FlatRecord.Record.Codec
import FlatRecord.Schema

/-!
# Declared record types

A declaration lists the fields of a record by name and type, and gives the default
record.  Its records hold one datum for each field, and its field table and the
access by position follow from the list.
-/

namespace FlatRecord

/-- The type of a field of a declared record. -/
inductive CellType where
  | scalar (s : Scalar)
  | enumeration (e : Enumeration)

namespace CellType

/-- What a field of the type holds. -/
def Carrier : CellType → Type
  | scalar s => Value.Of s
  | enumeration e => e.Member

/-- The scalar type stored for the field. -/
def backing : CellType → Scalar
  | scalar s => s
  | enumeration e => e.repr

/-- The type as declared in a field table. -/
def declared : CellType → FieldType
  | scalar s => .scalar s
  | enumeration e => .enumeration e.name e.repr

def initial : (t : CellType) → t.Carrier
  | scalar s => (default : Value.Of s)
  | enumeration e => Enumeration.Member.first e

/-- What a field holds, as a stored value. -/
def toValue : (t : CellType) → t.Carrier → Value
  | scalar _, v => Subtype.val v
  | enumeration _, m => Enumeration.Member.toValue m

/-- What is stored as a value, if the value has the backing type. -/
def ofValue? : (t : CellType) → Value → Option t.Carrier
  | scalar s, v => v.as? s
  | enumeration e, v => Enumeration.Member.ofValue? e v

/-- Equality of what fields hold: of numbers for scalars, so that a NaN equals
nothing. -/
def same : (t : CellType) → t.Carrier → t.Carrier → Bool
  | scalar _, a, b => (Subtype.val a).numericEq (Subtype.val b)
  | enumeration _, a, b => Enumeration.Member.same a b

end CellType

/-- One datum for each of a list of field types. -/
def Cells : List CellType → Type
  | [] => Unit
  | t :: ts => t.Carrier × Cells ts

namespace Cells

def initial : (ts : List CellType) → Cells ts
  | [] => ()
  | t :: ts => (t.initial, initial ts)

/-- The value of the field at a position. -/
def get? : (ts : List CellType) → Cells ts → Nat → Option Value
  | [], _, _ => none
  | t :: _, (c, _), 0 => some (t.toValue c)
  | _ :: ts, (_, cs), i + 1 => get? ts cs i

/-- Stores a value in the field at a position, if it has the backing type. -/
def set : (ts : List CellType) → Cells ts → Nat → Value → Cells ts
  | [], cs, _, _ => cs
  | t :: _, (c, cs), 0, v => ((t.ofValue? v).getD c, cs)
  | _ :: ts, (c, cs), i + 1, v => (c, set ts cs i v)

/-- The values of all fields, in order. -/
def values : (ts : List CellType) → Cells ts → List Value
  | [], _ => []
  | t :: ts, (c, cs) => t.toValue c :: values ts cs

def same : (ts : List CellType) → Cells ts → Cells ts → Bool
  | [], _, _ => true
  | t :: ts, (a, as), (b, bs) => t.same a b && same ts as bs

end Cells

/-- A declared record type. -/
structure RecordDecl where
  name : String
  packing : Packing
  fields : List (String × CellType)
  /-- The record that a read starts from.  A declaration is free in its choice; the
  initial datum of each field is what is taken if it makes none. -/
  defaultRecord : Cells (fields.map Prod.snd) := Cells.initial _

namespace RecordDecl

/-- The types of the fields, in order. -/
def types (d : RecordDecl) : List CellType :=
  d.fields.map Prod.snd

/-- The field table, in order.  Every field is included. -/
def table (d : RecordDecl) : List Field :=
  d.fields.map fun (name, type) => { name := name, type := type.declared }

/-- The records of a declared type. -/
def Record (d : RecordDecl) : Type :=
  Cells d.types

instance (d : RecordDecl) : FixedRecord d.Record where
  default := d.defaultRecord
  typeName := d.name
  packing := d.packing
  fields := d.table
  value? := Cells.get? d.types
  setValue := Cells.set d.types

/-- A record as a map from field names to values. -/
def toFieldMap (d : RecordDecl) (r : d.Record) : FieldMap :=
  ((d.fields.map Prod.fst).zip (Cells.values d.types r)).foldl
    (fun m (name, v) => m.insert name v) ∅

/-- Equality of records, field by field. -/
instance (d : RecordDecl) : BEq d.Record :=
  ⟨Cells.same d.types⟩

end RecordDecl

end FlatRecord
