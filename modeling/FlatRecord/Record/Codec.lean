import FlatRecord.Layout.Transfer
import FlatRecord.Layout.Arrange
import FlatRecord.Layout.Event

/-!
# Typed records

A type of fixed records names its fields and gives access to them by position.
Its codec is the layout of those fields, used on records of the type.

The same operations on the records themselves make the codec first and report
any error as an `Error`.
-/

namespace FlatRecord

/-- Types of records with a fixed list of fields.  A field is reached by its
position in `fields`. -/
class FixedRecord (α : Type) extends Inhabited α where
  typeName : String
  packing : Packing
  fields : List Field
  /-- The value of a field, if the field has one. -/
  value? : α → Nat → Option Value
  /-- Stores a value in a field.  A value that does not fit changes nothing. -/
  setValue : α → Nat → Value → α

/-- The layout of a type of records. -/
structure RecordCodec (α : Type) where
  layout : Layout

namespace RecordCodec

variable {α : Type} [FixedRecord α]

/-- The codec of a type. -/
def make (α : Type) [FixedRecord α] : Except LayoutError (RecordCodec α) :=
  (Layout.arrange (FixedRecord.fields α) (FixedRecord.packing α)).map RecordCodec.mk

/-- The events of making the codec of a type. -/
def events (α : Type) [FixedRecord α] : List Event :=
  match Layout.arrange (FixedRecord.fields α) (FixedRecord.packing α) with
  | .ok l => Event.ofArranging (.ok l) ++ [.madeCodec (FixedRecord.typeName α) l.totalSize]
  | .error e => Event.ofArranging (.error e)

/-- The bytes of every record. -/
def totalBytes (c : RecordCodec α) : Nat :=
  c.layout.totalSize

/-- The value of a placed field. -/
def fetch (r : α) (p : Placement) : Except WriteError Value :=
  match FixedRecord.value? r p.index with
  | some v => .ok v
  | none => .error (.noValue p.name)

/-- Writes a record to the window at `offset`. -/
def write? (c : RecordCodec α) (r : α) (buffer : Bytes) (offset : Nat) :
    Option (Written WriteError) :=
  c.layout.encode? (fetch r) buffer offset

/-- The bytes of a record, written to a buffer of zeros. -/
def toBytes? (c : RecordCodec α) (r : α) : Option (Except WriteError Bytes) :=
  (c.write? r (List.replicate c.totalBytes 0) 0).map fun w => w.result.map fun _ => w.buffer

/-- The default record with each placed field set, in order. -/
def ofFields (fields : List (Placement × Value)) : α :=
  fields.foldl (fun r (p, v) => FixedRecord.setValue r p.index v) default

/-- The record in the window at `offset`. -/
def ofBytes? (c : RecordCodec α) (data : Bytes) (offset : Nat) : Option (Except ReadError α) :=
  (c.layout.decode? data offset).map fun fields => fields.map ofFields

end RecordCodec

namespace FixedRecord

variable {α : Type} [FixedRecord α]

/-- The bytes of every record of a type. -/
def totalBytes (α : Type) [FixedRecord α] : Except LayoutError Nat :=
  (RecordCodec.make α).map RecordCodec.totalBytes

/-- Writes a record to the window at `offset`. -/
def write? (r : α) (buffer : Bytes) (offset : Nat) : Option (Written Error) :=
  match RecordCodec.make α with
  | .error e => some ⟨.error (.layout e), buffer⟩
  | .ok c => (c.write? r buffer offset).map fun w => ⟨w.result.mapError .write, w.buffer⟩

/-- The bytes of a record. -/
def toBytes? (r : α) : Option (Except Error Bytes) :=
  match RecordCodec.make α with
  | .error e => some (.error (.layout e))
  | .ok c => (c.toBytes? r).map (Except.mapError .write)

/-- The record in the window at `offset`. -/
def ofBytes? (data : Bytes) (offset : Nat) : Option (Except Error α) :=
  match RecordCodec.make α with
  | .error e => some (.error (.layout e))
  | .ok c => (c.ofBytes? data offset).map (Except.mapError .read)

end FixedRecord

end FlatRecord
