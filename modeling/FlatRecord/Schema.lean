import FlatRecord.Layout.Transfer
import FlatRecord.Layout.Arrange
import Std.Data.ExtTreeMap

/-!
# Schemas

A schema reads and writes records that are maps from field names to values.
Entries of the map that the layout does not place are ignored when writing.
-/

namespace FlatRecord

/-- A record as a map from field names to values. -/
abbrev FieldMap := Std.ExtTreeMap String Value

namespace FieldMap

/-- The map with these entries; of several for one name the last counts. -/
def ofFields (fields : List (Placement × Value)) : FieldMap :=
  fields.foldl (fun r (p, v) => r.insert p.name v) ∅

/-- The value for a placed field. -/
def fetch (r : FieldMap) (p : Placement) : Except WriteError Value :=
  match r[p.name]? with
  | some v => .ok v
  | none => .error (.noValue p.name)

end FieldMap

/-- A layout, used on records that are maps. -/
structure Schema where
  layout : Layout
deriving DecidableEq, Repr

namespace Schema

/-- The schema of the included fields of a list. -/
def ofFields (fields : List Field) (packing : Packing) : Except LayoutError Schema :=
  (Layout.arrange fields packing).map Schema.mk

/-- The bytes of every record. -/
def totalSize (s : Schema) : Nat :=
  s.layout.totalSize

/-- Writes a record to the window at `offset`. -/
def write? (s : Schema) (r : FieldMap) (buffer : Bytes) (offset : Nat) :
    Option (Written WriteError) :=
  s.layout.encode? r.fetch buffer offset

/-- The bytes of a record, written to a buffer of zeros. -/
def encode? (s : Schema) (r : FieldMap) : Option (Except WriteError Bytes) :=
  (s.write? r (List.replicate s.totalSize 0) 0).map fun w => w.result.map fun _ => w.buffer

/-- The record in the window at `offset`. -/
def parse? (s : Schema) (data : Bytes) (offset : Nat) : Option (Except ReadError FieldMap) :=
  (s.layout.decode? data offset).map fun fields => fields.map FieldMap.ofFields

end Schema

end FlatRecord
