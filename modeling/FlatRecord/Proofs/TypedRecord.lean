import FlatRecord.Proofs.Cells
import FlatRecord.Proofs.Positions
import FlatRecord.Proofs.Refusal
import FlatRecord.Proofs.RoundTrip

/-!
# Typed records through a buffer

A declared record type reaches its fields by position, a schema by name.  Both
use the layout of the same field table, and this module says that they write and
read the same.

* `RecordDecl.WellNamed` is what a declaration must keep: its names are not empty
  and all different.  `exists_arrange_table` says that nothing else is needed.
* `exists_value` ties a placement to the cell at its number: the value found by
  position is the one found by name, so `write?_eq` needs nothing more.
* `Complete` says of values that each stands at a position of its own and is of
  the type there.  A read gets such values (`complete_decode?`) and keeps all of
  them (`holds_ofFields`), so nothing is left of the default record, whichever it is.
* `codec_eq_schema` puts this together for a declared type and its schema, and
  `ofBytes?_write?` for a write and a read.  The record comes back in its
  canonical form.
-/

namespace FlatRecord

open Bytes

namespace RecordDecl

/-- The names of the fields are not empty and all different, as the names of the
members of a structure are. -/
structure WellNamed (d : RecordDecl) : Prop where
  ne_empty : ∀ f ∈ d.fields, f.1 ≠ ""
  nodup : (d.fields.map Prod.fst).Nodup

variable {d : RecordDecl} {l : Layout} {p : Placement}

/-! ## The layout of a declaration -/

theorem getElem?_table (d : RecordDecl) (i : Nat) :
    d.table[i]? = d.fields[i]?.map fun f => { name := f.1, type := f.2.declared } :=
  List.getElem?_map

theorem included_of_mem_table {f : Field} (hf : f ∈ d.table) : f.included = true := by
  obtain ⟨_, _, rfl⟩ := List.mem_map.mp hf
  rfl

/-- Every declaration with proper names has a layout. -/
theorem exists_arrange_table (hd : d.WellNamed) :
    ∃ l, Layout.arrange d.table d.packing = .ok l := by
  apply Layout.exists_arrange
  · intro f hf _
    obtain ⟨x, hx, rfl⟩ := List.mem_map.mp hf
    exact hd.ne_empty x hx
  · have hall : d.table.filter Field.included = d.table :=
      List.filter_eq_self.mpr fun f hf => included_of_mem_table hf
    rw [hall, table, List.map_map]
    exact hd.nodup
  · intro f hf _
    obtain ⟨x, _, rfl⟩ := List.mem_map.mp hf
    exact ⟨x.2.backing, CellType.backing_declared x.1 x.2⟩

/-- The number of a placement finds its cell. -/
theorem exists_cell (h : Layout.arrange d.table d.packing = .ok l) (hp : p ∈ l.placements) :
    ∃ t, d.fields[p.index]? = some (p.name, t) ∧ d.types[p.index]? = some t ∧
      t.backing = p.backing := by
  obtain ⟨f, hf, _, hname, hback⟩ := Layout.exists_field h hp
  rw [getElem?_table] at hf
  obtain ⟨⟨name, t⟩, hget, rfl⟩ := Option.map_eq_some_iff.mp hf
  obtain rfl : name = p.name := hname
  rw [CellType.backing_declared] at hback
  refine ⟨t, hget, ?_, Except.ok.inj hback⟩
  rw [types, List.getElem?_map, hget]
  rfl

/-- Every position has a placement, and only one. -/
theorem map_index_perm_range (h : Layout.arrange d.table d.packing = .ok l) :
    (l.placements.map Placement.index).Perm (List.range d.fields.length) := by
  have hrange : (Entry.included d.table).map Entry.index = List.range d.fields.length := by
    rw [Entry.map_index_included fun f hf => included_of_mem_table hf, table, List.length_map]
  exact hrange ▸ Layout.map_index_perm h

/-- The names of a layout are those of the fields. -/
theorem mem_names_iff (h : Layout.arrange d.table d.packing = .ok l) {name : String} :
    name ∈ l.names ↔ name ∈ d.fields.map Prod.fst := by
  rw [Layout.mem_names_iff]
  constructor
  · rintro ⟨p, hp, rfl⟩
    obtain ⟨t, hf, _, _⟩ := exists_cell h hp
    exact List.mem_map.mpr ⟨_, List.mem_of_getElem? hf, rfl⟩
  · intro hname
    obtain ⟨f, hf, rfl⟩ := List.mem_map.mp hname
    obtain ⟨i, hi⟩ := List.mem_iff_getElem?.mp hf
    have htable : d.table[i]? = some { name := f.1, type := f.2.declared } := by
      rw [getElem?_table, hi]
      rfl
    obtain ⟨p, hp, _, hname, _⟩ := Layout.exists_placement h htable rfl
    exact ⟨p, hp, hname⟩

/-! ## Records by name -/

section Named

variable {r : d.Record}

/-- The names of the fields with the values of a record. -/
def entries (d : RecordDecl) (r : d.Record) : List (String × Value) :=
  (d.fields.map Prod.fst).zip (Cells.values d.types r)

theorem toFieldMap_eq :
    d.toFieldMap r = (d.entries r).foldl (fun m x => m.insert x.1 x.2) ∅ :=
  rfl

theorem map_fst_entries : (d.entries r).map Prod.fst = d.fields.map Prod.fst := by
  have hlen : (Cells.values d.types r).length = d.fields.length :=
    (Cells.length_values d.types r).trans (List.length_map _)
  exact List.map_fst_zip (Nat.le_of_eq ((List.length_map _).trans hlen.symm))

/-- The map has under the name of a field the value at its position. -/
theorem getElem?_toFieldMap (hd : d.WellNamed) {i : Nat} {name : String} {t : CellType}
    (hf : d.fields[i]? = some (name, t)) {v : Value} (hv : Cells.get? d.types r i = some v) :
    (d.toFieldMap r)[name]? = some v := by
  have hname : (d.fields.map Prod.fst)[i]? = some name := by
    rw [List.getElem?_map, hf]
    rfl
  have hvalue : (Cells.values d.types r)[i]? = some v :=
    (Cells.getElem?_values d.types r i).trans hv
  have hmem : (name, v) ∈ d.entries r :=
    List.mem_of_getElem? (List.getElem?_zip_eq_some.mpr ⟨hname, hvalue⟩)
  rw [toFieldMap_eq]
  exact FieldMap.getElem?_foldl_insert_of_mem (map_fst_entries ▸ hd.nodup) hmem

theorem getElem?_toFieldMap_of_not_mem {name : String} (h : name ∉ d.fields.map Prod.fst) :
    (d.toFieldMap r)[name]? = none := by
  rw [toFieldMap_eq, FieldMap.getElem?_foldl_insert_of_forall_ne]
  · exact Std.ExtTreeMap.getElem?_empty
  · rintro x hx rfl
    exact h (map_fst_entries ▸ List.mem_map_of_mem hx)

/-- A placement finds the same value by its number as by its name. -/
theorem exists_value (hd : d.WellNamed) (h : Layout.arrange d.table d.packing = .ok l)
    (hp : p ∈ l.placements) (r : d.Record) :
    ∃ v, Cells.get? d.types r p.index = some v ∧ (d.toFieldMap r)[p.name]? = some v ∧
      v.scalar = p.backing := by
  obtain ⟨t, hf, ht, hback⟩ := exists_cell h hp
  obtain ⟨v, hv, hscalar⟩ := Cells.exists_get? r ht
  exact ⟨v, hv, getElem?_toFieldMap hd hf hv, hscalar.trans hback⟩

theorem supplies_toFieldMap (hd : d.WellNamed) (h : Layout.arrange d.table d.packing = .ok l)
    (r : d.Record) : (d.toFieldMap r).Supplies l := by
  intro p hp
  obtain ⟨v, _, hname, hscalar⟩ := exists_value hd h hp r
  exact ⟨v, hname, hscalar⟩

theorem get?_eq_value (hd : d.WellNamed) (h : Layout.arrange d.table d.packing = .ok l)
    (hp : p ∈ l.placements) (r : d.Record) :
    Cells.get? d.types r p.index = some ((d.toFieldMap r).value p) := by
  obtain ⟨v, hv, hname, _⟩ := exists_value hd h hp r
  rw [hv, FieldMap.value, hname]
  rfl

end Named

/-! ## Writing -/

section Write

variable (hd : d.WellNamed) (h : Layout.arrange d.table d.packing = .ok l) (r : d.Record)
include hd h

/-- A record is written by position as its map is written by name. -/
theorem write?_eq (buffer : Bytes) (offset : Nat) :
    (⟨l⟩ : RecordCodec d.Record).write? r buffer offset =
      (⟨l⟩ : Schema).write? (d.toFieldMap r) buffer offset := by
  have hsupplies := supplies_toFieldMap hd h r
  have hfetch : ∀ p ∈ l.placements,
      RecordCodec.fetch r p = .ok ((d.toFieldMap r).value p) := by
    intro p hp
    have hvalue : FixedRecord.value? r p.index = some ((d.toFieldMap r).value p) :=
      get?_eq_value hd h hp r
    unfold RecordCodec.fetch
    rw [hvalue]
  rw [Schema.write?_eq_put? hsupplies]
  exact Layout.encode?_eq_put? hfetch (fun p hp => hsupplies.scalar_value hp) buffer offset

theorem toBytes?_eq :
    (⟨l⟩ : RecordCodec d.Record).toBytes? r = (⟨l⟩ : Schema).encode? (d.toFieldMap r) := by
  unfold RecordCodec.toBytes? Schema.encode?
  rw [write?_eq hd h]
  rfl

/-- A write has an answer for every buffer. -/
theorem exists_written (buffer : Bytes) (offset : Nat) :
    ∃ w, (⟨l⟩ : Schema).write? (d.toFieldMap r) buffer offset = some w := by
  have hsupplies := supplies_toFieldMap hd h r
  obtain ⟨w, hput, _⟩ := Layout.exists_answer_put? (Layout.wellFormed_of_arrange h)
    hsupplies.fits buffer offset
  exact ⟨w, (Schema.write?_eq_put? (s := ⟨l⟩) hsupplies buffer offset).trans hput⟩

end Write

/-! ## Reading -/

/-- The values reach every field, each of them once, and none is dropped. -/
structure Complete (d : RecordDecl) (fields : List (Placement × Value)) : Prop where
  positions : (fields.map fun f => f.1.index).Perm (List.range d.fields.length)
  kept : ∀ f ∈ fields, ∃ t c, d.types[f.1.index]? = some t ∧ t.ofValue? f.2 = some c

/-- A record that is made of these values holds each of them. -/
theorem holds_ofFields {fields : List (Placement × Value)} (hc : d.Complete fields)
    {f : Placement × Value} (hf : f ∈ fields) :
    Cells.Holds d.types (RecordCodec.ofFields fields : d.Record) f.1.index f.2 := by
  show Cells.Holds d.types (fields.foldl
    (fun cs x => Cells.set d.types cs x.1.index x.2) d.defaultRecord) f.1.index f.2
  exact Cells.holds_foldl_set (hc.positions.nodup_iff.mpr List.nodup_range) hc.kept hf

section Read

variable (h : Layout.arrange d.table d.packing = .ok l)
include h

/-- What is read from a window is complete: it has a value of the right type for
each field. -/
theorem complete_readAll {window : Bytes} (hw : window.length = l.totalSize) :
    d.Complete (l.readAll window) := by
  have hl := Layout.wellFormed_of_arrange h
  constructor
  · rw [Layout.readAll, List.map_map]
    exact map_index_perm_range h
  · intro f hf
    obtain ⟨p, hp, rfl⟩ := List.mem_map.mp hf
    obtain ⟨t, _, ht, hback⟩ := exists_cell h hp
    have hscalar : (p.read l.packing window).scalar = p.backing :=
      Placement.scalar_read (hw ▸ hl.within p hp)
    obtain ⟨c, hc, _⟩ := CellType.exists_ofValue? (hscalar.trans hback.symm)
    exact ⟨t, c, ht, hc⟩

theorem complete_decode? {buffer : Bytes} {offset : Nat} {fields : List (Placement × Value)}
    (hdecode : l.decode? buffer offset = some (.ok fields)) : d.Complete fields := by
  by_cases hfit : offset + l.totalSize ≤ buffer.length
  · obtain ⟨window, hwindow⟩ := exists_slice? hfit
    rw [Layout.decode?_eq (Layout.wellFormed_of_arrange h) hwindow] at hdecode
    obtain rfl := Except.ok.inj (Option.some.inj hdecode)
    exact complete_readAll h (length_of_slice? hwindow)
  · rw [Layout.decode?_of_lt (Nat.lt_of_not_le hfit)] at hdecode
    exact nomatch hdecode

/-- A record that is read holds what the window holds for each placement. -/
theorem holds_read {window : Bytes} (hw : window.length = l.totalSize)
    (hp : p ∈ l.placements) :
    Cells.Holds d.types (RecordCodec.ofFields (l.readAll window) : d.Record) p.index
      (p.read l.packing window) :=
  holds_ofFields (complete_readAll h hw) (List.mem_map.mpr ⟨p, hp, rfl⟩)

/-- The map of a record that is read is the record that is parsed. -/
theorem toFieldMap_ofFields (hd : d.WellNamed) {window : Bytes}
    (hw : window.length = l.totalSize) :
    d.toFieldMap (RecordCodec.ofFields (l.readAll window)) = l.recordIn window := by
  have hl := Layout.wellFormed_of_arrange h
  apply Std.ExtTreeMap.ext_getElem?
  intro name
  by_cases hname : name ∈ l.names
  · obtain ⟨p, hp, rfl⟩ := Layout.mem_names_iff.mp hname
    obtain ⟨t, hf, ht, hback⟩ := exists_cell h hp
    have hscalar : (p.read l.packing window).scalar = t.backing :=
      (Placement.scalar_read (hw ▸ hl.within p hp)).trans hback.symm
    rw [Layout.getElem?_recordIn hl hp]
    exact getElem?_toFieldMap hd hf (Cells.get?_of_holds ht hscalar (holds_read h hw hp))
  · rw [Layout.getElem?_recordIn_of_not_mem hname]
    exact getElem?_toFieldMap_of_not_mem fun hmem => hname ((mem_names_iff h).mpr hmem)

theorem ofBytes?_eq {buffer window : Bytes} {offset : Nat}
    (hwindow : buffer.slice? offset l.totalSize = some window) :
    (⟨l⟩ : RecordCodec d.Record).ofBytes? buffer offset =
      some (.ok (RecordCodec.ofFields (l.readAll window))) := by
  unfold RecordCodec.ofBytes?
  rw [Layout.decode?_eq (Layout.wellFormed_of_arrange h) hwindow]
  rfl

/-- A read by position and a parse have the same error or the same record. -/
theorem ofBytes?_or (hd : d.WellNamed) (buffer : Bytes) (offset : Nat) :
    (∃ e, (⟨l⟩ : RecordCodec d.Record).ofBytes? buffer offset = some (.error e) ∧
      (⟨l⟩ : Schema).parse? buffer offset = some (.error e)) ∨
    ∃ r, (⟨l⟩ : RecordCodec d.Record).ofBytes? buffer offset = some (.ok r) ∧
      (⟨l⟩ : Schema).parse? buffer offset = some (.ok (d.toFieldMap r)) := by
  by_cases hfit : offset + l.totalSize ≤ buffer.length
  · right
    obtain ⟨window, hwindow⟩ := exists_slice? hfit
    refine ⟨_, ofBytes?_eq h hwindow, ?_⟩
    rw [toFieldMap_ofFields h hd (length_of_slice? hwindow)]
    exact Schema.parse?_eq (s := ⟨l⟩) (Layout.wellFormed_of_arrange h) hwindow
  · left
    unfold RecordCodec.ofBytes? Schema.parse?
    rw [Layout.decode?_of_lt (Nat.lt_of_not_le hfit)]
    exact ⟨_, rfl, rfl⟩

end Read

theorem make_of_arrange (h : Layout.arrange d.table d.packing = .ok l) :
    RecordCodec.make d.Record = .ok ⟨l⟩ := by
  show (Layout.arrange d.table d.packing).map RecordCodec.mk = .ok ⟨l⟩
  rw [h]
  rfl

theorem ofFields_of_arrange (h : Layout.arrange d.table d.packing = .ok l) :
    Schema.ofFields d.table d.packing = .ok ⟨l⟩ := by
  unfold Schema.ofFields
  rw [h]
  rfl

/-- The codec of a declared type does what the schema of its field table does.
Both have the same layout, they write the same bytes and they read the same
values, and a read stores every value that it finds in a field of its own. -/
theorem codec_eq_schema (d : RecordDecl) (hd : d.WellNamed) :
    ∃ (c : RecordCodec d.Record) (s : Schema), RecordCodec.make d.Record = .ok c ∧
      Schema.ofFields d.table d.packing = .ok s ∧ c.layout = s.layout ∧
      (∀ r buffer offset, ∃ w, c.write? r buffer offset = some w ∧
        s.write? (d.toFieldMap r) buffer offset = some w) ∧
      (∀ r, ∃ bytes, c.toBytes? r = some (.ok bytes) ∧
        s.encode? (d.toFieldMap r) = some (.ok bytes)) ∧
      (∀ buffer offset,
        (∃ e, c.ofBytes? buffer offset = some (.error e) ∧
          s.parse? buffer offset = some (.error e)) ∨
        ∃ r, c.ofBytes? buffer offset = some (.ok r) ∧
          s.parse? buffer offset = some (.ok (d.toFieldMap r))) ∧
      ∀ buffer offset fields, c.layout.decode? buffer offset = some (.ok fields) →
        d.Complete fields := by
  obtain ⟨l, h⟩ := exists_arrange_table hd
  have hl := Layout.wellFormed_of_arrange h
  refine ⟨⟨l⟩, ⟨l⟩, make_of_arrange h, ofFields_of_arrange h, rfl, ?_, ?_, ofBytes?_or h hd, ?_⟩
  · intro r buffer offset
    obtain ⟨w, hw⟩ := exists_written hd h r buffer offset
    exact ⟨w, (write?_eq hd h r buffer offset).trans hw, hw⟩
  · intro r
    obtain ⟨bytes, hbytes, _⟩ :=
      Schema.exists_encode? (s := ⟨l⟩) hl (supplies_toFieldMap hd h r)
    exact ⟨bytes, (toBytes?_eq hd h r).trans hbytes, hbytes⟩
  · intro buffer offset fields hdecode
    exact complete_decode? h hdecode

/-- Gears of which two share a number. -/
def gear : Enumeration :=
  Enumeration.ofNumbers "Gear" .i16 [("Idle", 0), ("Low", 1), ("First", 1)] rfl
    (List.cons_ne_nil _ _)

/-- A flag, an enumeration and a float, in this order.  No field is 0 by default. -/
def drive : RecordDecl where
  name := "Drive"
  packing := .dense
  fields := [("armed", .scalar .bool), ("gear", .enumeration gear), ("level", .scalar .f32)]
  defaultRecord := (⟨.bool true, rfl⟩, .declared ⟨1, by decide⟩, ⟨.f32 0x3f800000, rfl⟩, ())

/-- The second of the gears that share a number, and a NaN with a payload. -/
def driveRecord : drive.Record :=
  (⟨.bool true, rfl⟩, .declared ⟨2, by decide⟩, ⟨.f32 0x7fc00001, rfl⟩, ())

theorem wellNamed_drive : drive.WellNamed :=
  ⟨by decide, by decide⟩

/-- The flag is the first field of the record and the last of the layout. -/
def driveLayout : Layout where
  packing := .dense
  totalSize := 7
  placements :=
    [{ name := "gear", index := 1, offset := 0, bit := 0, backing := .i16, size := 2 },
      { name := "level", index := 2, offset := 2, bit := 0, backing := .f32, size := 4 },
      { name := "armed", index := 0, offset := 6, bit := 0, backing := .bool, size := 1 }]

theorem make_drive : RecordCodec.make drive.Record = .ok ⟨driveLayout⟩ := by
  rfl

/-- The record of a window of zeros, unlike the default in every field. -/
def driveAtRest : drive.Record :=
  (⟨.bool false, rfl⟩, .declared ⟨0, by decide⟩, ⟨.f32 0, rfl⟩, ())

/-- The schema writes the bytes of the gear, the NaN and the flag, and reads zeros as
the record at rest, in which nothing is left of the default. -/
theorem codec_eq_schema_drive :
    drive.WellNamed ∧ ∃ s, Schema.ofFields drive.table drive.packing = .ok s ∧
      s.encode? (drive.toFieldMap driveRecord) = some (.ok [1, 0, 0x01, 0, 0xc0, 0x7f, 1]) ∧
      (⟨driveLayout⟩ : RecordCodec drive.Record).ofBytes? (List.replicate 8 0) 1 =
        some (.ok driveAtRest) ∧
      s.parse? (List.replicate 8 0) 1 = some (.ok (drive.toFieldMap driveAtRest)) := by
  obtain ⟨c, s, hmake, hs, _, _, hbytes, hreads, _⟩ := codec_eq_schema drive wellNamed_drive
  obtain rfl := Except.ok.inj (hmake.symm.trans make_drive)
  have hread : (⟨driveLayout⟩ : RecordCodec drive.Record).ofBytes? (List.replicate 8 0) 1 =
      some (.ok driveAtRest) := by
    rfl
  refine ⟨wellNamed_drive, s, hs, ?_, hread, ?_⟩
  · obtain ⟨bytes, hcodec, hschema⟩ := hbytes driveRecord
    have hwritten : (⟨driveLayout⟩ : RecordCodec drive.Record).toBytes? driveRecord =
        some (.ok [1, 0, 0x01, 0, 0xc0, 0x7f, 1]) := by
      rfl
    rw [hschema, ← hcodec, hwritten]
  · rcases hreads (List.replicate 8 0) 1 with ⟨e, hfails, _⟩ | ⟨r, hcodec, hschema⟩
    · exact nomatch hread.symm.trans hfails
    · obtain rfl := Except.ok.inj (Option.some.inj (hread.symm.trans hcodec))
      exact hschema

/-! ## A record and its canonical form -/

/-- The record with every field as it is read after it was stored. -/
def canonical (d : RecordDecl) (r : d.Record) : d.Record :=
  Cells.canonical d.types r

/-- Every field is read as it was stored. -/
def IsCanonical (d : RecordDecl) (r : d.Record) : Prop :=
  Cells.IsCanonical d.types r

theorem canonical_eq_of_isCanonical {r : d.Record} (hr : d.IsCanonical r) : d.canonical r = r :=
  Cells.canonical_eq_of_isCanonical hr

/-- A record is read in its canonical form from a window that holds its values. -/
theorem ofFields_eq_canonical (hd : d.WellNamed)
    (h : Layout.arrange d.table d.packing = .ok l) {r : d.Record} {window : Bytes}
    (hw : window.length = l.totalSize)
    (hread : ∀ p ∈ l.placements, p.read l.packing window = (d.toFieldMap r).value p) :
    RecordCodec.ofFields (l.readAll window) = d.canonical r := by
  refine Cells.eq_of_holds fun i hi => ?_
  have hrange : i ∈ List.range d.fields.length := by
    rw [List.mem_range]
    rwa [types, List.length_map] at hi
  obtain ⟨p, hp, rfl⟩ := List.mem_map.mp ((map_index_perm_range h).mem_iff.mpr hrange)
  refine ⟨p.read l.packing window, holds_read h hw hp, Cells.holds_canonical ?_⟩
  rw [hread p hp]
  exact get?_eq_value hd h hp r

/-- A record is read where it was written, in its canonical form. -/
theorem ofBytes?_of_stored (hd : d.WellNamed) (h : Layout.arrange d.table d.packing = .ok l)
    {r : d.Record} {offset : Nat} {before after : Bytes}
    (hfit : offset + l.totalSize ≤ before.length)
    (hs : l.Stored (l.placements.map (d.toFieldMap r).value) offset before after)
    (hclear : ∀ p ∈ l.placements, p.IsFlag l.packing →
      before.bitAt? (offset + p.offset) p.bit = some false) :
    (⟨l⟩ : RecordCodec d.Record).ofBytes? after offset =
      some (.ok (d.canonical r)) := by
  have hl := Layout.wellFormed_of_arrange h
  have hv : l.Fits (l.placements.map (d.toFieldMap r).value) := (supplies_toFieldMap hd h r).fits
  obtain ⟨window, hwindow⟩ : ∃ window, after.slice? offset l.totalSize = some window :=
    exists_slice? (hs.length_eq ▸ hfit)
  rw [ofBytes?_eq h hwindow, ofFields_eq_canonical hd h (length_of_slice? hwindow)]
  intro p hp
  exact hs.read_eq_of_clear hl hv hwindow (Layout.mem_zip_map hp) (hclear p hp)

/-- Where the flags are clear, a record that is written is read as its canonical
form.  That is the record itself if its members of enumerations are those that
their numbers are read as. -/
theorem ofBytes?_write? (d : RecordDecl) (hd : d.WellNamed) :
    ∃ c : RecordCodec d.Record, RecordCodec.make d.Record = .ok c ∧ ∀ r : d.Record,
      (∀ buffer offset, offset + c.totalBytes ≤ buffer.length →
        (∀ p ∈ c.layout.placements, p.IsFlag d.packing →
          buffer.bitAt? (offset + p.offset) p.bit = some false) →
        ∃ after, c.write? r buffer offset = some ⟨.ok (), after⟩ ∧
          c.ofBytes? after offset = some (.ok (d.canonical r))) ∧
      (∃ bytes, c.toBytes? r = some (.ok bytes) ∧
        c.ofBytes? bytes 0 = some (.ok (d.canonical r))) ∧
      (d.IsCanonical r → d.canonical r = r) := by
  obtain ⟨l, h⟩ := exists_arrange_table hd
  have hl := Layout.wellFormed_of_arrange h
  refine ⟨⟨l⟩, make_of_arrange h, fun r => ⟨?_, ?_, canonical_eq_of_isCanonical⟩⟩
  · intro buffer offset hfit hclear
    obtain ⟨after, hwrite, hs⟩ :=
      Schema.exists_write? (s := ⟨l⟩) hl (supplies_toFieldMap hd h r) hfit
    refine ⟨after, (write?_eq hd h r buffer offset).trans hwrite, ?_⟩
    exact ofBytes?_of_stored hd h hfit hs (Layout.packing_of_arrange h ▸ hclear)
  · obtain ⟨bytes, hencode, hs⟩ :=
      Schema.exists_encode? (s := ⟨l⟩) hl (supplies_toFieldMap hd h r)
    refine ⟨bytes, (toBytes?_eq hd h r).trans hencode, ?_⟩
    refine ofBytes?_of_stored hd h ?_ hs fun p hp _ => hl.bitAt?_zeros hp
    rw [List.length_replicate, Nat.zero_add]
    exact Nat.le_refl _

/-- The gear is read as the first of those that share its number.  The bits
around the clear flag are set before. -/
theorem ofBytes?_write?_drive :
    drive.WellNamed ∧ ∃ after,
      (⟨driveLayout⟩ : RecordCodec drive.Record).write? driveRecord (List.replicate 9 0xaa) 1 =
        some ⟨.ok (), after⟩ ∧
      (⟨driveLayout⟩ : RecordCodec drive.Record).ofBytes? after 1 =
        some (.ok (⟨.bool true, rfl⟩, .declared ⟨1, by decide⟩, ⟨.f32 0x7fc00001, rfl⟩, ())) := by
  obtain ⟨c, hmake, hread⟩ := ofBytes?_write? drive wellNamed_drive
  obtain rfl := Except.ok.inj (hmake.symm.trans make_drive)
  obtain ⟨after, hwrite, hparse⟩ :=
    (hread driveRecord).1 (List.replicate 9 0xaa) 1 (by decide) (by decide)
  exact ⟨wellNamed_drive, after, hwrite, hparse⟩

end RecordDecl

end FlatRecord
