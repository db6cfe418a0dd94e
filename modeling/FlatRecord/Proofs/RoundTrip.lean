import FlatRecord.Schema
import FlatRecord.Proofs.Frame

/-!
# Records through a buffer

A record that is written to a buffer and parsed from there is the same record,
up to what the format does not keep: entries of names that the layout does not
place are dropped, and a flag is added to the bit that was in the buffer.

* `getElem?_ofFields_of_mem` looks up a parsed name.  It needs that names are
  placed once, since a later entry replaces an earlier one.
* `Layout.recordIn` is the record in a window, and `parse?_eq` says that a parse
  answers it.
* `FieldMap.Supplies` is what a record must hold to be written, and
  `exists_write?` says that it is enough.
* `Layout.Stored.read_eq` and `read_eq_or` read a field from a buffer after a
  write.  `read_eq_of_clear` is the case where no old bit is in the way.  The
  last result puts the two directions together.
-/

namespace FlatRecord

open Bytes

namespace FieldMap

/-! ## Looking up a parsed name -/

section Entries

variable {α : Type} {key : α → String} {value : α → Value} {xs : List α} {r : FieldMap}
  {name : String}

theorem getElem?_insert_of_ne {other : String} (h : other ≠ name) (v : Value) :
    (r.insert other v)[name]? = r[name]? := by
  rw [Std.ExtTreeMap.getElem?_insert, if_neg]
  rw [Std.compare_eq_iff_eq]
  exact h

/-- Entries of other names change nothing for a name. -/
theorem getElem?_foldl_insert_of_forall_ne (h : ∀ x ∈ xs, key x ≠ name) :
    (xs.foldl (fun (r : FieldMap) x => r.insert (key x) (value x)) r)[name]? = r[name]? := by
  induction xs generalizing r with
  | nil => rfl
  | cons x xs ih =>
    rw [List.foldl_cons, ih fun y hy => h y (List.mem_cons_of_mem x hy)]
    exact getElem?_insert_of_ne (h x List.mem_cons_self) (value x)

/-- An entry whose name comes once is found under it. -/
theorem getElem?_foldl_insert_of_mem (hnodup : (xs.map key).Nodup) {x : α} (hx : x ∈ xs) :
    (xs.foldl (fun (r : FieldMap) x => r.insert (key x) (value x)) r)[key x]? =
      some (value x) := by
  induction xs generalizing r with
  | nil => exact absurd hx List.not_mem_nil
  | cons y xs ih =>
    obtain ⟨hfirst, hrest⟩ := List.nodup_cons.mp hnodup
    rw [List.foldl_cons]
    rcases List.mem_cons.mp hx with rfl | hx
    · rw [getElem?_foldl_insert_of_forall_ne]
      · exact Std.ExtTreeMap.getElem?_insert_self
      · intro z hz heq
        exact hfirst (List.mem_map.mpr ⟨z, hz, heq⟩)
    · exact ih hrest hx

end Entries

section OfFields

variable {fields : List (Placement × Value)} {name : String}

theorem getElem?_ofFields_of_mem (hnodup : (fields.map fun f => f.1.name).Nodup) {p : Placement}
    {v : Value} (h : (p, v) ∈ fields) : (ofFields fields)[p.name]? = some v := by
  show (fields.foldl (fun (r : FieldMap) f => r.insert f.1.name f.2) ∅)[p.name]? = some v
  exact getElem?_foldl_insert_of_mem hnodup h

theorem getElem?_ofFields_of_forall_ne (h : ∀ f ∈ fields, f.1.name ≠ name) :
    (ofFields fields)[name]? = none := by
  show (fields.foldl (fun (r : FieldMap) f => r.insert f.1.name f.2) ∅)[name]? = none
  rw [getElem?_foldl_insert_of_forall_ne h]
  exact Std.ExtTreeMap.getElem?_empty

end OfFields

end FieldMap

/-! ## The record in a window -/

namespace Layout

variable {l : Layout} {window : Bytes}

/-- The names of the placed fields, in order. -/
def names (l : Layout) : List String :=
  l.placements.map Placement.name

theorem mem_names_iff {name : String} :
    name ∈ l.names ↔ ∃ p ∈ l.placements, p.name = name :=
  List.mem_map

/-- The placed fields with the values that a window holds for them. -/
def readAll (l : Layout) (window : Bytes) : List (Placement × Value) :=
  l.placements.map fun p => (p, p.read l.packing window)

/-- The record that a window holds. -/
def recordIn (l : Layout) (window : Bytes) : FieldMap :=
  FieldMap.ofFields (l.readAll window)

/-- Loading all fields of a window answers what the window holds for each. -/
theorem loadAll?_eq (hl : l.WellFormed) (hw : window.length = l.totalSize) :
    l.loadAll? window = some (l.placements.map (Placement.read l.packing window)) :=
  mapM_eq_pure fun p hp => Placement.load?_eq_read (hw ▸ hl.within p hp)

/-- Reading a window that the buffer has always succeeds. -/
theorem decode?_eq (hl : l.WellFormed) {buffer : Bytes} {offset : Nat}
    (hwindow : buffer.slice? offset l.totalSize = some window) :
    l.decode? buffer offset = some (.ok (l.readAll window)) := by
  unfold decode? readAll
  rw [List.map_prod_left_eq_zip, hwindow]
  show (l.loadAll? window).map _ = _
  rw [loadAll?_eq hl (length_of_slice? hwindow)]
  rfl

/-- A read without the window fails. -/
theorem decode?_of_lt {buffer : Bytes} {offset : Nat}
    (h : buffer.length < offset + l.totalSize) :
    l.decode? buffer offset =
      some (.error (.tooShort l.totalSize (buffer.length - offset))) := by
  have hslice : buffer.slice? offset l.totalSize = none := if_neg (Nat.not_le.mpr h)
  unfold decode?
  rw [hslice]

/-- A parsed record holds under the name of a field what the window holds for
it. -/
theorem getElem?_recordIn (hl : l.WellFormed) {p : Placement} (hp : p ∈ l.placements) :
    (l.recordIn window)[p.name]? = some (p.read l.packing window) := by
  apply FieldMap.getElem?_ofFields_of_mem
  · rw [readAll, List.map_map]
    exact hl.nodup_names
  · exact List.mem_map.mpr ⟨p, hp, rfl⟩

theorem getElem?_recordIn_of_not_mem {name : String} (h : name ∉ l.names) :
    (l.recordIn window)[name]? = none := by
  apply FieldMap.getElem?_ofFields_of_forall_ne
  intro f hf heq
  obtain ⟨p, hp, rfl⟩ := List.mem_map.mp hf
  exact h (mem_names_iff.mpr ⟨p, hp, heq⟩)

/-- A parsed record has the placed names and no others. -/
theorem mem_recordIn_iff (hl : l.WellFormed) {name : String} :
    name ∈ l.recordIn window ↔ name ∈ l.names := by
  rw [Std.ExtTreeMap.mem_iff_isSome_getElem?]
  constructor
  · intro h
    by_contra hnot
    rw [getElem?_recordIn_of_not_mem hnot] at h
    exact nomatch h
  · intro h
    obtain ⟨p, hp, rfl⟩ := mem_names_iff.mp h
    rw [getElem?_recordIn hl hp]
    rfl

end Layout

/-! ## What a record must hold -/

namespace FieldMap

/-- The record holds for each placed field a value of the type stored. -/
def Supplies (r : FieldMap) (l : Layout) : Prop :=
  ∀ p ∈ l.placements, ∃ v, r[p.name]? = some v ∧ v.scalar = p.backing

/-- The value that the record holds for a field, or zero. -/
def value (r : FieldMap) (p : Placement) : Value :=
  r[p.name]?.getD (Value.zero p.backing)

/-- The entries of these names. -/
def restrict (r : FieldMap) (names : List String) : FieldMap :=
  r.filter fun name _ => names.contains name

theorem getElem?_restrict (r : FieldMap) (names : List String) (name : String) :
    (r.restrict names)[name]? = if name ∈ names then r[name]? else none := by
  unfold restrict
  rw [Std.ExtTreeMap.getElem?_filter']
  by_cases h : name ∈ names
  · rw [if_pos h]
    cases r[name]? <;> simp [Option.filter, h]
  · rw [if_neg h]
    cases r[name]? <;> simp [Option.filter, h]

namespace Supplies

variable {r : FieldMap} {l : Layout} {p : Placement}

theorem getElem?_eq (hr : r.Supplies l) (hp : p ∈ l.placements) :
    r[p.name]? = some (r.value p) := by
  obtain ⟨v, hv, _⟩ := hr p hp
  unfold value
  rw [hv]
  rfl

theorem scalar_value (hr : r.Supplies l) (hp : p ∈ l.placements) :
    (r.value p).scalar = p.backing := by
  obtain ⟨v, hv, htype⟩ := hr p hp
  unfold value
  rw [hv]
  exact htype

theorem fetch_eq (hr : r.Supplies l) (hp : p ∈ l.placements) :
    r.fetch p = .ok (r.value p) := by
  unfold fetch
  rw [hr.getElem?_eq hp]

theorem fits (hr : r.Supplies l) : l.Fits (l.placements.map r.value) :=
  Layout.fits_map fun _ hp => hr.scalar_value hp

end Supplies

end FieldMap

/-! ## Reading what was stored -/

/-- The bit of a field is clear in a buffer of zeros. -/
theorem Layout.WellFormed.bitAt?_zeros {l : Layout} (hl : l.WellFormed) {p : Placement}
    (hp : p ∈ l.placements) :
    Bytes.bitAt? (List.replicate l.totalSize 0) (0 + p.offset) p.bit = some false := by
  have hlt := (hl.within p hp).offset_lt
  exact bitAt?_replicate_zero (by omega) (hl.within p hp).bit_lt

namespace Layout.Stored

variable {l : Layout} {values : List Value} {offset : Nat} {before after window : Bytes}
  {p : Placement} {v : Value}

/-- A field that is no flag is read as it was written. -/
theorem read_eq (hs : l.Stored values offset before after) (hl : l.WellFormed)
    (hv : l.Fits values) (hwindow : after.slice? offset l.totalSize = some window)
    (hpv : (p, v) ∈ l.placements.zip values) (hf : ¬ p.IsFlag l.packing) :
    p.read l.packing window = v := by
  have hfit : offset + l.totalSize ≤ before.length := hs.length_eq ▸ le_of_slice? hwindow
  have hwithin := hl.within p (List.of_mem_zip hpv).1
  have hdata : window.slice? p.offset p.size = some (ofValue v) := by
    rw [slice?_of_slice? hwindow hwithin.inside]
    exact hs.slice?_eq hl hv hfit hpv hf
  rw [Placement.read_of_slice? hf hwithin.size_eq hdata, ← hv.scalar_eq hpv, ofBits_toNat_ofValue]

/-- A flag is read as its old bit or the value. -/
theorem read_eq_or (hs : l.Stored values offset before after) (hl : l.WellFormed)
    (hv : l.Fits values) (hwindow : after.slice? offset l.totalSize = some window)
    (hpv : (p, v) ∈ l.placements.zip values) (hf : p.IsFlag l.packing) :
    ∃ old b, v = .bool b ∧ before.bitAt? (offset + p.offset) p.bit = some old ∧
      p.read l.packing window = .bool (old || b) := by
  have hfit : offset + l.totalSize ≤ before.length := hs.length_eq ▸ le_of_slice? hwindow
  obtain ⟨old, b, hb, hold, hnew⟩ := hs.bitAt?_eq hl hv hfit hpv hf
  have hown : p.Owns l.packing p.offset p.bit := (Placement.owns_of_isFlag hf).mpr ⟨rfl, rfl⟩
  have hin := (hl.lt_of_owns (List.of_mem_zip hpv).1 hown).1
  refine ⟨old, b, hb, hold, Placement.read_of_isFlag hf ?_⟩
  rw [bitAt?_of_slice? hwindow hin, hnew]

/-- A field is read as it was written, if no old bit is added to it. -/
theorem read_eq_of_clear (hs : l.Stored values offset before after) (hl : l.WellFormed)
    (hv : l.Fits values) (hwindow : after.slice? offset l.totalSize = some window)
    (hpv : (p, v) ∈ l.placements.zip values)
    (hclear : p.IsFlag l.packing → before.bitAt? (offset + p.offset) p.bit = some false) :
    p.read l.packing window = v := by
  by_cases hf : p.IsFlag l.packing
  · obtain ⟨old, b, hb, hold, hread⟩ := hs.read_eq_or hl hv hwindow hpv hf
    obtain rfl : old = false := Option.some.inj (hold.symm.trans (hclear hf))
    rw [hread, hb, Bool.false_or]
  · exact hs.read_eq hl hv hwindow hpv hf

end Layout.Stored

/-! ## Writing and parsing -/

namespace Schema

variable {s : Schema} {r : FieldMap}

theorem arrange_of_ofFields {fields : List Field} {packing : Packing}
    (h : ofFields fields packing = .ok s) : Layout.arrange fields packing = .ok s.layout := by
  unfold ofFields at h
  cases harrange : Layout.arrange fields packing with
  | error e =>
    rw [harrange] at h
    exact nomatch h
  | ok l =>
    rw [harrange] at h
    obtain rfl := Except.ok.inj h
    rfl

/-- A parse answers the record in the window. -/
theorem parse?_eq (hl : s.layout.WellFormed) {buffer window : Bytes} {offset : Nat}
    (hwindow : buffer.slice? offset s.totalSize = some window) :
    s.parse? buffer offset = some (.ok (s.layout.recordIn window)) := by
  unfold parse?
  rw [Layout.decode?_eq hl hwindow]
  rfl

/-- A record that supplies the fields is fetched without an error. -/
theorem write?_eq_put? (hr : r.Supplies s.layout) (buffer : Bytes) (offset : Nat) :
    s.write? r buffer offset = s.layout.put? (s.layout.placements.map r.value) buffer offset :=
  Layout.encode?_eq_put? (fun _ hp => hr.fetch_eq hp) (fun _ hp => hr.scalar_value hp) buffer
    offset

/-- A record that supplies the fields is written to any buffer that has the
window. -/
theorem exists_write? (hl : s.layout.WellFormed) (hr : r.Supplies s.layout) {buffer : Bytes}
    {offset : Nat} (hfit : offset + s.totalSize ≤ buffer.length) :
    ∃ after, s.write? r buffer offset = some ⟨.ok (), after⟩ ∧
      s.layout.Stored (s.layout.placements.map r.value) offset buffer after := by
  obtain ⟨after, hput, hstored⟩ := Layout.exists_put? hl hr.fits hfit
  exact ⟨after, (write?_eq_put? hr buffer offset).trans hput, hstored⟩

/-- The bytes of a record are what a write leaves in a buffer of zeros. -/
theorem exists_encode? (hl : s.layout.WellFormed) (hr : r.Supplies s.layout) :
    ∃ bytes, s.encode? r = some (.ok bytes) ∧
      s.layout.Stored (s.layout.placements.map r.value) 0 (List.replicate s.totalSize 0)
        bytes := by
  have hfit : 0 + s.totalSize ≤ (List.replicate s.totalSize (0 : UInt8)).length := by
    rw [List.length_replicate, Nat.zero_add]
  obtain ⟨bytes, hwrite, hstored⟩ := exists_write? hl hr hfit
  refine ⟨bytes, ?_, hstored⟩
  unfold encode?
  rw [hwrite]
  rfl

theorem length_of_stored_zeros {values : List Value} {bytes : Bytes}
    (hs : s.layout.Stored values 0 (List.replicate s.totalSize 0) bytes) :
    bytes.length = s.totalSize := by
  rw [hs.length_eq, List.length_replicate]

/-- What was written where the bits of all flags were clear is read as the record
without the names that have no place. -/
theorem recordIn_eq_restrict_of_clear (hl : s.layout.WellFormed) (hr : r.Supplies s.layout)
    {before after window : Bytes} {offset : Nat}
    (hs : s.layout.Stored (s.layout.placements.map r.value) offset before after)
    (hwindow : after.slice? offset s.layout.totalSize = some window)
    (hclear : ∀ p ∈ s.layout.placements,
      before.bitAt? (offset + p.offset) p.bit = some false) :
    s.layout.recordIn window = r.restrict s.layout.names := by
  apply Std.ExtTreeMap.ext_getElem?
  intro name
  rw [FieldMap.getElem?_restrict]
  by_cases hname : name ∈ s.layout.names
  · obtain ⟨p, hp, rfl⟩ := Layout.mem_names_iff.mp hname
    rw [if_pos hname, Layout.getElem?_recordIn hl hp, hr.getElem?_eq hp]
    congr 1
    exact hs.read_eq_of_clear hl hr.fits hwindow (Layout.mem_zip_map (f := r.value) hp)
      fun _ => hclear p hp
  · rw [if_neg hname, Layout.getElem?_recordIn_of_not_mem hname]

/-- So is what was written to a buffer of zeros. -/
theorem recordIn_eq_restrict (hl : s.layout.WellFormed) (hr : r.Supplies s.layout) {bytes : Bytes}
    (hs : s.layout.Stored (s.layout.placements.map r.value) 0 (List.replicate s.totalSize 0)
      bytes) :
    s.layout.recordIn bytes = r.restrict s.layout.names := by
  have hwindow : bytes.slice? 0 s.layout.totalSize = some bytes := by
    rw [← totalSize, ← length_of_stored_zeros hs, slice?_zero_length]
  exact recordIn_eq_restrict_of_clear hl hr hs hwindow fun p hp => hl.bitAt?_zeros hp

/-- A record survives a write to any buffer and a parse from there, and its
bytes are parsed as the record. -/
theorem parse?_write? {fields : List Field} {packing : Packing}
    (h : ofFields fields packing = .ok s) (hr : r.Supplies s.layout) {buffer : Bytes}
    {offset : Nat} (hfit : offset + s.totalSize ≤ buffer.length) :
    (∃ after parsed, s.write? r buffer offset = some ⟨.ok (), after⟩ ∧
      s.parse? after offset = some (.ok parsed) ∧
      (∀ name, name ∈ parsed ↔ ∃ p ∈ s.layout.placements, p.name = name) ∧
      (∀ p ∈ s.layout.placements, ¬ p.IsFlag packing → parsed[p.name]? = r[p.name]?) ∧
      ∀ p ∈ s.layout.placements, p.IsFlag packing → ∃ old b,
        buffer.bitAt? (offset + p.offset) p.bit = some old ∧ r[p.name]? = some (.bool b) ∧
          parsed[p.name]? = some (.bool (old || b))) ∧
    ∃ bytes, s.encode? r = some (.ok bytes) ∧ bytes.length = s.totalSize ∧
      s.parse? bytes 0 = some (.ok (r.restrict s.layout.names)) := by
  have harrange := arrange_of_ofFields h
  have hl := Layout.wellFormed_of_arrange harrange
  obtain rfl := Layout.packing_of_arrange harrange
  have hv : s.layout.Fits (s.layout.placements.map r.value) :=
    Layout.fits_map fun p hp => hr.scalar_value hp
  constructor
  · obtain ⟨after, hwrite, hs⟩ := exists_write? hl hr hfit
    obtain ⟨window, hwindow⟩ : ∃ window, after.slice? offset s.totalSize = some window :=
      exists_slice? (hs.length_eq ▸ hfit)
    refine ⟨after, s.layout.recordIn window, hwrite, parse?_eq hl hwindow, ?_, ?_, ?_⟩
    · intro name
      rw [Layout.mem_recordIn_iff hl, Layout.mem_names_iff]
    · intro p hp hf
      have hpv := Layout.mem_zip_map (f := r.value) hp
      rw [Layout.getElem?_recordIn hl hp, hs.read_eq hl hv hwindow hpv hf, hr.getElem?_eq hp]
    · intro p hp hf
      have hpv := Layout.mem_zip_map (f := r.value) hp
      obtain ⟨old, b, hb, hold, hread⟩ := hs.read_eq_or hl hv hwindow hpv hf
      refine ⟨old, b, hold, ?_, ?_⟩
      · rw [hr.getElem?_eq hp, hb]
      · rw [Layout.getElem?_recordIn hl hp, hread]
  · obtain ⟨bytes, hencode, hs⟩ := exists_encode? hl hr
    have hlen : bytes.length = s.totalSize := length_of_stored_zeros hs
    refine ⟨bytes, hencode, hlen, ?_⟩
    have hwindow : bytes.slice? 0 s.totalSize = some bytes := hlen ▸ slice?_zero_length bytes
    rw [parse?_eq hl hwindow, recordIn_eq_restrict hl hr hs]

/-- A float, a code unit and two flags. -/
def signal : List Field :=
  [{ name := "on", type := .scalar .bool }, { name := "level", type := .scalar .f32 },
    { name := "unit", type := .scalar .char16 }, { name := "armed", type := .scalar .bool }]

/-- The flags share the last byte. -/
def signalSchema : Schema where
  layout :=
    { packing := .dense
      totalSize := 7
      placements :=
        [{ name := "level", index := 1, offset := 0, bit := 0, backing := .f32, size := 4 },
          { name := "unit", index := 2, offset := 4, bit := 0, backing := .char16, size := 2 },
          { name := "armed", index := 3, offset := 6, bit := 0, backing := .bool, size := 1 },
          { name := "on", index := 0, offset := 6, bit := 1, backing := .bool, size := 1 }] }

theorem ofFields_signal : ofFields signal .dense = .ok signalSchema := by
  rfl

/-- A NaN with a payload, half of a surrogate pair, one flag that is set, and a
name that has no place. -/
def signalRecord : FieldMap :=
  (((((∅ : FieldMap).insert "level" (.f32 0x7fc00001)).insert "unit" (.char16 0xd83d)).insert
    "armed" (.bool true)).insert "on" (.bool false)).insert "note" (.u8 7)

theorem supplies_signalRecord : signalRecord.Supplies signalSchema.layout := by
  simp [FieldMap.Supplies, signalSchema, signalRecord, Std.ExtTreeMap.getElem?_insert,
    Value.scalar]

/-- The flag that was in the buffer stays, and the NaN keeps its payload. -/
theorem parse?_write?_signal :
    ofFields signal .dense = .ok signalSchema ∧ signalRecord.Supplies signalSchema.layout ∧
      1 + signalSchema.totalSize ≤ (List.replicate 9 (0xaa : UInt8)).length ∧
      ∃ after parsed,
        signalSchema.write? signalRecord (List.replicate 9 0xaa) 1 = some ⟨.ok (), after⟩ ∧
          signalSchema.parse? after 1 = some (.ok parsed) ∧
          parsed["level"]? = some (.f32 0x7fc00001) ∧ parsed["on"]? = some (.bool true) := by
  have hfit : 1 + signalSchema.totalSize ≤ (List.replicate 9 (0xaa : UInt8)).length := by decide
  obtain ⟨⟨after, parsed, hwrite, hparse, _, hkept, hadded⟩, _⟩ :=
    parse?_write? ofFields_signal supplies_signalRecord hfit
  refine ⟨ofFields_signal, supplies_signalRecord, hfit, after, parsed, hwrite, hparse, ?_, ?_⟩
  · have hlevel := hkept ⟨"level", 1, 0, 0, .f32, 4⟩ (by decide) (by decide)
    rw [hlevel]
    simp [signalRecord, Std.ExtTreeMap.getElem_insert]
  · obtain ⟨old, b, hold, _, hon⟩ := hadded ⟨"on", 0, 6, 1, .bool, 1⟩ (by decide) (by decide)
    obtain rfl : old = true := Option.some.inj (hold.symm.trans (by decide))
    rw [hon, Bool.true_or]

end Schema

end FlatRecord
