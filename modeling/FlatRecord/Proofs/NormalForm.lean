import FlatRecord.Proofs.RoundTrip
import Mathlib.Data.Set.Function

/-!
# Windows through a record

Every window of the right length is parsed, whatever it holds.  Writing the
parsed record gives the window back in a normal form, which differs from it in
two kinds of bytes only.

* `Layout.truthBytes` makes boolean bytes 0 or 1.  A write in place does no
  more than that, since a flag is added to the bit it was read from.
* `Layout.clearSpare` clears the bits that no flag owns.  `Layout.normalise` is
  both together, and what encoding the parsed record gives.
* `Layout.Stored.bitAt?_eq_truthBytes` compares a buffer after the write with
  the window, one owned bit at a time.
* `FieldMap.Exact` are the records that have the placed names and no others.
  They correspond to the windows in normal form.
-/

namespace FlatRecord

open Bytes

namespace Layout

/-! ## The normal form -/

/-- Byte `i` of the record is the first byte of a boolean. -/
def holdsBoolean (l : Layout) (i : Nat) : Bool :=
  l.placements.any fun p => p.isBool && p.offset == i

/-- A window with 1 in each byte that holds a boolean and is not 0.  Booleans
that share their bytes are left alone. -/
def truthBytes (l : Layout) (window : Bytes) : Bytes :=
  window.mapIdx fun i b => if l.packing = .loose ∧ l.holdsBoolean i ∧ b ≠ 0 then 1 else b

/-- A window with the bits above the last flag cleared. -/
def clearSpare (l : Layout) (window : Bytes) : Bytes :=
  window.mapIdx fun i b =>
    if l.packing = .dense ∧ l.flagCount % 8 ≠ 0 ∧ i + 1 = l.totalSize then
      b &&& UInt8.ofNat (2 ^ (l.flagCount % 8) - 1)
    else b

/-- The window that has the same record and is written by `encode?`. -/
def normalise (l : Layout) (window : Bytes) : Bytes :=
  l.clearSpare (l.truthBytes window)

variable {l : Layout} {window : Bytes} {p : Placement} {i j : Nat}

@[simp] theorem length_truthBytes (l : Layout) (window : Bytes) :
    (l.truthBytes window).length = window.length :=
  List.length_mapIdx

@[simp] theorem length_clearSpare (l : Layout) (window : Bytes) :
    (l.clearSpare window).length = window.length :=
  List.length_mapIdx

@[simp] theorem length_normalise (l : Layout) (window : Bytes) :
    (l.normalise window).length = window.length := by
  unfold normalise
  rw [length_clearSpare, length_truthBytes]

/-- No flag is changed. -/
theorem truthBytes_of_dense (h : l.packing = .dense) (window : Bytes) :
    l.truthBytes window = window := by
  apply List.ext_getElem?
  intro i
  unfold truthBytes
  rw [List.getElem?_mapIdx, h]
  cases window[i]? with
  | none => rfl
  | some b => exact congrArg some (if_neg fun h => nomatch h.1)

/-- The byte of a boolean becomes 0 or 1. -/
theorem getElem?_truthBytes_of_bool (hloose : l.packing = .loose) (hp : p ∈ l.placements)
    (hbool : p.backing = .bool) :
    (l.truthBytes window)[p.offset]? =
      window[p.offset]?.map fun b => if b = 0 then 0 else 1 := by
  have hholds : l.holdsBoolean p.offset = true :=
    List.any_eq_true.mpr ⟨p, hp, by simp [Placement.isBool, hbool]⟩
  unfold truthBytes
  rw [List.getElem?_mapIdx]
  congr 1
  funext b
  by_cases hb : b = 0 <;> simp [hloose, hholds, hb]

/-- A byte that some other field owns is kept. -/
theorem getElem?_truthBytes_of_ne_bool (hl : l.WellFormed) (hp : p ∈ l.placements)
    (hbool : p.backing ≠ .bool) (hown : p.Owns l.packing i j) :
    (l.truthBytes window)[i]? = window[i]? := by
  unfold truthBytes
  rw [List.getElem?_mapIdx]
  have hnot : ¬ (l.packing = .loose ∧ l.holdsBoolean i = true) := by
    intro h
    rcases h with ⟨hloose, hholds⟩
    obtain ⟨q, hq, hqi⟩ := List.any_eq_true.mp hholds
    obtain ⟨hqbool, hqi⟩ := Bool.and_eq_true_iff.mp hqi
    obtain rfl : q.offset = i := beq_iff_eq.mp hqi
    have hj : j < 8 := (hl.lt_of_owns hp hown).2
    have hpos : 0 < q.size := (hl.within q hq).size_pos
    -- The boolean would own the same bit.
    have hqown : q.Owns l.packing q.offset j := by
      rw [hloose, Placement.owns_of_not_isFlag Placement.not_isFlag_of_loose]
      omega
    obtain rfl := hl.owner_unique hp hq hown hqown
    exact hbool (beq_iff_eq.mp hqbool)
  cases window[i]? with
  | none => rfl
  | some b => exact congrArg some (if_neg fun h => hnot ⟨h.1, h.2.1⟩)

/-- A spare bit is cleared. -/
theorem bitAt?_clearSpare_of_isSpare (h : l.IsSpare i j) (hi : i < window.length) (hj : j < 8) :
    (l.clearSpare window).bitAt? i j = some false := by
  rcases h with ⟨hdense, hpart, hlast, hle⟩
  have hget : (l.clearSpare window)[i]? =
      some (window[i] &&& UInt8.ofNat (2 ^ (l.flagCount % 8) - 1)) := by
    rw [clearSpare, List.getElem?_mapIdx, List.getElem?_eq_getElem hi]
    exact congrArg some (if_pos ⟨hdense, hpart, hlast⟩)
  rw [bitAt?_of_getElem? hget hj, testBit_and_mask (Nat.mod_lt _ (by decide)),
    decide_eq_false (Nat.not_lt.mpr hle), Bool.and_false]

/-- All other bits are kept. -/
theorem bitAt?_clearSpare_of_not_isSpare (h : ¬ l.IsSpare i j) (hj : j < 8) :
    (l.clearSpare window).bitAt? i j = window.bitAt? i j := by
  have hget : (l.clearSpare window)[i]? = window[i]?.map fun b =>
      if l.packing = .dense ∧ l.flagCount % 8 ≠ 0 ∧ i + 1 = l.totalSize then
        b &&& UInt8.ofNat (2 ^ (l.flagCount % 8) - 1)
      else b := by
    rw [clearSpare, List.getElem?_mapIdx]
  cases hb : window[i]? with
  | none =>
    rw [hb] at hget
    exact bitAt?_congr (hget.trans hb.symm) j
  | some b =>
    rw [hb] at hget
    by_cases hlast : l.packing = .dense ∧ l.flagCount % 8 ≠ 0 ∧ i + 1 = l.totalSize
    · have hlt : j < l.flagCount % 8 := by
        by_contra hle
        exact h ⟨hlast.1, hlast.2.1, hlast.2.2, Nat.not_lt.mp hle⟩
      rw [Option.map_some, if_pos hlast] at hget
      rw [bitAt?_of_getElem? hget hj, bitAt?_of_getElem? hb hj,
        testBit_and_mask (Nat.mod_lt _ (by decide)), decide_eq_true hlt, Bool.and_true]
    · rw [Option.map_some, if_neg hlast] at hget
      exact bitAt?_congr (hget.trans hb.symm) j

/-! ## Writing what was read -/

/-- The byte that stores a boolean that was read is 0 or 1. -/
theorem ofValue_read_of_bool (hloose : l.packing = .loose) (hp : p ∈ l.placements)
    (hbool : p.backing = .bool) (hin : p.Within window.length) :
    (ofValue (p.read l.packing window))[0]? = (l.truthBytes window)[p.offset]? := by
  have hf : ¬ p.IsFlag l.packing := hloose ▸ Placement.not_isFlag_of_loose
  obtain ⟨b, hget, hread⟩ := Placement.exists_read_of_bool hf hbool hin
  rw [hread, ofValue_ofBits_bool, getElem?_truthBytes_of_bool hloose hp hbool, hget]
  rfl

/-- The bytes that store any other value that was read are those of the window. -/
theorem bitAt?_ofValue_read_of_ne_bool (hbool : p.backing ≠ .bool)
    (hin : p.Within window.length) (hown : p.Owns l.packing i j) :
    (ofValue (p.read l.packing window)).bitAt? (i - p.offset) j = window.bitAt? i j := by
  have hf : ¬ p.IsFlag l.packing := Placement.not_isFlag_of_backing_ne hbool
  have hbyte := hin.byte_mem hown
  obtain ⟨data, hdata⟩ := exists_slice? hin.inside
  have hlen : data.length = p.backing.size := (length_of_slice? hdata).trans hin.size_eq
  rw [Placement.read_of_slice? hf hin.size_eq hdata, ofValue_ofBits_toNat hbool hlen,
    bitAt?_of_slice? hdata (by omega), Nat.add_sub_cancel' hbyte.1]

/-- What was read for a field that is no flag is stored as the window has it,
once boolean bytes are 0 or 1. -/
theorem bitAt?_ofValue_read (hl : l.WellFormed) (hw : window.length = l.totalSize)
    (hp : p ∈ l.placements) (hf : ¬ p.IsFlag l.packing) (hown : p.Owns l.packing i j) :
    (ofValue (p.read l.packing window)).bitAt? (i - p.offset) j =
      (l.truthBytes window).bitAt? i j := by
  have hin : p.Within window.length := hw ▸ hl.within p hp
  by_cases hbool : p.backing = .bool
  · have hloose : l.packing = .loose := Placement.eq_loose_of_not_isFlag hbool hf
    have hsize : p.size = 1 := hin.size_of_bool hbool
    have hbyte := hin.byte_mem hown
    obtain rfl : i = p.offset := by omega
    rw [Nat.sub_self]
    exact bitAt?_congr (ofValue_read_of_bool hloose hp hbool hin) j
  · rw [bitAt?_ofValue_read_of_ne_bool hbool hin hown]
    exact (bitAt?_congr (getElem?_truthBytes_of_ne_bool hl hp hbool hown) j).symm

/-- After a write of what was read from a window, an owned bit is that of the
window, if it was clear or that of the window before. -/
theorem Stored.bitAt?_eq_truthBytes (hl : l.WellFormed) (hw : window.length = l.totalSize)
    {offset : Nat} {before after : Bytes}
    (hs : l.Stored (l.placements.map (Placement.read l.packing window)) offset before after)
    (hp : p ∈ l.placements) (hown : p.Owns l.packing i j)
    (hbefore : before.bitAt? (offset + i) j = some false ∨
      before.bitAt? (offset + i) j = window.bitAt? i j) :
    after.bitAt? (offset + i) j = (l.truthBytes window).bitAt? i j := by
  rw [hs.owned p _ (mem_zip_map hp) i j hown]
  by_cases hf : p.IsFlag l.packing
  · obtain ⟨hi, hj⟩ := hl.lt_of_owns hp hown
    obtain ⟨rfl, rfl⟩ := (Placement.owns_of_isFlag hf).mp hown
    obtain ⟨b, hb⟩ := Option.isSome_iff_exists.mp
      (bitAt?_isSome_iff.mpr (⟨hw ▸ hi, hj⟩ : p.offset < window.length ∧ p.bit < 8))
    rw [Placement.storedBit_of_isFlag hf, Placement.read_of_isFlag hf hb,
      truthBytes_of_dense hf.1, hb]
    rcases hbefore with hclear | hsame
    · rw [hclear]
      cases b <;> rfl
    · rw [hsame, hb]
      cases b <;> rfl
  · rw [Placement.storedBit_of_not_isFlag hf]
    exact bitAt?_ofValue_read hl hw hp hf hown

/-- A write in place of what was read makes boolean bytes 0 or 1. -/
theorem Stored.splice?_truthBytes (hl : l.WellFormed) {offset : Nat} {buffer after : Bytes}
    (hwindow : buffer.slice? offset l.totalSize = some window)
    (hs : l.Stored (l.placements.map (Placement.read l.packing window)) offset buffer after) :
    buffer.splice? offset (l.truthBytes window) = some after := by
  have hw : window.length = l.totalSize := length_of_slice? hwindow
  have hlen : (l.truthBytes window).length = l.totalSize := by rw [length_truthBytes, hw]
  have hfit := le_of_slice? hwindow
  obtain ⟨spliced, hspliced⟩ : ∃ spliced,
      buffer.splice? offset (l.truthBytes window) = some spliced := exists_splice? (by omega)
  have heq : after = spliced := by
    apply ext_bitAt?
    intro i j hj
    by_cases hi : i < offset ∨ offset + l.totalSize ≤ i
    · rw [hs.bitAt?_of_outside hl hi, bitAt?_of_splice?_of_outside hspliced (by omega)]
    · obtain ⟨k, rfl⟩ : ∃ k, i = offset + k := ⟨i - offset, by omega⟩
      have hk : k < l.totalSize := by omega
      have hold : buffer.bitAt? (offset + k) j = window.bitAt? k j :=
        (bitAt?_of_slice? hwindow hk j).symm
      rw [bitAt?_of_splice? hspliced (by omega)]
      by_cases hspare : l.IsSpare k j
      · rw [hs.unowned k j ((hl.unowned_iff k j hk hj).mpr hspare), hold,
          truthBytes_of_dense hspare.1]
      · obtain ⟨p, hp, hown⟩ := hl.exists_owns hk hj hspare
        exact hs.bitAt?_eq_truthBytes hl hw hp hown (.inr hold)
  rw [hspliced, heq]

/-- A write to zeros of what was read gives the normal form. -/
theorem Stored.eq_normalise (hl : l.WellFormed) (hw : window.length = l.totalSize)
    {bytes : Bytes}
    (hs : l.Stored (l.placements.map (Placement.read l.packing window)) 0
      (List.replicate l.totalSize 0) bytes) :
    bytes = l.normalise window := by
  have hlen : bytes.length = l.totalSize := by rw [hs.length_eq, List.length_replicate]
  have hlen' : (l.normalise window).length = l.totalSize := by rw [length_normalise, hw]
  apply ext_bitAt?
  intro i j hj
  by_cases hi : i < l.totalSize
  · have hzero : Bytes.bitAt? (List.replicate l.totalSize 0) (0 + i) j = some false := by
      rw [Nat.zero_add]
      exact bitAt?_replicate_zero hi hj
    unfold normalise
    rw [← Nat.zero_add i]
    by_cases hspare : l.IsSpare i j
    · rw [hs.unowned i j ((hl.unowned_iff i j hi hj).mpr hspare), hzero, Nat.zero_add,
        bitAt?_clearSpare_of_isSpare hspare (by rw [length_truthBytes]; omega) hj]
    · obtain ⟨p, hp, hown⟩ := hl.exists_owns hi hj hspare
      rw [hs.bitAt?_eq_truthBytes hl hw hp hown (.inl hzero), Nat.zero_add,
        bitAt?_clearSpare_of_not_isSpare hspare hj]
  · rw [bitAt?_eq_none_of_le (by omega), bitAt?_eq_none_of_le (by omega)]

end Layout

/-! ## Parsed records -/

namespace FieldMap

/-- The record holds what the layout stores, and nothing else. -/
def Exact (r : FieldMap) (l : Layout) : Prop :=
  r.Supplies l ∧ ∀ name, name ∈ r ↔ name ∈ l.names

variable {r : FieldMap} {l : Layout}

/-- A record of the placed names is the same without all other names. -/
theorem Exact.restrict_eq (hr : r.Exact l) : r.restrict l.names = r := by
  apply Std.ExtTreeMap.ext_getElem?
  intro name
  rw [getElem?_restrict]
  by_cases hname : name ∈ l.names
  · rw [if_pos hname]
  · have hnot : name ∉ r := fun h => hname ((hr.2 name).mp h)
    rw [if_neg hname, Std.ExtTreeMap.getElem?_eq_none hnot]

end FieldMap

namespace Layout

variable {l : Layout} {window : Bytes}

theorem value_recordIn (hl : l.WellFormed) {p : Placement} (hp : p ∈ l.placements) :
    (l.recordIn window).value p = p.read l.packing window := by
  unfold FieldMap.value
  rw [getElem?_recordIn hl hp]
  rfl

/-- Every window holds a record that can be written. -/
theorem exact_recordIn (hl : l.WellFormed) (hw : window.length = l.totalSize) :
    (l.recordIn window).Exact l := by
  constructor
  · intro p hp
    exact ⟨_, getElem?_recordIn hl hp,
      Placement.scalar_read (hw ▸ hl.within p hp)⟩
  · intro name
    exact mem_recordIn_iff hl

theorem map_value_recordIn (hl : l.WellFormed) (window : Bytes) :
    l.placements.map (l.recordIn window).value =
      l.placements.map (Placement.read l.packing window) :=
  List.map_congr_left fun _ hp => value_recordIn hl hp

end Layout

namespace Schema

variable {s : Schema} {window : Bytes}

/-- The bytes of the record in a window are the normal form of the window. -/
theorem encode?_recordIn (hl : s.layout.WellFormed) (hw : window.length = s.totalSize) :
    s.encode? (s.layout.recordIn window) = some (.ok (s.layout.normalise window)) := by
  obtain ⟨bytes, hencode, hs⟩ := exists_encode? hl (Layout.exact_recordIn hl hw).1
  rw [Layout.map_value_recordIn hl] at hs
  rw [hencode, hs.eq_normalise hl hw]

/-- A record is written back to the window it was parsed from. -/
theorem exists_write?_recordIn (hl : s.layout.WellFormed) {buffer : Bytes} {offset : Nat}
    (hwindow : buffer.slice? offset s.totalSize = some window) :
    ∃ after, buffer.splice? offset (s.layout.truthBytes window) = some after ∧
      s.write? (s.layout.recordIn window) buffer offset = some ⟨.ok (), after⟩ := by
  have hw : window.length = s.totalSize := length_of_slice? hwindow
  obtain ⟨after, hwrite, hs⟩ :=
    exists_write? hl (Layout.exact_recordIn hl hw).1 (le_of_slice? hwindow)
  rw [Layout.map_value_recordIn hl] at hs
  exact ⟨after, hs.splice?_truthBytes hl hwindow, hwrite⟩

/-- The record in the bytes of a record of the placed names is that record. -/
theorem exists_encode?_of_exact (hl : s.layout.WellFormed) {r : FieldMap}
    (hr : r.Exact s.layout) :
    ∃ bytes, s.encode? r = some (.ok bytes) ∧ bytes.length = s.totalSize ∧
      s.layout.recordIn bytes = r := by
  obtain ⟨bytes, hencode, hs⟩ := exists_encode? hl hr.1
  refine ⟨bytes, hencode, length_of_stored_zeros hs, ?_⟩
  rw [recordIn_eq_restrict hl hr.1 hs, hr.restrict_eq]

/-- Records of the placed names correspond to windows in normal form. -/
theorem bijOn_encode? (hl : s.layout.WellFormed) :
    Set.BijOn s.encode? {r | r.Exact s.layout}
      ((fun bytes => some (.ok bytes)) ''
        {bytes | bytes.length = s.totalSize ∧ s.layout.normalise bytes = bytes}) := by
  refine ⟨?_, ?_, ?_⟩
  · intro r hr
    obtain ⟨bytes, hencode, hlen, hrecord⟩ := exists_encode?_of_exact hl hr
    have hnormal := encode?_recordIn hl hlen
    rw [hrecord, hencode] at hnormal
    have heq : bytes = s.layout.normalise bytes := Except.ok.inj (Option.some.inj hnormal)
    exact ⟨bytes, ⟨hlen, heq.symm⟩, hencode.symm⟩
  · intro r hr r' hr' heq
    obtain ⟨bytes, hencode, _, hrecord⟩ := exists_encode?_of_exact hl hr
    obtain ⟨bytes', hencode', _, hrecord'⟩ := exists_encode?_of_exact hl hr'
    rw [hencode, hencode'] at heq
    obtain rfl : bytes = bytes' := Except.ok.inj (Option.some.inj heq)
    rw [← hrecord, hrecord']
  · intro result hresult
    rcases hresult with ⟨bytes, ⟨hlen, hnormal⟩, rfl⟩
    refine ⟨s.layout.recordIn bytes, Layout.exact_recordIn hl hlen, ?_⟩
    rw [encode?_recordIn hl hlen, hnormal]

/-- Parsing a window and encoding the record gives the normal form of the
window.  Writing the record back changes boolean bytes only, and records of the
placed names correspond to windows in normal form. -/
theorem encode?_parse? {fields : List Field} {packing : Packing}
    (h : ofFields fields packing = .ok s) :
    s.layout.packing = packing ∧
      (∀ (buffer : Bytes) offset, offset + s.totalSize ≤ buffer.length →
        ∃ window r after, buffer.slice? offset s.totalSize = some window ∧
          s.parse? buffer offset = some (.ok r) ∧
          s.encode? r = some (.ok (s.layout.normalise window)) ∧
          s.write? r buffer offset = some ⟨.ok (), after⟩ ∧
          buffer.splice? offset (s.layout.truthBytes window) = some after) ∧
      Set.BijOn s.encode? {r | r.Exact s.layout}
        ((fun bytes => some (.ok bytes)) ''
          {bytes | bytes.length = s.totalSize ∧ s.layout.normalise bytes = bytes}) := by
  have harrange := arrange_of_ofFields h
  have hl := Layout.wellFormed_of_arrange harrange
  refine ⟨Layout.packing_of_arrange harrange, ?_, bijOn_encode? hl⟩
  intro buffer offset hfit
  obtain ⟨window, hwindow⟩ : ∃ window, buffer.slice? offset s.totalSize = some window :=
    exists_slice? hfit
  obtain ⟨after, hafter, hwrite⟩ := exists_write?_recordIn hl hwindow
  exact ⟨window, s.layout.recordIn window, after, hwindow, parse?_eq hl hwindow,
    encode?_recordIn hl (length_of_slice? hwindow), hwrite, hafter⟩

/-- The six bits above the two flags are cleared. -/
theorem encode?_parse?_signal :
    ofFields signal .dense = .ok signalSchema ∧
      ∃ r, signalSchema.parse? [0xee, 1, 0, 0xc0, 0x7f, 0x3d, 0xd8, 0xfe, 0xee] 1 = some (.ok r) ∧
        signalSchema.encode? r = some (.ok [1, 0, 0xc0, 0x7f, 0x3d, 0xd8, 0x02]) := by
  obtain ⟨_, hparse, _⟩ := encode?_parse? ofFields_signal
  obtain ⟨window, r, _, hwindow, hr, hencode, _⟩ :=
    hparse [0xee, 1, 0, 0xc0, 0x7f, 0x3d, 0xd8, 0xfe, 0xee] 1 (by decide)
  obtain rfl : window = [1, 0, 0xc0, 0x7f, 0x3d, 0xd8, 0xfe] :=
    Option.some.inj (hwindow.symm.trans rfl)
  refine ⟨ofFields_signal, r, hr, ?_⟩
  rw [hencode]
  decide

end Schema

end FlatRecord
