import FlatRecord.Proofs.Positions
import FlatRecord.Proofs.RoundTrip

/-!
# Packed and unpacked booleans

The two packings place a list of fields alike, but for where each boolean goes.
This module compares the two layouts of one list, and the bytes that they give
one record: the packed bytes hold as bits what the others hold as bytes.

* `arrange_loose_or_dense` says that the two packings fail together, and that the
  two layouts are assembled from the same fields.
* `Bytes.Packs` is the relation between the two encodings.
* `Layout.Encodes` says that these are the bytes of a record.  Each bit of them is
  known from the field that owns it, so `take_scalarSize_eq`, `getElem?_boolean`,
  `bitAt?_boolean` and `bitAt?_after_booleans` only have to find that field.
-/

namespace FlatRecord

open Bytes

/-! ## The bytes of the scalars -/

namespace Field

/-- The bytes that a value of the field takes, if the field can be stored. -/
def storedSize (f : Field) : Nat :=
  match f.backing with
  | .ok s => s.size
  | .error _ => 0

/-- The bytes that the stored fields of a list take together, booleans apart. -/
def scalarBytes (fields : List Field) : Nat :=
  ((fields.filter fun f => f.included && !f.type.isBool).map storedSize).sum

theorem storedSize_of_backing {f : Field} {s : Scalar} (h : f.backing = .ok s) :
    f.storedSize = s.size := by
  simp [storedSize, h]

end Field

namespace Entry

theorem scalarSize_of_withBacking {es : List Entry} {scalars : List (Entry × Scalar)}
    (h : withBacking es = .ok scalars) :
    Layout.scalarSize scalars = (es.map fun e => e.field.storedSize).sum := by
  induction es generalizing scalars with
  | nil => cases h; rfl
  | cons e es ih =>
    obtain ⟨s, rest, hs, hrest, rfl⟩ := withBacking_cons_eq_ok_iff.mp h
    simp [Layout.scalarSize_cons, ih hrest, Field.storedSize_of_backing hs]

/-- The scalars of a layout take the bytes of the stored fields that are no
booleans. -/
theorem scalarSize_others {fields : List Field} {scalars : List (Entry × Scalar)}
    (h : withBacking (others fields) = .ok scalars) :
    Layout.scalarSize scalars = Field.scalarBytes fields := by
  have hperm := map_field_filter_sorted_perm fields fun f => !f.type.isBool
  rw [scalarSize_of_withBacking h, Field.scalarBytes, ← (hperm.map _).sum_nat, List.map_map]
  rfl

end Entry

namespace Layout

variable {packing : Packing} {scalars : List (Entry × Scalar)} {booleans : List Entry}

/-! ## Two layouts of one list -/

/-- Fields have a layout in both packings or in none.  The layouts are assembled
from the same scalars and the same booleans. -/
theorem arrange_loose_or_dense (fields : List Field) :
    (∃ e, arrange fields .loose = .error e ∧ arrange fields .dense = .error e) ∨
      ∃ scalars, Entry.withBacking (Entry.others fields) = .ok scalars ∧
        ∀ packing, arrange fields packing =
          .ok (assemble packing scalars (Entry.booleans fields)) := by
  simp only [arrange_eq]
  cases Entry.checkNames (Entry.sorted fields) with
  | error e => exact .inl ⟨e, rfl, rfl⟩
  | ok _ =>
    cases Entry.withBacking (Entry.others fields) with
    | error e => exact .inl ⟨e, rfl, rfl⟩
    | ok scalars => exact .inr ⟨scalars, rfl, fun _ => rfl⟩

/-- The placements that are no booleans are those of the scalars. -/
theorem filter_placements_assemble (packing : Packing) (booleans : List Entry)
    (hs : ∀ x ∈ scalars, x.2 ≠ .bool) :
    (assemble packing scalars booleans).placements.filter (fun p => !p.isBool) =
      placeScalars 0 scalars := by
  have hscalars : (placeScalars 0 scalars).filter (fun p => !p.isBool) =
      placeScalars 0 scalars := by
    refine List.filter_eq_self.mpr fun p hp => ?_
    simpa [Placement.isBool] using not_isBool_of_mem_placeScalars hs hp
  have hflags : (booleans.mapIdx fun k e => flagAt packing (scalarSize scalars) e k).filter
      (fun p => !p.isBool) = [] := by
    refine List.filter_eq_nil_iff.mpr fun p hp => ?_
    obtain ⟨k, hk, rfl⟩ := List.mem_mapIdx.mp hp
    simp [flagAt, Placement.isBool]
  rw [assemble, List.filter_append, hscalars, hflags, List.append_nil]

/-- The placements that are booleans are those of the flags. -/
theorem filter_isBool_assemble (packing : Packing) (booleans : List Entry)
    (hs : ∀ x ∈ scalars, x.2 ≠ .bool) :
    (assemble packing scalars booleans).placements.filter Placement.isBool =
      booleans.mapIdx fun k e => flagAt packing (scalarSize scalars) e k := by
  have hscalars : (placeScalars 0 scalars).filter Placement.isBool = [] := by
    apply List.filter_eq_nil_iff.mpr
    intro p hp
    simpa [Placement.isBool] using not_isBool_of_mem_placeScalars hs hp
  have hflags : (booleans.mapIdx fun k e => flagAt packing (scalarSize scalars) e k).filter
      Placement.isBool = booleans.mapIdx fun k e => flagAt packing (scalarSize scalars) e k := by
    apply List.filter_eq_self.mpr
    intro p hp
    obtain ⟨k, hk, rfl⟩ := List.mem_mapIdx.mp hp
    rfl
  rw [assemble, List.filter_append, hscalars, hflags, List.nil_append]

end Layout

/-- A record that supplies a layout supplies every layout of the same fields. -/
theorem FieldMap.Supplies.congr {r : FieldMap} {l l' : Layout}
    (h : l.placements.map (fun p => (p.index, p.name, p.backing)) =
      l'.placements.map fun p => (p.index, p.name, p.backing))
    (hr : r.Supplies l) : r.Supplies l' := by
  intro p hp
  have hmem : (p.index, p.name, p.backing) ∈
      l.placements.map fun p => (p.index, p.name, p.backing) := by
    rw [h]
    exact List.mem_map.mpr ⟨p, hp, rfl⟩
  obtain ⟨q, hq, heq⟩ := List.mem_map.mp hmem
  simp only [Prod.mk.injEq] at heq
  rw [← heq.2.1, ← heq.2.2]
  exact hr q hq

/-! ## Two encodings of one record -/

/-- The booleans that `bytes` holds from `start` on, one to a byte, are held by
`packed` as bits, eight to a byte.  Both begin with the same bytes. -/
structure Bytes.Packs (start count : Nat) (bytes packed : Bytes) : Prop where
  length_eq : bytes.length = start + count
  length_packed_eq : packed.length = start + (count + 7) / 8
  take_eq : bytes.take start = packed.take start
  boolean : ∀ k < count, ∃ b, bytes[start + k]? = some (if b then 1 else 0) ∧
    packed.bitAt? (start + k / 8) (k % 8) = some b
  /-- The bits after the last boolean are clear. -/
  spare : ∀ i j, start ≤ i → i < packed.length → j < 8 → count ≤ 8 * (i - start) + j →
    packed.bitAt? i j = some false

namespace Layout

/-- These are the bytes of a record: those that a write leaves in zeros. -/
def Encodes (l : Layout) (r : FieldMap) (bytes : Bytes) : Prop :=
  l.Stored (l.placements.map r.value) 0 (List.replicate l.totalSize 0) bytes

namespace Encodes

variable {l : Layout} {r : FieldMap} {bytes : Bytes} {p : Placement} {i j : Nat}

theorem length_eq (hs : l.Encodes r bytes) : bytes.length = l.totalSize :=
  Schema.length_of_stored_zeros (s := ⟨l⟩) hs

/-- The bytes of a field that is no flag are those of its value. -/
theorem bitAt?_of_not_isFlag (hs : l.Encodes r bytes) (hp : p ∈ l.placements)
    (hf : ¬ p.IsFlag l.packing) (hown : p.Owns l.packing i j) :
    bytes.bitAt? i j = (ofValue (r.value p)).bitAt? (i - p.offset) j := by
  have hbit := Stored.owned hs p _ (mem_zip_map hp) i j hown
  rw [Nat.zero_add] at hbit
  rw [hbit]
  exact Placement.storedBit_of_not_isFlag hf _ _ _ _

/-- The bit of a flag is its value. -/
theorem bitAt?_of_isFlag (hs : l.Encodes r bytes) (hl : l.WellFormed) (hp : p ∈ l.placements)
    (hf : p.IsFlag l.packing) {b : Bool} (hb : r.value p = .bool b) :
    bytes.bitAt? p.offset p.bit = some b := by
  have hown : p.Owns l.packing p.offset p.bit := (Placement.owns_of_isFlag hf).mpr ⟨rfl, rfl⟩
  have hbit := Stored.owned hs p _ (mem_zip_map hp) _ _ hown
  rw [hl.bitAt?_zeros hp, Nat.zero_add] at hbit
  rw [hbit, Placement.storedBit_of_isFlag hf, hb]
  cases b <;> rfl

/-- The bits that belong to no field are clear. -/
theorem bitAt?_of_unowned (hs : l.Encodes r bytes) (hi : i < l.totalSize) (hj : j < 8)
    (h : ∀ p ∈ l.placements, ¬ p.Owns l.packing i j) : bytes.bitAt? i j = some false := by
  have hbit := Stored.unowned hs i j h
  rw [Nat.zero_add] at hbit
  rw [hbit]
  exact bitAt?_replicate_zero hi hj

end Encodes

variable {scalars : List (Entry × Scalar)} {booleans : List Entry} {r : FieldMap}
  {bytes packed : Bytes}

/-- The scalars have the same bytes in both packings. -/
theorem take_scalarSize_eq (hs : ∀ x ∈ scalars, x.2 ≠ .bool)
    (hloose : (assemble .loose scalars booleans).Encodes r bytes)
    (hdense : (assemble .dense scalars booleans).Encodes r packed) :
    bytes.take (scalarSize scalars) = packed.take (scalarSize scalars) := by
  apply List.ext_getElem?
  intro i
  rw [List.getElem?_take, List.getElem?_take]
  split
  · next hi =>
    obtain ⟨p, hp, hlo, hhi⟩ :=
      exists_mem_placeScalars (Nat.zero_le i) (by omega : i < 0 + scalarSize scalars)
    have hback := not_isBool_of_mem_placeScalars hs hp
    apply getElem?_eq_of_bitAt?
    intro j hj
    have hbits (packing : Packing) {bytes : Bytes}
        (h : (assemble packing scalars booleans).Encodes r bytes) :
        bytes.bitAt? i j = (ofValue (r.value p)).bitAt? (i - p.offset) j := by
      have hf : ¬ p.IsFlag packing := Placement.not_isFlag_of_backing_ne hback
      exact h.bitAt?_of_not_isFlag (mem_placements_assemble.mpr (.inl hp)) hf
        ((Placement.owns_of_not_isFlag hf).mpr ⟨hlo, hhi, hj⟩)
    rw [hbits .loose hloose, hbits .dense hdense]
  · rfl

/-- A boolean with a byte of its own makes it 1 or 0. -/
theorem getElem?_boolean (hloose : (assemble .loose scalars booleans).Encodes r bytes) {k : Nat}
    (hk : k < booleans.length) {b : Bool}
    (hb : r.value (flagAt .loose (scalarSize scalars) booleans[k] k) = .bool b) :
    bytes[scalarSize scalars + k]? = some (if b then 1 else 0) := by
  have hp : flagAt .loose (scalarSize scalars) booleans[k] k ∈
      (assemble .loose scalars booleans).placements :=
    mem_placements_assemble.mpr (.inr ⟨k, hk, rfl⟩)
  have hbyte : bytes[scalarSize scalars + k]? = (ofValue (.bool b))[0]? := by
    apply getElem?_eq_of_bitAt?
    intro j hj
    have hbit := hloose.bitAt?_of_not_isFlag hp Placement.not_isFlag_of_loose
      (owns_flagAt_loose.mpr ⟨rfl, hj⟩)
    rw [hb] at hbit
    rw [hbit]
    show (ofValue (.bool b)).bitAt? (scalarSize scalars + k - (scalarSize scalars + k)) j = _
    rw [Nat.sub_self]
  rw [hbyte, ofValue_bool]
  rfl

/-- A boolean that shares a byte is its bit there. -/
theorem bitAt?_boolean (hl : (assemble .dense scalars booleans).WellFormed)
    (hdense : (assemble .dense scalars booleans).Encodes r packed) {k : Nat}
    (hk : k < booleans.length) {b : Bool}
    (hb : r.value (flagAt .dense (scalarSize scalars) booleans[k] k) = .bool b) :
    packed.bitAt? (scalarSize scalars + k / 8) (k % 8) = some b := by
  have hp : flagAt .dense (scalarSize scalars) booleans[k] k ∈
      (assemble .dense scalars booleans).placements :=
    mem_placements_assemble.mpr (.inr ⟨k, hk, rfl⟩)
  exact hdense.bitAt?_of_isFlag hl hp ⟨rfl, rfl⟩ hb

/-- The bits after the last boolean are clear. -/
theorem bitAt?_after_booleans (hdense : (assemble .dense scalars booleans).Encodes r packed)
    {i j : Nat} (hlo : scalarSize scalars ≤ i) (hi : i < packed.length) (hj : j < 8)
    (hafter : booleans.length ≤ 8 * (i - scalarSize scalars) + j) :
    packed.bitAt? i j = some false := by
  refine hdense.bitAt?_of_unowned (hdense.length_eq ▸ hi) hj ?_
  refine (unowned_assemble_iff_of_le hlo).mpr fun hown => ?_
  have hlt : 8 * (i - scalarSize scalars) + j < booleans.length :=
    (exists_flagAt_owns_iff hlo hj).mp hown
  omega

/-- The encodings of a record in the two packings. -/
theorem packs_of_encodes (hs : ∀ x ∈ scalars, x.2 ≠ .bool)
    (hl : (assemble .dense scalars booleans).WellFormed)
    (hr : r.Supplies (assemble .loose scalars booleans))
    (hloose : (assemble .loose scalars booleans).Encodes r bytes)
    (hdense : (assemble .dense scalars booleans).Encodes r packed) :
    Packs (scalarSize scalars) booleans.length bytes packed where
  length_eq := hloose.length_eq.trans (totalSize_assemble_loose scalars booleans)
  length_packed_eq := hdense.length_eq.trans (totalSize_assemble_dense scalars booleans)
  take_eq := take_scalarSize_eq hs hloose hdense
  boolean := by
    intro k hk
    have hp : flagAt .loose (scalarSize scalars) booleans[k] k ∈
        (assemble .loose scalars booleans).placements :=
      mem_placements_assemble.mpr (.inr ⟨k, hk, rfl⟩)
    have hf : (flagAt .loose (scalarSize scalars) booleans[k] k).IsFlag .dense := ⟨rfl, rfl⟩
    obtain ⟨b, hb⟩ := Placement.exists_bool_of_isFlag hf (hr.scalar_value hp)
    -- The value depends on the name and the type, and not on the place.
    exact ⟨b, getElem?_boolean hloose hk hb, bitAt?_boolean hl hdense hk hb⟩
  spare := fun i j hlo hi hj hafter => bitAt?_after_booleans hdense hlo hi hj hafter

/-- The two packings refuse the same lists of fields, with the same errors.  The
two layouts of a list place the same fields in the same order, and the scalars at
the same places.  The bytes of a record in the dense packing are those in the
loose one with the booleans packed into bits. -/
theorem dense_packs_loose (fields : List Field) :
    (∃ e, arrange fields .loose = .error e ∧ arrange fields .dense = .error e) ∨
      ∃ l d, arrange fields .loose = .ok l ∧ arrange fields .dense = .ok d ∧
        l.placements.map (fun p => (p.index, p.name, p.backing)) =
          d.placements.map (fun p => (p.index, p.name, p.backing)) ∧
        l.placements.filter (fun p => !p.isBool) = d.placements.filter (fun p => !p.isBool) ∧
        ∀ r : FieldMap, r.Supplies l → ∃ bytes packed,
          Schema.encode? ⟨l⟩ r = some (.ok bytes) ∧ Schema.encode? ⟨d⟩ r = some (.ok packed) ∧
          Packs (Field.scalarBytes fields) (Field.booleanCount fields) bytes packed := by
  rcases arrange_loose_or_dense fields with herror | ⟨scalars, hback, harrange⟩
  · exact .inl herror
  · right
    have hs : ∀ x ∈ scalars, x.2 ≠ .bool := fun x hx => Entry.ne_bool_of_mem_withBacking hback hx
    have hplaced := (map_placements_assemble .loose scalars (Entry.booleans fields)).trans
      (map_placements_assemble .dense scalars (Entry.booleans fields)).symm
    refine ⟨_, _, harrange .loose, harrange .dense, hplaced, ?_, fun r hr => ?_⟩
    · rw [filter_placements_assemble .loose _ hs, filter_placements_assemble .dense _ hs]
    · have hl (packing : Packing) := wellFormed_of_arrange (harrange packing)
      obtain ⟨bytes, hbytes, hloose⟩ := Schema.exists_encode? (s := ⟨_⟩) (hl .loose) hr
      obtain ⟨packed, hpacked, hdense⟩ :=
        Schema.exists_encode? (s := ⟨_⟩) (hl .dense) (hr.congr hplaced)
      refine ⟨bytes, packed, hbytes, hpacked, ?_⟩
      rw [← Entry.scalarSize_others hback, ← Entry.length_booleans]
      exact packs_of_encodes hs (hl .dense) hr hloose hdense

/-- The number 258 and the last two of the nine flags. -/
def nineFlagsRecord : FieldMap :=
  ["a", "b", "c", "d", "e", "f", "g", "h", "i"].foldl
    (fun r name => r.insert name (.bool (name = "h" ∨ name = "i")))
    ((∅ : FieldMap).insert "id" (.u16 258))

theorem supplies_nineFlagsRecord : nineFlagsRecord.Supplies nineFlagsLayout := by
  simp [FieldMap.Supplies, nineFlagsLayout, nineFlagsRecord, Std.ExtTreeMap.getElem?_insert,
    Value.scalar]

/-- The eighth flag is the highest bit of a full byte and the ninth the lowest of
the next.  In the loose packing both are bytes. -/
theorem dense_packs_loose_nineFlags :
    ∃ l bytes, arrange nineFlags .loose = .ok l ∧ nineFlagsRecord.Supplies l ∧
      Schema.encode? ⟨l⟩ nineFlagsRecord = some (.ok bytes) ∧
      Schema.encode? ⟨nineFlagsLayout⟩ nineFlagsRecord = some (.ok [2, 1, 0x80, 1]) ∧
      Packs 2 9 bytes [2, 1, 0x80, 1] ∧ bytes[10]? = some 1 := by
  rcases dense_packs_loose nineFlags with ⟨e, _, he⟩ | ⟨l, d, hl, hd, hplaced, _, hencode⟩
  · exact nomatch arrange_nineFlags.symm.trans he
  · obtain rfl : nineFlagsLayout = d := Except.ok.inj (arrange_nineFlags.symm.trans hd)
    have hr : nineFlagsRecord.Supplies l := supplies_nineFlagsRecord.congr hplaced.symm
    obtain ⟨bytes, packed, hbytes, hpacked, hpacks⟩ := hencode nineFlagsRecord hr
    obtain rfl : [2, 1, 0x80, 1] = packed :=
      Except.ok.inj (Option.some.inj (Eq.trans rfl hpacked))
    rw [show Field.scalarBytes nineFlags = 2 by decide,
      show Field.booleanCount nineFlags = 9 by decide] at hpacks
    obtain ⟨b, hbyte, hbit⟩ := hpacks.boolean 8 (by decide)
    obtain rfl : true = b := Option.some.inj (Eq.trans (by decide) hbit)
    exact ⟨l, bytes, hl, hr, hbytes, hpacked, hpacks, hbyte⟩

end Layout

end FlatRecord
