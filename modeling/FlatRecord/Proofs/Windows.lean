import FlatRecord.Proofs.RoundTrip

/-!
# Writes to disjoint windows

Many records can share a buffer, with a schema and a window each.  As long as no
byte lies in two windows, the writes do not see each other: their order does not
matter, and each record is parsed as if it were the only one.

* `Write.Covers` is the window of a write as a set of bytes, so that a window of
  no bytes is apart from every other, wherever it lies.
* `Stored.bitAt?_congr` says that a write is local: what it leaves in its window
  depends on nothing but the window.
* `exists_performAll?` is the induction over the writes.  It compares the buffer
  at the end with the buffers that each write leaves on its own.  The result needs
  no second induction, since a buffer is known from its bits.
-/

namespace FlatRecord

open Bytes
open Schema (signal signalRecord signalSchema)

/-- A write leaves the same in two windows that agree. -/
theorem Layout.Stored.bitAt?_congr {l : Layout} {values : List Value} {offset : Nat}
    {before after before' after' : Bytes} (hs : l.Stored values offset before after)
    (hs' : l.Stored values offset before' after') (hv : l.Fits values) {i j : Nat}
    (hbefore : before.bitAt? (offset + i) j = before'.bitAt? (offset + i) j) :
    after.bitAt? (offset + i) j = after'.bitAt? (offset + i) j := by
  by_cases hnone : ∀ p ∈ l.placements, ¬ p.Owns l.packing i j
  · rw [hs.unowned i j hnone, hs'.unowned i j hnone, hbefore]
  · obtain ⟨p, hp, hown⟩ : ∃ p ∈ l.placements, p.Owns l.packing i j := by simpa using hnone
    obtain ⟨v, hpv⟩ := hv.exists_mem_zip hp
    rw [hs.owned p v hpv i j hown, hs'.owned p v hpv i j hown, hbefore]

/-- A record to be written, with its schema and its place. -/
structure Write where
  schema : Schema
  record : FieldMap
  offset : Nat

namespace Write

/-- The byte lies in the window of the write. -/
def Covers (w : Write) (i : Nat) : Prop :=
  w.offset ≤ i ∧ i < w.offset + w.schema.totalSize

/-- No byte lies in both windows. -/
def Apart (a b : Write) : Prop :=
  ∀ i, a.Covers i → ¬ b.Covers i

/-- The write succeeds in a buffer of `length` bytes: it has a compiled schema, a
record that supplies the fields, and a window that fits. -/
structure Ready (length : Nat) (w : Write) : Prop where
  compiled : ∃ fields packing, Schema.ofFields fields packing = .ok w.schema
  supplies : w.record.Supplies w.schema.layout
  fits : w.offset + w.schema.totalSize ≤ length

/-- The buffer after the write, if it succeeds. -/
def perform? (w : Write) (buffer : Bytes) : Option Bytes :=
  (w.schema.write? w.record buffer w.offset).bind fun written =>
    match written.result with
    | .ok () => some written.buffer
    | .error _ => none

/-- The buffer after all writes, in the order of the list, if they all succeed. -/
def performAll? (writes : List Write) (buffer : Bytes) : Option Bytes :=
  writes.foldlM (fun buffer w => w.perform? buffer) buffer

/-- The bits that the write leaves. -/
def Leaves (w : Write) (before after : Bytes) : Prop :=
  w.schema.layout.Stored (w.schema.layout.placements.map w.record.value) w.offset before after

variable {w : Write} {writes : List Write} {buffer before after : Bytes}

theorem Apart.symm {a b : Write} (h : a.Apart b) : b.Apart a :=
  fun i hb ha => h i ha hb

namespace Ready

theorem wellFormed {length : Nat} (h : w.Ready length) : w.schema.layout.WellFormed := by
  obtain ⟨fields, packing, hs⟩ := h.compiled
  exact Layout.wellFormed_of_arrange (Schema.arrange_of_ofFields hs)

theorem exists_perform? (h : w.Ready buffer.length) :
    ∃ after, w.perform? buffer = some after ∧ w.Leaves buffer after := by
  obtain ⟨after, hwrite, hstored⟩ := Schema.exists_write? h.wellFormed h.supplies h.fits
  refine ⟨after, ?_, hstored⟩
  unfold perform?
  rw [hwrite]
  rfl

/-- A byte outside the window is kept. -/
theorem bitAt?_of_not_covers {length : Nat} (h : w.Ready length) (hs : w.Leaves before after)
    {i : Nat} (hi : ¬ w.Covers i) (j : Nat) : after.bitAt? i j = before.bitAt? i j := by
  refine Layout.Stored.bitAt?_of_outside hs h.wellFormed ?_ j
  unfold Covers Schema.totalSize at hi
  omega

/-- A byte of the window is what it would be in a buffer that has the same window. -/
theorem bitAt?_of_covers {length : Nat} (h : w.Ready length) {before' after' : Bytes}
    (hs : w.Leaves before after) (hs' : w.Leaves before' after')
    (hsame : ∀ i j, w.Covers i → before.bitAt? i j = before'.bitAt? i j) {i : Nat}
    (hi : w.Covers i) (j : Nat) : after.bitAt? i j = after'.bitAt? i j := by
  obtain ⟨k, rfl⟩ := Nat.exists_eq_add_of_le hi.1
  exact Layout.Stored.bitAt?_congr hs hs' h.supplies.fits (hsame _ j hi)

end Ready

/-- Writes to disjoint windows all succeed.  In its window, each leaves what it
would leave on its own, and outside all windows nothing is changed. -/
theorem exists_performAll? (hready : ∀ w ∈ writes, w.Ready buffer.length)
    (hapart : writes.Pairwise Apart) :
    ∃ after, performAll? writes buffer = some after ∧ after.length = buffer.length ∧
      (∀ w ∈ writes, ∀ alone, w.Leaves buffer alone → ∀ i j, w.Covers i →
        after.bitAt? i j = alone.bitAt? i j) ∧
      ∀ i j, (∀ w ∈ writes, ¬ w.Covers i) → after.bitAt? i j = buffer.bitAt? i j := by
  induction writes generalizing buffer with
  | nil => exact ⟨buffer, rfl, rfl, fun w hw => absurd hw List.not_mem_nil, fun _ _ _ => rfl⟩
  | cons v writes ih =>
    obtain ⟨hv, hrest⟩ := List.forall_mem_cons.mp hready
    obtain ⟨hfirst, hapart⟩ := List.pairwise_cons.mp hapart
    obtain ⟨next, hnext, hstored⟩ := hv.exists_perform?
    have hlen : next.length = buffer.length := hstored.length_eq
    obtain ⟨after, hafter, hlen', hcovered, hother⟩ :=
      ih (fun w hw => hlen ▸ hrest w hw) hapart
    refine ⟨after, ?_, hlen'.trans hlen, ?_, ?_⟩
    · unfold performAll?
      rw [List.foldlM_cons, hnext]
      exact hafter
    · intro w hw alone halone i j hi
      rcases List.mem_cons.mp hw with rfl | hw
      · -- The later writes lie elsewhere.
        rw [hother i j fun u hu => hfirst u hu i hi]
        exact hv.bitAt?_of_covers hstored halone (fun _ _ _ => rfl) hi j
      · -- The first write lies elsewhere, so the window is the one of the start.
        obtain ⟨alone', _, halone'⟩ := (hlen ▸ hrest w hw : w.Ready next.length).exists_perform?
        rw [hcovered w hw alone' halone' i j hi]
        refine (hrest w hw).bitAt?_of_covers halone' halone (fun i j hi => ?_) hi j
        exact hv.bitAt?_of_not_covers hstored (fun hvi => hfirst w hw i hvi hi) j
    · intro i j hnone
      obtain ⟨hnv, hnone⟩ := List.forall_mem_cons.mp hnone
      rw [hother i j hnone, hv.bitAt?_of_not_covers hstored hnv]

/-- The order of the writes does not matter. -/
theorem performAll?_perm {order : List Write} (hperm : order.Perm writes)
    (hready : ∀ w ∈ writes, w.Ready buffer.length) (hapart : writes.Pairwise Apart) :
    performAll? order buffer = performAll? writes buffer := by
  obtain ⟨after, hafter, _, hcovered, hother⟩ := exists_performAll? hready hapart
  have horder : ∀ w ∈ order, w.Ready buffer.length := fun w hw => hready w (hperm.mem_iff.mp hw)
  obtain ⟨after', hafter', _, hcovered', hother'⟩ :=
    exists_performAll? horder (hperm.symm.pairwise hapart fun h => h.symm)
  rw [hafter, hafter']
  congr 1
  apply ext_bitAt?
  intro i j _
  by_cases hnone : ∀ w ∈ writes, ¬ w.Covers i
  · rw [hother i j hnone, hother' i j fun w hw => hnone w (hperm.mem_iff.mp hw)]
  · obtain ⟨w, hw, hi⟩ : ∃ w ∈ writes, w.Covers i := by simpa using hnone
    obtain ⟨alone, _, halone⟩ := (hready w hw).exists_perform?
    rw [hcovered w hw alone halone i j hi, hcovered' w (hperm.mem_iff.mpr hw) alone halone i j hi]

/-- Two buffers that agree on the window of a write have the same record there. -/
theorem Ready.exists_parse? {length : Nat} (h : w.Ready length) (hbefore : before.length = length)
    (hafter : after.length = length)
    (hsame : ∀ i j, w.Covers i → after.bitAt? i j = before.bitAt? i j) :
    ∃ window, before.slice? w.offset w.schema.totalSize = some window ∧
      w.schema.parse? before w.offset = some (.ok (w.schema.layout.recordIn window)) ∧
      w.schema.parse? after w.offset = some (.ok (w.schema.layout.recordIn window)) := by
  obtain ⟨window, hwindow⟩ : ∃ window, before.slice? w.offset w.schema.totalSize = some window :=
    exists_slice? (hbefore ▸ h.fits)
  obtain ⟨window', hwindow'⟩ : ∃ window, after.slice? w.offset w.schema.totalSize = some window :=
    exists_slice? (hafter ▸ h.fits)
  have heq : window' = window := by
    rw [slice_eq_iff hwindow' hwindow]
    intro i j hi _
    exact hsame (w.offset + i) j ⟨by omega, by omega⟩
  rw [heq] at hwindow'
  exact ⟨window, hwindow, Schema.parse?_eq h.wellFormed hwindow,
    Schema.parse?_eq h.wellFormed hwindow'⟩

/-! ## Arrays of records -/

/-- Records of one schema at consecutive multiples of its size. -/
def array (s : Schema) (first : Nat) (records : List FieldMap) : List Write :=
  records.mapIdx fun i r => ⟨s, r, (first + i) * s.totalSize⟩

variable {s : Schema} {first : Nat} {records : List FieldMap}

theorem mem_array_iff : w ∈ array s first records ↔
    ∃ i r, records[i]? = some r ∧ w = ⟨s, r, (first + i) * s.totalSize⟩ := by
  simp only [array, List.mem_mapIdx, List.getElem?_eq_some_iff]
  constructor
  · rintro ⟨i, hi, rfl⟩
    exact ⟨i, _, ⟨hi, rfl⟩, rfl⟩
  · rintro ⟨i, r, ⟨hi, rfl⟩, rfl⟩
    exact ⟨i, hi, rfl⟩

/-- Each record ends before the next begins. -/
theorem pairwise_apart_array : (array s first records).Pairwise Apart := by
  rw [List.pairwise_iff_getElem]
  intro i j hi hj hij k hki hkj
  simp only [array, List.getElem_mapIdx, Covers] at hki hkj
  have hnext : (first + (i + 1)) * s.totalSize ≤ (first + j) * s.totalSize :=
    Nat.mul_le_mul_right _ (by omega)
  have hstep : (first + (i + 1)) * s.totalSize = (first + i) * s.totalSize + s.totalSize :=
    Nat.succ_mul _ _
  omega

theorem ready_of_mem_array {fields : List Field} {packing : Packing} {length : Nat}
    (h : Schema.ofFields fields packing = .ok s) (hr : ∀ r ∈ records, r.Supplies s.layout)
    (hfit : (first + records.length) * s.totalSize ≤ length) (hw : w ∈ array s first records) :
    w.Ready length := by
  obtain ⟨i, r, hget, rfl⟩ := mem_array_iff.mp hw
  have hi : i < records.length := (List.getElem?_eq_some_iff.mp hget).1
  have hstep : (first + (i + 1)) * s.totalSize = (first + i) * s.totalSize + s.totalSize :=
    Nat.succ_mul _ _
  have hle : (first + (i + 1)) * s.totalSize ≤ (first + records.length) * s.totalSize :=
    Nat.mul_le_mul_right _ (by omega)
  exact ⟨⟨fields, packing, h⟩, hr r (List.mem_of_getElem? hget), hstep ▸ hle.trans hfit⟩

/-- A record on its own in zeros is parsed without the names that have no place. -/
theorem Ready.recordIn_eq_restrict {length : Nat} (h : w.Ready length) {window : Bytes}
    (hs : w.Leaves (List.replicate length 0) after)
    (hwindow : after.slice? w.offset w.schema.totalSize = some window) :
    w.schema.layout.recordIn window = w.record.restrict w.schema.layout.names := by
  refine Schema.recordIn_eq_restrict_of_clear h.wellFormed h.supplies hs hwindow fun p hp => ?_
  have hwithin := h.wellFormed.within p hp
  have hlt := hwithin.offset_lt
  have hfits := h.fits
  unfold Schema.totalSize at hfits
  exact bitAt?_replicate_zero (by omega) hwithin.bit_lt

/-- Writes to disjoint windows of one buffer all succeed, with the same buffer at
the end whatever their order is, and each record is parsed from there as from the
buffer that its write leaves alone.  So records of one schema at consecutive
multiples of its size, written to zeros in any order, are parsed one by one. -/
theorem performAll?_commutes :
    (∀ (writes : List Write) (buffer : Bytes), (∀ w ∈ writes, w.Ready buffer.length) →
      writes.Pairwise Apart →
      ∃ after, (∀ order : List Write, order.Perm writes → performAll? order buffer = some after) ∧
        ∀ w ∈ writes, ∃ alone parsed, w.perform? buffer = some alone ∧
          w.schema.parse? alone w.offset = some (.ok parsed) ∧
          w.schema.parse? after w.offset = some (.ok parsed)) ∧
      ∀ (s : Schema) (fields : List Field) (packing : Packing),
        Schema.ofFields fields packing = .ok s →
        ∀ (records : List FieldMap) (first length : Nat),
          (∀ r ∈ records, r.Supplies s.layout) →
          (first + records.length) * s.totalSize ≤ length →
          ∃ after, (∀ order : List Write, order.Perm (array s first records) →
              performAll? order (List.replicate length 0) = some after) ∧
            ∀ i r, records[i]? = some r →
              s.parse? after ((first + i) * s.totalSize) =
                some (.ok (r.restrict s.layout.names)) := by
  constructor
  · intro writes buffer hready hapart
    obtain ⟨after, hafter, hlen, hcovered, _⟩ := exists_performAll? hready hapart
    refine ⟨after, fun order hperm => (performAll?_perm hperm hready hapart).trans hafter, ?_⟩
    intro w hw
    obtain ⟨alone, hperform, halone⟩ := (hready w hw).exists_perform?
    obtain ⟨window, _, hparse, hparse'⟩ :=
      (hready w hw).exists_parse? halone.length_eq hlen (hcovered w hw alone halone)
    exact ⟨alone, _, hperform, hparse, hparse'⟩
  · intro s fields packing h records first length hr hfit
    have hready : ∀ w ∈ array s first records,
        w.Ready (List.replicate length (0 : UInt8)).length := by
      intro w hw
      rw [List.length_replicate]
      exact ready_of_mem_array h hr hfit hw
    obtain ⟨after, hafter, hlen, hcovered, _⟩ := exists_performAll? hready pairwise_apart_array
    refine ⟨after, fun order hperm =>
      (performAll?_perm hperm hready pairwise_apart_array).trans hafter, ?_⟩
    intro i r hget
    have hw : (⟨s, r, (first + i) * s.totalSize⟩ : Write) ∈ array s first records :=
      mem_array_iff.mpr ⟨i, r, hget, rfl⟩
    obtain ⟨alone, _, halone⟩ := (hready _ hw).exists_perform?
    obtain ⟨window, hwindow, _, hparse⟩ :=
      (hready _ hw).exists_parse? halone.length_eq hlen (hcovered _ hw alone halone)
    rw [List.length_replicate] at hready
    have hrecord := (hready _ hw).recordIn_eq_restrict halone hwindow
    rw [hparse, hrecord]

/-- Two adjacent records, and a record of no bytes inside the first. -/
def adjacent : List Write :=
  [⟨signalSchema, signalRecord, 1⟩, ⟨⟨⟨.loose, 0, []⟩⟩, ∅, 3⟩, ⟨signalSchema, signalRecord, 8⟩]

theorem ready_of_mem_adjacent : ∀ w ∈ adjacent, w.Ready 15 := by
  simp only [adjacent, List.forall_mem_cons]
  refine ⟨?_, ?_, ?_, fun w hw => absurd hw List.not_mem_nil⟩
  · exact ⟨⟨_, _, Schema.ofFields_signal⟩, Schema.supplies_signalRecord, by decide⟩
  · exact ⟨⟨[], .loose, rfl⟩, fun p hp => absurd hp List.not_mem_nil, by decide⟩
  · exact ⟨⟨_, _, Schema.ofFields_signal⟩, Schema.supplies_signalRecord, by decide⟩

theorem pairwise_apart_adjacent : adjacent.Pairwise Apart := by
  simp only [adjacent, List.pairwise_cons, List.forall_mem_cons, Apart, Covers]
  simp only [Schema.totalSize, signalSchema]
  simp
  omega

/-- The writes may be made backwards, and two records that are written to zeros
from the last to the first are parsed one by one. -/
theorem performAll?_commutes_adjacent :
    (∀ w ∈ adjacent, w.Ready (List.replicate 15 (0xaa : UInt8)).length) ∧
      adjacent.Pairwise Apart ∧
      (∃ after, performAll? adjacent (List.replicate 15 0xaa) = some after ∧
        performAll? adjacent.reverse (List.replicate 15 0xaa) = some after) ∧
      ∃ after, performAll? (array signalSchema 0 [signalRecord, signalRecord]).reverse
          (List.replicate 14 0) = some after ∧
        signalSchema.parse? after 7 =
          some (.ok (signalRecord.restrict signalSchema.layout.names)) := by
  obtain ⟨hcommute, harray⟩ := performAll?_commutes
  obtain ⟨after, hafter, _⟩ := hcommute adjacent (List.replicate 15 0xaa) ready_of_mem_adjacent
    pairwise_apart_adjacent
  obtain ⟨after', hafter', hparse⟩ := harray signalSchema signal .dense Schema.ofFields_signal
    [signalRecord, signalRecord] 0 14 (by simp [Schema.supplies_signalRecord]) (by decide)
  exact ⟨ready_of_mem_adjacent, pairwise_apart_adjacent,
    ⟨after, hafter _ (List.Perm.refl _), hafter _ (List.reverse_perm _)⟩,
    after', hafter' _ (List.reverse_perm _), hparse 1 signalRecord rfl⟩

end Write

end FlatRecord
