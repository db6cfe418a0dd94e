import FlatRecord.Proofs.RoundTrip

/-!
# Runs of writes to one window

Records are written to the same window one after the other, and some of the
writes fail.  This module says what the buffer holds in the end: each field the
value that was written last, but each flag everything that was ever added to it.

* `write?_of_not_supplies` is the counterpart of `exists_write?`: a record that
  does not supply the fields changes nothing.  So `Schema.Run.next` has two cases,
  and `exists_next` is what one step keeps.
* `Layout.StoredRun` is the relation between the buffers around a run.  It is
  built from the last write backwards, so that the write that counts is on top.
* `StoredRun.read_of_isFlag` is the induction for the flags.  All other fields
  need no induction: they are read from the last write.
-/

namespace FlatRecord

open Bytes

/-! ## Records that cannot be written -/

namespace FieldMap

instance (r : FieldMap) (l : Layout) : Decidable (r.Supplies l) :=
  decidable_of_iff (∀ p ∈ l.placements, r[p.name]?.any fun v => v.scalar = p.backing) <| by
    simp only [Supplies, Option.any_eq_true, decide_eq_true_eq]

/-- The values of a record as a write asks for them. -/
def handOut (r : FieldMap) (p : Placement) : ExceptT WriteError Id Value :=
  ExceptT.mk (pure (r.fetch p))

variable {r : FieldMap} {p : Placement}

theorem handOut_eq_pure {v : Value} (h : r[p.name]? = some v) : r.handOut p = pure v := by
  simp only [handOut, fetch, h]
  rfl

/-- A field with no value, or with a value of another type, is refused. -/
theorem exists_checked_eq_throw (h : ¬ ∃ v, r[p.name]? = some v ∧ v.scalar = p.backing) :
    ∃ e, Layout.checked r.handOut p = throw e := by
  cases hget : r[p.name]? with
  | none =>
    have hfetch : r.handOut p = throw (.noValue p.name) := by
      simp only [handOut, fetch, hget]
      rfl
    refine ⟨.noValue p.name, ?_⟩
    rw [Layout.checked, hfetch]
    rfl
  | some v =>
    have htype : v.scalar ≠ p.backing := fun htype => h ⟨v, hget, htype⟩
    refine ⟨.wrongType p.name p.backing v.scalar, ?_⟩
    rw [Layout.checked, handOut_eq_pure hget, pure_bind, if_neg htype]

/-- Fetching stops at such a field, wherever it comes. -/
theorem exists_mapM_checked_eq_throw {ps : List Placement}
    (h : ¬ ∀ p ∈ ps, ∃ v, r[p.name]? = some v ∧ v.scalar = p.backing) :
    ∃ e, ps.mapM (Layout.checked r.handOut) = throw e := by
  induction ps with
  | nil => exact absurd (fun p hp => absurd hp List.not_mem_nil) h
  | cons p ps ih =>
    rw [List.mapM_cons]
    by_cases hp : ∃ v, r[p.name]? = some v ∧ v.scalar = p.backing
    · obtain ⟨e, he⟩ := ih fun hps => h (List.forall_mem_cons.mpr ⟨hp, hps⟩)
      obtain ⟨v, hget, htype⟩ := hp
      refine ⟨e, ?_⟩
      rw [Layout.checked_eq_pure (handOut_eq_pure hget) htype, pure_bind, he]
      rfl
    · obtain ⟨e, he⟩ := exists_checked_eq_throw hp
      exact ⟨e, by rw [he]; rfl⟩

end FieldMap

namespace Schema

variable {s : Schema} {r : FieldMap} {offset : Nat}

/-- A record that does not supply the fields is refused, and changes nothing. -/
theorem write?_of_not_supplies (hr : ¬ r.Supplies s.layout) (buffer : Bytes) (offset : Nat) :
    ∃ e, s.write? r buffer offset = some ⟨.error e, buffer⟩ := by
  obtain ⟨e, he⟩ := FieldMap.exists_mapM_checked_eq_throw hr
  have hfetch : s.layout.fetch r.handOut = throw e := he
  refine ⟨e, ?_⟩
  show Id.run (s.layout.encodeM? r.handOut buffer offset) = _
  unfold Layout.encodeM?
  rw [hfetch]
  rfl

end Schema

/-! ## What a run of writes leaves -/

namespace Layout

/-- The buffers before and after a run of writes of these records, the last one
at the end of the list. -/
inductive StoredRun (l : Layout) (offset : Nat) (before : Bytes) : List FieldMap → Bytes → Prop
  where
  | start : StoredRun l offset before [] before
  | next {written : List FieldMap} {middle after : Bytes} {r : FieldMap}
      (hwritten : StoredRun l offset before written middle) (hr : r.Supplies l)
      (hlast : l.Stored (l.placements.map r.value) offset middle after) :
      StoredRun l offset before (written ++ [r]) after

variable {l : Layout} {offset : Nat} {before after window : Bytes} {written : List FieldMap}
  {p : Placement}

namespace StoredRun

theorem length_eq (h : l.StoredRun offset before written after) :
    after.length = before.length := by
  induction h with
  | start => rfl
  | next _ _ hlast ih => exact hlast.length_eq.trans ih

/-- No write changes a bit outside the window. -/
theorem bitAt?_of_outside (h : l.StoredRun offset before written after) (hl : l.WellFormed)
    {i : Nat} (hi : i < offset ∨ offset + l.totalSize ≤ i) (j : Nat) :
    after.bitAt? i j = before.bitAt? i j := by
  induction h with
  | start => rfl
  | next _ _ hlast ih => rw [hlast.bitAt?_of_outside hl hi, ih]

/-- No write changes a spare bit. -/
theorem bitAt?_of_unowned (h : l.StoredRun offset before written after) {i j : Nat}
    (hnone : ∀ p ∈ l.placements, ¬ p.Owns l.packing i j) :
    after.bitAt? (offset + i) j = before.bitAt? (offset + i) j := by
  induction h with
  | start => rfl
  | next _ _ hlast ih => rw [hlast.unowned i j hnone, ih]

/-- The bit of a flag collects the values of all writes. -/
theorem bitAt?_of_isFlag (h : l.StoredRun offset before written after) (hl : l.WellFormed)
    (hfit : offset + l.totalSize ≤ before.length) (hp : p ∈ l.placements)
    (hf : p.IsFlag l.packing) :
    ∃ old, before.bitAt? (offset + p.offset) p.bit = some old ∧
      after.bitAt? (offset + p.offset) p.bit =
        some (old || written.any fun r => r[p.name]? == some (.bool true)) := by
  induction h with
  | start =>
    have hlt := (hl.within p hp).offset_lt
    obtain ⟨old, hold⟩ := Option.isSome_iff_exists.mp
      (bitAt?_isSome_iff.mpr (⟨by omega, (hl.within p hp).bit_lt⟩ :
        offset + p.offset < before.length ∧ p.bit < 8))
    exact ⟨old, hold, by rw [List.any_nil, Bool.or_false, hold]⟩
  | @next written middle after r hwritten hr hlast ih =>
    obtain ⟨old, hold, hmiddle⟩ := ih
    obtain ⟨old', b, hb, hold', hafter⟩ := hlast.bitAt?_eq hl hr.fits
      (hwritten.length_eq ▸ hfit) (mem_zip_map (f := r.value) hp) hf
    obtain rfl := Option.some.inj (hmiddle.symm.trans hold')
    have hvalue : (r[p.name]? == some (.bool true)) = b := by
      rw [hr.getElem?_eq hp, hb]
      cases b <;> rfl
    refine ⟨old, hold, ?_⟩
    rw [hafter, List.any_append, List.any_cons, List.any_nil, Bool.or_false, hvalue, Bool.or_assoc]

theorem read_of_isFlag (h : l.StoredRun offset before written after) (hl : l.WellFormed)
    (hfit : offset + l.totalSize ≤ before.length)
    (hwindow : after.slice? offset l.totalSize = some window) (hp : p ∈ l.placements)
    (hf : p.IsFlag l.packing) :
    ∃ old, before.bitAt? (offset + p.offset) p.bit = some old ∧
      p.read l.packing window =
        .bool (old || written.any fun r => r[p.name]? == some (.bool true)) := by
  obtain ⟨old, hold, hnew⟩ := h.bitAt?_of_isFlag hl hfit hp hf
  have hown : p.Owns l.packing p.offset p.bit := (Placement.owns_of_isFlag hf).mpr ⟨rfl, rfl⟩
  have hin := (hl.lt_of_owns hp hown).1
  refine ⟨old, hold, Placement.read_of_isFlag hf ?_⟩
  rw [bitAt?_of_slice? hwindow hin, hnew]

/-- A field that is no flag is read as the last record has it, or as it was before
if there was no write. -/
theorem read_of_not_isFlag (h : l.StoredRun offset before written after) (hl : l.WellFormed)
    {old : Bytes} (hold : before.slice? offset l.totalSize = some old)
    (hwindow : after.slice? offset l.totalSize = some window) (hp : p ∈ l.placements)
    (hf : ¬ p.IsFlag l.packing) :
    some (p.read l.packing window) =
      match written.getLast? with
      | some r => r[p.name]?
      | none => some (p.read l.packing old) := by
  cases h with
  | start =>
    obtain rfl := Option.some.inj (hold.symm.trans hwindow)
    rfl
  | @next written middle _ r hwritten hr hlast =>
    rw [List.getLast?_concat]
    show _ = r[p.name]?
    rw [hr.getElem?_eq hp, hlast.read_eq hl hr.fits hwindow (mem_zip_map (f := r.value) hp) hf]

end StoredRun

/-- A write that is repeated at once finds its own bits. -/
theorem Stored.eq_of_stored {values : List Value} {before middle after : Bytes}
    (hfirst : l.Stored values offset before middle) (hagain : l.Stored values offset middle after)
    (hv : l.Fits values) : after = middle := by
  apply ext_bitAt?
  intro i j hj
  by_cases hi : i < offset
  · exact hagain.below i j hi
  · obtain ⟨k, rfl⟩ := Nat.exists_eq_add_of_le (Nat.le_of_not_lt hi)
    by_cases hnone : ∀ p ∈ l.placements, ¬ p.Owns l.packing k j
    · exact hagain.unowned k j hnone
    · obtain ⟨p, hp, hown⟩ : ∃ p ∈ l.placements, p.Owns l.packing k j := by simpa using hnone
      obtain ⟨v, hpv⟩ := hv.exists_mem_zip hp
      rw [hagain.owned p v hpv k j hown, hfirst.owned p v hpv k j hown]
      by_cases hf : p.IsFlag l.packing
      · simp only [Placement.storedBit_of_isFlag hf, Option.map_map]
        congr 1
        funext b
        simp
      · simp only [Placement.storedBit_of_not_isFlag hf]

end Layout

/-! ## Runs -/

namespace Schema

/-- Where a run of writes stands: the records whose write succeeded, in order, and
the buffer. -/
structure Run where
  written : List FieldMap
  buffer : Bytes

/-- The run after the write of another record, which may fail. -/
def Run.next (s : Schema) (offset : Nat) (run : Run) (r : FieldMap) : Option Run :=
  (s.write? r run.buffer offset).map fun w =>
    match w.result with
    | .ok () => ⟨run.written ++ [r], w.buffer⟩
    | .error _ => ⟨run.written, w.buffer⟩

/-- The run of writes of these records to the window at `offset`. -/
def writeAll? (s : Schema) (records : List FieldMap) (buffer : Bytes) (offset : Nat) :
    Option Run :=
  records.foldlM (Run.next s offset) ⟨[], buffer⟩

variable {s : Schema} {buffer : Bytes} {offset : Nat} {run : Run}

/-- A write of a run takes part in it if the record supplies the fields, and
changes nothing otherwise. -/
theorem exists_next (hl : s.layout.WellFormed) (hfit : offset + s.totalSize ≤ buffer.length)
    (hrun : s.layout.StoredRun offset buffer run.written run.buffer) (r : FieldMap) :
    ∃ next, Run.next s offset run r = some next ∧
      next.written = run.written ++ [r].filter (fun r => r.Supplies s.layout) ∧
      s.layout.StoredRun offset buffer next.written next.buffer := by
  by_cases hr : r.Supplies s.layout
  · obtain ⟨after, hwrite, hstored⟩ := exists_write? hl hr (hrun.length_eq ▸ hfit)
    refine ⟨⟨run.written ++ [r], after⟩, ?_, ?_, .next hrun hr hstored⟩
    · rw [Run.next, hwrite]
      rfl
    · simp [hr]
  · obtain ⟨e, hwrite⟩ := write?_of_not_supplies hr run.buffer offset
    refine ⟨run, ?_, ?_, hrun⟩
    · rw [Run.next, hwrite]
      rfl
    · simp [hr]

/-- Whatever the records are, a run goes on to its end. -/
theorem exists_foldlM_next (hl : s.layout.WellFormed)
    (hfit : offset + s.totalSize ≤ buffer.length)
    (hrun : s.layout.StoredRun offset buffer run.written run.buffer) (records : List FieldMap) :
    ∃ last, records.foldlM (Run.next s offset) run = some last ∧
      last.written = run.written ++ records.filter (fun r => r.Supplies s.layout) ∧
      s.layout.StoredRun offset buffer last.written last.buffer := by
  induction records generalizing run with
  | nil => exact ⟨run, rfl, (List.append_nil _).symm, hrun⟩
  | cons r records ih =>
    obtain ⟨next, hnext, hwritten, hstored⟩ := exists_next hl hfit hrun r
    obtain ⟨last, hlast, hwritten', hstored'⟩ := ih hstored
    refine ⟨last, ?_, ?_, hstored'⟩
    · rw [List.foldlM_cons, hnext]
      exact hlast
    · rw [hwritten', hwritten, List.append_assoc, ← List.filter_append, List.singleton_append]

/-- A run of writes to one window, of which some may fail, has an end.  There a
parse finds for each field that is no flag the value that was written last, or the
one of the start, and for each flag whether it was ever set.  The bits outside the
window and the spare ones are those of the start, and the last write that
succeeded changes nothing when it is repeated.  The writes that succeed are those
of records that supply the fields. -/
theorem writeAll?_accumulates {fields : List Field} {packing : Packing}
    (h : ofFields fields packing = .ok s) (hfit : offset + s.totalSize ≤ buffer.length)
    (records : List FieldMap) :
    ∃ run parsed original, s.writeAll? records buffer offset = some run ∧
      run.written = records.filter (fun r => r.Supplies s.layout) ∧
      s.parse? buffer offset = some (.ok original) ∧
      s.parse? run.buffer offset = some (.ok parsed) ∧
      (∀ name, name ∈ parsed ↔ ∃ p ∈ s.layout.placements, p.name = name) ∧
      (∀ p ∈ s.layout.placements, ¬ p.IsFlag packing →
        parsed[p.name]? =
          match run.written.getLast? with
          | some r => r[p.name]?
          | none => original[p.name]?) ∧
      (∀ p ∈ s.layout.placements, p.IsFlag packing → ∃ old,
        buffer.bitAt? (offset + p.offset) p.bit = some old ∧
          parsed[p.name]? =
            some (.bool (old || run.written.any fun r => r[p.name]? == some (.bool true)))) ∧
      run.buffer.length = buffer.length ∧
      (∀ i j, i < offset ∨ offset + s.totalSize ≤ i →
        run.buffer.bitAt? i j = buffer.bitAt? i j) ∧
      (∀ i j, i < s.totalSize → (∀ p ∈ s.layout.placements, ¬ p.Owns packing i j) →
        run.buffer.bitAt? (offset + i) j = buffer.bitAt? (offset + i) j) ∧
      ∀ r, run.written.getLast? = some r →
        s.write? r run.buffer offset = some ⟨.ok (), run.buffer⟩ := by
  have harrange := arrange_of_ofFields h
  have hl := Layout.wellFormed_of_arrange harrange
  obtain rfl := Layout.packing_of_arrange harrange
  have hstart : s.layout.StoredRun offset buffer (Run.mk [] buffer).written
      (Run.mk [] buffer).buffer :=
    .start
  obtain ⟨run, hrun, hwritten, hstored⟩ := exists_foldlM_next hl hfit hstart records
  obtain ⟨old, hold⟩ : ∃ old, buffer.slice? offset s.totalSize = some old := exists_slice? hfit
  obtain ⟨window, hwindow⟩ : ∃ window, run.buffer.slice? offset s.totalSize = some window :=
    exists_slice? (hstored.length_eq ▸ hfit)
  refine ⟨run, s.layout.recordIn window, s.layout.recordIn old, hrun, hwritten, parse?_eq hl hold,
    parse?_eq hl hwindow, ?_, ?_, ?_, hstored.length_eq, ?_, ?_, ?_⟩
  · intro name
    rw [Layout.mem_recordIn_iff hl, Layout.mem_names_iff]
  · intro p hp hf
    rw [Layout.getElem?_recordIn hl hp, Layout.getElem?_recordIn hl hp]
    exact hstored.read_of_not_isFlag hl hold hwindow hp hf
  · intro p hp hf
    obtain ⟨b, hb, hread⟩ := hstored.read_of_isFlag hl hfit hwindow hp hf
    exact ⟨b, hb, by rw [Layout.getElem?_recordIn hl hp, hread]⟩
  · exact fun i j hi => hstored.bitAt?_of_outside hl hi j
  · exact fun i j _ hnone => hstored.bitAt?_of_unowned hnone
  · intro r hr
    have hfit' : offset + s.totalSize ≤ run.buffer.length := hstored.length_eq ▸ hfit
    generalize run.written = written, run.buffer = last at hstored hr hfit'
    cases hstored with
    | start => exact nomatch hr
    | next hwritten hsupplies hlast =>
      rw [List.getLast?_concat] at hr
      obtain rfl := Option.some.inj hr
      obtain ⟨after, hwrite, hagain⟩ := exists_write? hl hsupplies hfit'
      rw [hwrite, hlast.eq_of_stored hagain hsupplies.fits]

/-- The record of the signal when its level is 0 and its first flag is not set. -/
def quietRecord : FieldMap :=
  (signalRecord.insert "level" (.f32 0)).insert "armed" (.bool false)

theorem supplies_quietRecord : quietRecord.Supplies signalSchema.layout := by
  simp [FieldMap.Supplies, signalSchema, quietRecord, signalRecord, Std.ExtTreeMap.getElem?_insert,
    Value.scalar]

/-- The write in the middle fails.  The level is that of the last write, and the
flag of the first write stays. -/
theorem writeAll?_accumulates_signal :
    ofFields signal .dense = .ok signalSchema ∧
      1 + signalSchema.totalSize ≤ (List.replicate 9 (0 : UInt8)).length ∧
      ∃ run parsed,
        signalSchema.writeAll? [signalRecord, ∅, quietRecord] (List.replicate 9 0) 1 = some run ∧
          run.written = [signalRecord, quietRecord] ∧
          signalSchema.parse? run.buffer 1 = some (.ok parsed) ∧
          parsed["level"]? = some (.f32 0) ∧ parsed["armed"]? = some (.bool true) := by
  have hfit : 1 + signalSchema.totalSize ≤ (List.replicate 9 (0 : UInt8)).length := by decide
  obtain ⟨run, parsed, _, hrun, hwritten, _, hparse, _, hkept, hadded, _⟩ :=
    writeAll?_accumulates ofFields_signal hfit [signalRecord, ∅, quietRecord]
  have hnone : ¬ FieldMap.Supplies ∅ signalSchema.layout := by
    intro h
    obtain ⟨v, hv, _⟩ := h ⟨"level", 1, 0, 0, .f32, 4⟩ (by decide)
    simp at hv
  have htwo : run.written = [signalRecord, quietRecord] := by
    simp [hwritten, supplies_signalRecord, supplies_quietRecord, hnone]
  refine ⟨ofFields_signal, hfit, run, parsed, hrun, htwo, hparse, ?_, ?_⟩
  · rw [hkept ⟨"level", 1, 0, 0, .f32, 4⟩ (by decide) (by decide), htwo]
    simp [quietRecord, Std.ExtTreeMap.getElem_insert]
  · obtain ⟨old, _, harmed⟩ := hadded ⟨"armed", 3, 6, 0, .bool, 1⟩ (by decide) (by decide)
    rw [harmed, htwo]
    simp [signalRecord, Std.ExtTreeMap.getElem_insert]

end Schema

end FlatRecord
