import FlatRecord.Proofs.Refusal
import FlatRecord.Proofs.RoundTrip
import FlatRecord.Record.Codec
import FlatRecord.Words

/-!
# Accesses and bounds

A read or a write looks once whether the buffer has the window, and then trusts
the layout.  This module says that the trust is justified: each access stays
inside the window and names a bit that a byte has, so no access fails and every
operation has an answer.

There are three groups.

* `Access` is a use of the window.  `Transfer.store?_isSome_iff` and
  `load?_isSome_iff` say that a transfer succeeds exactly if its accesses stay
  inside, and `storeAll?_isSome_iff` and `loadAll?_isSome_iff` say the same of all
  fields together.
* A write has an answer whatever its caller hands out: the values that it goes on
  to store have passed the check of their types.
* The check of the window is exact.  It is the same for a read and a write, and
  the same whether offsets are numbers or words of 64 bits.
-/

namespace FlatRecord

open Bytes

/-! ## Accesses that succeed -/

/-- A use of a window: of one bit, or of consecutive bytes. -/
inductive Access where
  | bit (offset bit : Nat)
  | range (offset size : Nat)
deriving DecidableEq, Repr

/-- The access stays inside a window of `length` bytes, and a byte has the bit. -/
def Access.Inside (length : Nat) : Access → Prop
  | bit offset j => offset < length ∧ j < 8
  | range offset size => offset + size ≤ length

instance (length : Nat) (a : Access) : Decidable (a.Inside length) :=
  match a with
  | .bit offset j => inferInstanceAs (Decidable (offset < length ∧ j < 8))
  | .range offset size => inferInstanceAs (Decidable (offset + size ≤ length))

namespace Transfer

/-- The accesses of storing a value: none for a flag that is not set. -/
def storeAccesses (t : Transfer) (offset : Nat) (v : Value) : List Access :=
  match t, v with
  | flag bit, .bool true => [.bit offset bit]
  | flag _, _ => []
  | _, v => [.range offset v.scalar.size]

/-- The access of loading a value. -/
def loadAccess (t : Transfer) (offset : Nat) : Access :=
  match t with
  | flag bit => .bit offset bit
  | boolean => .range offset Scalar.bool.size
  | byte true => .range offset Scalar.i8.size
  | byte false => .range offset Scalar.u8.size
  | scalar s => .range offset s.size

variable {t : Transfer} {window result : Bytes} {offset : Nat} {v : Value}

/-- A store succeeds exactly if its accesses stay inside the window. -/
theorem store?_isSome_iff : (t.store? window offset v).isSome ↔
    ∀ a ∈ t.storeAccesses offset v, a.Inside window.length := by
  unfold store? storeAccesses
  split
  · simpa [Access.Inside] using withBit?_isSome_iff
  · simp
  · simpa [Access.Inside] using withValue?_isSome_iff

theorem load?_isSome_iff : (t.load? window offset).isSome ↔
    (t.loadAccess offset).Inside window.length := by
  cases t with
  | flag bit => simpa [load?, loadAccess, Access.Inside] using bitAt?_isSome_iff
  | byte signed => cases signed <;> exact valueAt?_isSome_iff
  | boolean => exact valueAt?_isSome_iff
  | scalar s => exact valueAt?_isSome_iff

theorem length_of_store? (h : t.store? window offset v = some result) :
    result.length = window.length := by
  unfold store? at h
  split at h
  · exact length_of_withBit? h
  · rw [Option.some.inj h]
  · exact length_of_splice?_eq_some h

end Transfer

namespace Layout

variable {l : Layout} {values : List Value} {window buffer : Bytes} {offset : Nat}

/-- The accesses of storing values, in order. -/
def storeAccesses (l : Layout) (values : List Value) : List Access :=
  (l.placements.zip values).flatMap fun (p, v) =>
    (Transfer.ofPlacement l.packing p).storeAccesses p.offset v

/-- The accesses of loading all values, in order. -/
def loadAccesses (l : Layout) : List Access :=
  l.placements.map fun p => (Transfer.ofPlacement l.packing p).loadAccess p.offset

/-- Values are stored exactly if all accesses stay inside the window, since no
store changes its length. -/
theorem storeAll?_isSome_iff : (l.storeAll? values window).isSome ↔
    ∀ a ∈ l.storeAccesses values, a.Inside window.length := by
  unfold storeAll? storeAccesses
  induction l.placements.zip values generalizing window with
  | nil => simp
  | cons f fields ih =>
    obtain ⟨p, v⟩ := f
    simp only [List.foldlM_cons, List.flatMap_cons, List.forall_mem_append,
      ← Transfer.store?_isSome_iff]
    cases hstore : (Transfer.ofPlacement l.packing p).store? window p.offset v with
    | none => simp
    | some next =>
      rw [← Transfer.length_of_store? hstore]
      simpa using ih

theorem loadAll?_isSome_iff : (l.loadAll? window).isSome ↔
    ∀ a ∈ l.loadAccesses, a.Inside window.length := by
  unfold loadAll? loadAccesses
  induction l.placements with
  | nil => simp
  | cons p ps ih =>
    simp only [List.mapM_cons, List.map_cons, List.forall_mem_cons, ← Transfer.load?_isSome_iff,
      ← ih]
    cases (Transfer.ofPlacement l.packing p).load? window p.offset with
    | none => simp
    | some v =>
      cases ps.mapM fun p => (Transfer.ofPlacement l.packing p).load? window p.offset <;> simp

/-- Storing values of the right types stays inside the window. -/
theorem WellFormed.inside_of_mem_storeAccesses (hl : l.WellFormed) (hv : l.Fits values)
    (hw : window.length = l.totalSize) {a : Access} (ha : a ∈ l.storeAccesses values) :
    a.Inside window.length := by
  obtain ⟨result, hresult, _⟩ := exists_storeAll? hl hv hw
  exact storeAll?_isSome_iff.mp (hresult ▸ rfl) a ha

/-- So does loading. -/
theorem WellFormed.inside_of_mem_loadAccesses (hl : l.WellFormed)
    (hw : window.length = l.totalSize) {a : Access} (ha : a ∈ l.loadAccesses) :
    a.Inside window.length := by
  have hload := loadAll?_eq hl hw
  exact loadAll?_isSome_iff.mp (hload ▸ rfl) a ha

/-! ## Answers in any monad -/

section Answers

variable {m : Type → Type} [Monad m] [LawfulMonad m]

/-- A value that passes the check has the type that is stored. -/
theorem exists_checked_eq_map (get : Placement → ExceptT WriteError m Value) (p : Placement) :
    ∃ x : ExceptT WriteError m { v : Value // v.scalar = p.backing },
      checked get p = Subtype.val <$> x := by
  refine ⟨do
    let v ← get p
    if h : v.scalar = p.backing then pure ⟨v, h⟩
    else throw (.wrongType p.name p.backing v.scalar), ?_⟩
  unfold checked
  rw [map_bind]
  congr 1
  funext v
  by_cases h : v.scalar = p.backing <;> simp [h]

theorem exists_mapM_checked_eq_map (get : Placement → ExceptT WriteError m Value)
    (ps : List Placement) :
    ∃ x : ExceptT WriteError m
        { values : List Value // values.map Value.scalar = ps.map Placement.backing },
      ps.mapM (checked get) = Subtype.val <$> x := by
  induction ps with
  | nil => exact ⟨pure ⟨[], rfl⟩, by simp⟩
  | cons p ps ih =>
    obtain ⟨x, hx⟩ := exists_checked_eq_map get p
    obtain ⟨y, hy⟩ := ih
    refine ⟨do
      let v ← x
      let values ← y
      pure ⟨v.val :: values.val, by simp [v.property, values.property]⟩, ?_⟩
    rw [List.mapM_cons, hx, hy]
    simp

/-- A write has an answer whatever its caller hands out, and whatever else the
caller does: the values that get past the check can be stored. -/
theorem exists_encodeM?_eq_map (hl : l.WellFormed)
    (get : Placement → ExceptT WriteError m Value) (buffer : Bytes) (offset : Nat) :
    ∃ answer : m (Written WriteError), l.encodeM? get buffer offset = some <$> answer := by
  obtain ⟨x, hx⟩ := exists_mapM_checked_eq_map get l.placements
  choose put hput using fun values : { values : List Value // l.Fits values } =>
    exists_answer_put? hl values.property buffer offset
  refine ⟨do
    match ← x.run with
    | .error e => pure ⟨.error e, buffer⟩
    | .ok values => pure (put values), ?_⟩
  unfold encodeM?
  rw [fetch_eq_mapM, hx, ExceptT.run_map, map_bind, bind_map_left]
  congr 1
  funext result
  cases result with
  | error e => simp [Except.map]
  | ok values => simp [Except.map, (hput values).1]

end Answers

section Write

variable (hl : l.WellFormed) (get : Placement → Except WriteError Value)
include hl

theorem exists_encode? (buffer : Bytes) (offset : Nat) :
    ∃ w, l.encode? get buffer offset = some w := by
  obtain ⟨answer, h⟩ := exists_encodeM?_eq_map (m := Id) hl (fun p => ExceptT.mk (pure (get p)))
    buffer offset
  exact ⟨answer.run, congrArg Id.run h⟩

/-- A write to a buffer of its own has an answer too. -/
theorem exists_encode?_zeros :
    ∃ result, ((l.encode? get (List.replicate l.totalSize 0) 0).map fun w =>
      w.result.map fun _ => w.buffer) = some result := by
  obtain ⟨w, hw⟩ := exists_encode? hl get (List.replicate l.totalSize 0) 0
  rw [hw]
  exact ⟨_, rfl⟩

end Write

/-- A read has an answer for every buffer. -/
theorem exists_decode? (hl : l.WellFormed) (buffer : Bytes) (offset : Nat) :
    ∃ result, l.decode? buffer offset = some result := by
  by_cases hfit : offset + l.totalSize ≤ buffer.length
  · obtain ⟨window, hwindow⟩ := exists_slice? hfit
    exact ⟨_, decode?_eq hl hwindow⟩
  · exact ⟨_, decode?_of_lt (Nat.lt_of_not_le hfit)⟩

/-- Whatever is made of the values. -/
theorem exists_decode?_map (hl : l.WellFormed) {β : Type} (f : List (Placement × Value) → β)
    (buffer : Bytes) (offset : Nat) :
    ∃ result, (l.decode? buffer offset).map (Except.map f) = some result := by
  obtain ⟨result, hresult⟩ := exists_decode? hl buffer offset
  rw [hresult]
  exact ⟨_, rfl⟩

section Read

variable {m : Type → Type} [Monad m] (set : Placement → Value → m Unit)

/-- A read that fails hands out nothing. -/
theorem decodeM?_of_lt (h : buffer.length < offset + l.totalSize) :
    l.decodeM? set buffer offset =
      pure (some (.error (.tooShort l.totalSize (buffer.length - offset)))) := by
  unfold decodeM?
  rw [decode?_of_lt h]

theorem exists_decodeM?_eq_map [LawfulMonad m] (hl : l.WellFormed) (buffer : Bytes)
    (offset : Nat) :
    ∃ answer : m (Except ReadError Unit), l.decodeM? set buffer offset = some <$> answer := by
  obtain ⟨result, hresult⟩ := exists_decode? hl buffer offset
  unfold decodeM?
  rw [hresult]
  cases result with
  | error e => exact ⟨pure (.error e), by simp⟩
  | ok fields =>
    exact ⟨do fields.forM fun (p, v) => set p v; pure (.ok ()), by simp⟩

end Read

/-- No access of a write or a read leaves the window or names a bit that a byte
does not have, so every operation has an answer: for any buffer and offset, and
any caller. -/
theorem accesses_inside {fields : List Field} {packing : Packing} {l : Layout}
    (h : arrange fields packing = .ok l) (buffer : Bytes) (offset : Nat) :
    (∀ window, buffer.slice? offset l.totalSize = some window →
      (∀ {σ : Type} (get : Placement → ExceptT WriteError (StateM σ) Value) s values s',
        Fetched get l.placements s values s' →
          ∀ a ∈ l.storeAccesses values, a.Inside window.length) ∧
      ∀ a ∈ l.loadAccesses, a.Inside window.length) ∧
    (∀ {m : Type → Type} [Monad m] [LawfulMonad m],
      (∀ get : Placement → ExceptT WriteError m Value, ∃ answer : m (Written WriteError),
        l.encodeM? get buffer offset = some <$> answer) ∧
      ∀ set : Placement → Value → m Unit, ∃ answer : m (Except ReadError Unit),
        l.decodeM? set buffer offset = some <$> answer) ∧
    (∀ r, (∃ w, Schema.write? ⟨l⟩ r buffer offset = some w) ∧
      ∃ result, Schema.encode? ⟨l⟩ r = some result) ∧
    (∃ result, Schema.parse? ⟨l⟩ buffer offset = some result) ∧
    ∀ (α : Type) [FixedRecord α],
      (∀ r : α, (∃ w, (⟨l⟩ : RecordCodec α).write? r buffer offset = some w) ∧
        ∃ result, (⟨l⟩ : RecordCodec α).toBytes? r = some result) ∧
      ∃ result, (⟨l⟩ : RecordCodec α).ofBytes? buffer offset = some result := by
  have hl := wellFormed_of_arrange h
  refine ⟨?_, ?_, ?_, ?_, ?_⟩
  · intro window hwindow
    have hw : window.length = l.totalSize := length_of_slice? hwindow
    constructor
    · intro σ get s values s' hfetched a ha
      exact hl.inside_of_mem_storeAccesses hfetched.map_scalar hw ha
    · intro a ha
      exact hl.inside_of_mem_loadAccesses hw ha
  · intro m _ _
    exact ⟨fun get => exists_encodeM?_eq_map hl get buffer offset,
      fun set => exists_decodeM?_eq_map set hl buffer offset⟩
  · intro r
    exact ⟨exists_encode? hl r.fetch buffer offset, exists_encode?_zeros hl r.fetch⟩
  · exact exists_decode?_map hl FieldMap.ofFields buffer offset
  · intro α _
    exact ⟨fun r => ⟨exists_encode? hl (RecordCodec.fetch r) buffer offset,
      exists_encode?_zeros hl (RecordCodec.fetch r)⟩,
      exists_decode?_map hl RecordCodec.ofFields buffer offset⟩

/-- The ninth flag is the lowest bit of the last of four bytes, and there is an
answer at an offset far behind the buffer. -/
theorem accesses_inside_nineFlags :
    arrange nineFlags .dense = .ok nineFlagsLayout ∧
      (∃ values, Fetched alternating nineFlagsLayout.placements 0 values 10 ∧
        ∀ a ∈ nineFlagsLayout.storeAccesses values, a.Inside 4) ∧
      Access.bit 3 0 ∈ nineFlagsLayout.loadAccesses ∧ (Access.bit 3 0).Inside 4 ∧
      ∃ result, Schema.parse? ⟨nineFlagsLayout⟩ [] (2 ^ 64 - 1) = some result := by
  obtain ⟨hinside, _⟩ := accesses_inside arrange_nineFlags (List.replicate 6 0xaa) 1
  obtain ⟨_, _, _, hparse, _⟩ := accesses_inside arrange_nineFlags [] (2 ^ 64 - 1)
  obtain ⟨hstore, hload⟩ := hinside (List.replicate 4 0xaa) (by decide)
  have hlast : Access.bit 3 0 ∈ nineFlagsLayout.loadAccesses := by decide
  obtain ⟨values, hfetched⟩ : ∃ values,
      Fetched alternating nineFlagsLayout.placements 0 values 10 :=
    ⟨_, mapM_checked_run_eq_ok_iff.mp rfl⟩
  exact ⟨arrange_nineFlags, ⟨values, hfetched, hstore alternating 0 values 10 hfetched⟩, hlast,
    hload _ hlast, hparse⟩

end Layout

/-! ## Offsets as words -/

namespace Bytes

variable {length offset size last : UInt64}

/-- The end is the sum of the numbers, and there is none if that is no word. -/
theorem wordEnd?_eq_some_iff :
    wordEnd? offset size = some last ↔ last.toNat = offset.toNat + size.toNat := by
  have hoffset := offset.toNat_lt
  have hsize := size.toNat_lt
  have hlast := last.toNat_lt
  have hsum := UInt64.toNat_add offset size
  simp only [wordEnd?, UInt64.lt_iff_toNat_lt, hsum]
  split
  · simp only [reduceCtorEq, false_iff]
    omega
  · rw [Option.some.injEq, ← UInt64.toNat_inj, hsum]
    omega

/-- In words, a range is refused exactly if it does not end inside. -/
theorem wordRange?_isSome_iff :
    (wordRange? length offset size).isSome ↔ offset.toNat + size.toNat ≤ length.toNat := by
  rw [wordRange?, Option.isSome_map, Option.isSome_iff_exists]
  simp only [Option.filter_eq_some_iff, wordEnd?_eq_some_iff, decide_eq_true_eq,
    UInt64.le_iff_toNat_le]
  constructor
  · rintro ⟨last, hlast, hle⟩
    omega
  · intro hle
    have hlt : offset.toNat + size.toNat < 2 ^ 64 := Nat.lt_of_le_of_lt hle length.toNat_lt
    have hlast := UInt64.toNat_ofNat_of_lt' hlt
    exact ⟨_, hlast, by omega⟩

theorem toNat_wordRemaining :
    (wordRemaining length offset).toNat = length.toNat - offset.toNat := by
  unfold wordRemaining
  split
  · next hle => exact UInt64.toNat_sub_of_le _ _ hle
  · next hlt =>
    rw [UInt64.le_iff_toNat_le] at hlt
    show 0 = length.toNat - offset.toNat
    omega

end Bytes

/-! ## The check of the window -/

namespace Schema

variable {s : Schema} {r : FieldMap} {buffer : Bytes} {offset : Nat}

/-- A read without the window fails. -/
theorem parse?_of_lt (h : buffer.length < offset + s.totalSize) :
    s.parse? buffer offset =
      some (.error (.tooShort s.totalSize (buffer.length - offset))) := by
  unfold parse?
  rw [Layout.decode?_of_lt h]
  rfl

theorem exists_parse?_iff (hl : s.layout.WellFormed) :
    (∃ r, s.parse? buffer offset = some (.ok r)) ↔ offset + s.totalSize ≤ buffer.length := by
  constructor
  · rintro ⟨r, hr⟩
    by_contra hlt
    rw [parse?_of_lt (Nat.lt_of_not_le hlt)] at hr
    exact nomatch hr
  · intro hfit
    obtain ⟨window, hwindow⟩ := exists_slice? hfit
    exact ⟨_, parse?_eq hl hwindow⟩

/-- A write without the window fails and changes nothing. -/
theorem write?_of_lt (hr : r.Supplies s.layout) (h : buffer.length < offset + s.totalSize) :
    s.write? r buffer offset =
      some ⟨.error (.tooShort s.totalSize (buffer.length - offset)), buffer⟩ :=
  (write?_eq_put? hr buffer offset).trans (Layout.put?_of_lt h _)

theorem exists_write?_iff (hl : s.layout.WellFormed) (hr : r.Supplies s.layout) :
    (∃ after, s.write? r buffer offset = some ⟨.ok (), after⟩) ↔
      offset + s.totalSize ≤ buffer.length := by
  constructor
  · rintro ⟨after, hafter⟩
    by_contra hlt
    rw [write?_of_lt hr (Nat.lt_of_not_le hlt)] at hafter
    exact nomatch hafter
  · intro hfit
    obtain ⟨after, hwrite, _⟩ := exists_write? hl hr hfit
    exact ⟨after, hwrite⟩

/-- A read and a write of a record succeed exactly if the buffer has the window.
Otherwise both fail with the bytes that they need and those that there are, the
read hands out nothing and the write changes nothing.  Words of 64 bits decide the
same as numbers, at every offset. -/
theorem succeeds_iff_window {fields : List Field} {packing : Packing}
    (h : ofFields fields packing = .ok s) (buffer : Bytes) (offset : Nat) :
    ((∃ r, s.parse? buffer offset = some (.ok r)) ↔ offset + s.totalSize ≤ buffer.length) ∧
      (∀ r : FieldMap, r.Supplies s.layout →
        ((∃ after, s.write? r buffer offset = some ⟨.ok (), after⟩) ↔
          offset + s.totalSize ≤ buffer.length)) ∧
      (buffer.length < offset + s.totalSize →
        s.parse? buffer offset =
            some (.error (.tooShort s.totalSize (buffer.length - offset))) ∧
          (∀ {m : Type → Type} [Monad m] (set : Placement → Value → m Unit),
            s.layout.decodeM? set buffer offset =
              pure (some (.error (.tooShort s.totalSize (buffer.length - offset))))) ∧
          ∀ r : FieldMap, r.Supplies s.layout →
            s.write? r buffer offset =
              some ⟨.error (.tooShort s.totalSize (buffer.length - offset)), buffer⟩) ∧
      ∀ length k size : UInt64, length.toNat = buffer.length → k.toNat = offset →
        size.toNat = s.totalSize →
        ((wordRange? length k size).isSome ↔ offset + s.totalSize ≤ buffer.length) ∧
          (wordRemaining length k).toNat = buffer.length - offset := by
  have hl := Layout.wellFormed_of_arrange (arrange_of_ofFields h)
  refine ⟨exists_parse?_iff hl, fun r hr => exists_write?_iff hl hr, ?_, ?_⟩
  · intro hlt
    exact ⟨parse?_of_lt hlt, fun set => Layout.decodeM?_of_lt set hlt,
      fun r hr => write?_of_lt hr hlt⟩
  · intro length k size hlength hk hsize
    rw [← hlength, ← hk, ← hsize]
    exact ⟨wordRange?_isSome_iff, toNat_wordRemaining⟩

/-- The last word is no offset of a record of seven bytes in a buffer of eight,
though the sum of the words is six. -/
theorem succeeds_iff_window_signal :
    ofFields signal .dense = .ok signalSchema ∧ signalRecord.Supplies signalSchema.layout ∧
      (∃ r, signalSchema.parse? (List.replicate 8 0) 1 = some (.ok r)) ∧
      signalSchema.write? signalRecord (List.replicate 8 0) (2 ^ 64 - 1) =
        some ⟨.error (.tooShort 7 0), List.replicate 8 0⟩ ∧
      (0xffffffffffffffff : UInt64) + 7 = 6 ∧
      ¬ (wordRange? 8 0xffffffffffffffff 7).isSome := by
  obtain ⟨hparse, _⟩ := succeeds_iff_window ofFields_signal (List.replicate 8 0) 1
  obtain ⟨_, _, hfail, hwords⟩ :=
    succeeds_iff_window ofFields_signal (List.replicate 8 0) (2 ^ 64 - 1)
  obtain ⟨_, _, hwrite⟩ := hfail (by decide)
  refine ⟨ofFields_signal, supplies_signalRecord, hparse.mpr (by decide), ?_, by decide, ?_⟩
  · rw [hwrite signalRecord supplies_signalRecord]
    rfl
  · rw [(hwords 8 0xffffffffffffffff 7 (by decide) (by decide) (by decide)).1]
    decide

end Schema

end FlatRecord
