import FlatRecord.Proofs.Bounds

/-!
# One scalar in a buffer

The laws of writing and reading a single scalar at an offset, whatever else the
buffer holds.

* The first group is about ranges: what a splice shows, what it leaves, what a second
  splice makes of it, and how it is done one byte at a time (`splice?_cons`).
* `Bytes.Wrote` collects what a write that fits does.  `wrote_of_withValue?` says that
  every such write does it, and `withValue?_of_valueAt?` is the other direction, from
  a value that was read to the bytes that it came from.
* The last group follows a program that computes in words of 64 bits and changes the
  buffer in place.  `Overflow.range?_eq` says that it takes the same ranges, whether its
  sums wrap around or stop it, and `run_copyFrom` is the induction over the bytes that
  it copies.  `run_write` and `read?_eq` put both together.
-/

namespace FlatRecord

namespace Bytes

variable {bytes result data : Bytes} {offset i n : Nat}

/-! ## Ranges -/

theorem slice?_eq_some_iff_getElem? :
    bytes.slice? offset n = some data ↔ offset + n ≤ bytes.length ∧
      ∀ k, data[k]? = if k < n then bytes[offset + k]? else none := by
  constructor
  · intro h
    exact ⟨le_of_slice? h, getElem?_of_slice? h⟩
  · intro h
    obtain ⟨window, hwindow⟩ := exists_slice? h.1
    rw [hwindow]
    apply congrArg some
    apply List.ext_getElem?
    intro k
    rw [h.2, getElem?_of_slice? hwindow]

theorem splice?_eq_some_iff_getElem? :
    bytes.splice? offset data = some result ↔ offset + data.length ≤ bytes.length ∧
      ∀ k, result[k]? =
        if offset ≤ k ∧ k < offset + data.length then data[k - offset]? else bytes[k]? := by
  constructor
  · intro h
    refine ⟨?_, getElem?_of_splice? h⟩
    unfold splice? at h
    split at h
    · assumption
    · cases h
  · intro h
    obtain ⟨spliced, hspliced⟩ := exists_splice? h.1
    rw [hspliced]
    apply congrArg some
    apply List.ext_getElem?
    intro k
    rw [h.2, getElem?_of_splice? hspliced]

/-- The range of a splice holds the new data. -/
theorem slice?_of_splice? (h : bytes.splice? offset data = some result) :
    result.slice? offset data.length = some data := by
  obtain ⟨hle, hget⟩ := splice?_eq_some_iff_getElem?.mp h
  rw [slice?_eq_some_iff_getElem?, length_of_splice?_eq_some h]
  refine ⟨hle, ?_⟩
  intro k
  rw [hget]
  by_cases hk : k < data.length
  · rw [if_pos hk, if_pos (by omega), Nat.add_sub_cancel_left]
  · rw [if_neg hk, List.getElem?_eq_none (Nat.not_lt.mp hk)]

/-- A range apart from a splice is what it was, also if it is not there. -/
theorem slice?_of_splice?_of_apart (h : bytes.splice? offset data = some result)
    (hapart : i + n ≤ offset ∨ offset + data.length ≤ i) :
    result.slice? i n = bytes.slice? i n := by
  have hlength := length_of_splice?_eq_some h
  by_cases hle : i + n ≤ bytes.length
  · obtain ⟨window, hwindow⟩ := exists_slice? hle
    rw [hwindow, slice?_eq_some_iff_getElem?, hlength]
    refine ⟨hle, ?_⟩
    intro k
    rw [getElem?_of_slice? hwindow, getElem?_of_splice? h]
    by_cases hk : k < n
    · rw [if_pos hk, if_pos hk, if_neg (by omega)]
    · rw [if_neg hk, if_neg hk]
  · rw [slice?, slice?, hlength, if_neg hle, if_neg hle]

/-- Of two splices into one range only the second one counts. -/
theorem splice?_of_splice? {again : Bytes} (h : bytes.splice? offset data = some result)
    (hagain : again.length = data.length) :
    result.splice? offset again = bytes.splice? offset again := by
  have hlength := length_of_splice?_eq_some h
  obtain ⟨hle, hget⟩ := splice?_eq_some_iff_getElem?.mp h
  obtain ⟨spliced, hspliced⟩ := exists_splice? (hagain.symm ▸ hle)
  rw [hspliced, splice?_eq_some_iff_getElem?, hlength, hagain]
  refine ⟨hle, ?_⟩
  intro k
  rw [getElem?_of_splice? hspliced, hget, hagain]
  split
  · rfl
  · rfl

/-- A range spliced into itself changes nothing. -/
theorem splice?_of_slice? (h : bytes.slice? offset n = some data) :
    bytes.splice? offset data = some bytes := by
  have hn := length_of_slice? h
  rw [splice?_eq_some_iff_getElem?, hn]
  refine ⟨le_of_slice? h, ?_⟩
  intro k
  split
  · next hk => rw [getElem?_of_slice? h, if_pos (by omega), Nat.add_sub_of_le hk.1]
  · rfl

/-- A range of one byte is the byte at the offset. -/
theorem slice?_one (bytes : Bytes) (offset : Nat) :
    bytes.slice? offset 1 = bytes[offset]?.map fun b => [b] := by
  by_cases hlt : offset < bytes.length
  · rw [List.getElem?_eq_getElem hlt, Option.map_some, slice?_eq_some_iff]
    refine ⟨hlt, ?_⟩
    rw [List.drop_eq_getElem_cons hlt]
    rfl
  · rw [List.getElem?_eq_none (Nat.not_lt.mp hlt), Option.map_none]
    exact if_neg hlt

/-- A splice of one byte changes the byte at the offset. -/
theorem splice?_one {b c : UInt8} (h : bytes[offset]? = some b) :
    bytes.splice? offset [c] = some (bytes.set offset c) := by
  have hlt : offset < bytes.length := (List.getElem?_eq_some_iff.mp h).1
  rw [splice?_eq_some_iff_getElem?]
  refine ⟨hlt, ?_⟩
  intro k
  rw [List.getElem?_set, List.length_singleton]
  by_cases hk : offset = k
  · rw [if_pos hk, if_pos hlt, if_pos (by omega), hk, Nat.sub_self]
    rfl
  · rw [if_neg hk, if_neg (by omega)]

/-- A splice of nothing changes nothing. -/
theorem splice?_nil (h : bytes.splice? offset [] = some result) : result = bytes := by
  apply List.ext_getElem?
  intro k
  rw [getElem?_of_splice? h, if_neg]
  rw [List.length_nil]
  omega

/-- A splice puts its first byte in place, and then the others behind it. -/
theorem splice?_cons {b : UInt8} (h : bytes.splice? offset (b :: data) = some result) :
    Bytes.splice? (bytes.set offset b) (offset + 1) data = some result := by
  obtain ⟨hle, hget⟩ := splice?_eq_some_iff_getElem?.mp h
  rw [List.length_cons] at hle hget
  rw [splice?_eq_some_iff_getElem?, List.length_set]
  refine ⟨by omega, ?_⟩
  intro k
  rw [hget, List.getElem?_set]
  by_cases hfirst : offset = k
  · rw [hfirst, if_pos (by omega), if_neg (by omega), if_pos rfl, if_pos (by omega), Nat.sub_self]
    rfl
  · by_cases hrest : offset + 1 ≤ k ∧ k < offset + 1 + data.length
    · rw [if_pos (by omega), if_pos hrest, show k - offset = k - (offset + 1) + 1 by omega,
        List.getElem?_cons_succ]
    · rw [if_neg (by omega), if_neg hrest, if_neg hfirst]

/-! ## Scalars -/

variable {v : Value} {s : Scalar}

theorem ofBits_u8_toNat (b : UInt8) : Value.ofBits .u8 (toNat [b]) = .u8 b := by
  simp [Value.ofBits, toNat]

theorem withValue?_eq_none_iff :
    bytes.withValue? offset v = none ↔ bytes.length < offset + v.scalar.size := by
  rw [← Option.not_isSome_iff_eq_none, withValue?_isSome_iff, Nat.not_le]

theorem valueAt?_eq_none_iff :
    bytes.valueAt? offset s = none ↔ bytes.length < offset + s.size := by
  rw [← Option.not_isSome_iff_eq_none, valueAt?_isSome_iff, Nat.not_le]

/-- What writing `v` at `offset` makes of a buffer: it changes the bytes of the value
only, the value is read there, a later write of the same size does not show that there
was one, and no value apart from it is read differently. -/
structure Wrote (bytes : Bytes) (offset : Nat) (v : Value) (result : Bytes) : Prop where
  length_eq : result.length = bytes.length
  outside : ∀ i, i < offset ∨ offset + v.scalar.size ≤ i → result[i]? = bytes[i]?
  read_back : result.valueAt? offset v.scalar = some v
  write_again : ∀ w : Value, w.scalar.size = v.scalar.size →
    result.withValue? offset w = bytes.withValue? offset w
  read_apart : ∀ i s, i + s.size ≤ offset ∨ offset + v.scalar.size ≤ i →
    result.valueAt? i s = bytes.valueAt? i s

theorem wrote_of_withValue? (h : bytes.withValue? offset v = some result) :
    Wrote bytes offset v result := by
  have hsplice : bytes.splice? offset (ofValue v) = some result := h
  have hsize : (ofValue v).length = v.scalar.size := length_ofValue v
  refine ⟨length_of_splice?_eq_some hsplice, ?_, ?_, ?_, ?_⟩
  · intro i hi
    rw [getElem?_of_splice? hsplice, if_neg (by omega)]
  · have hslice := slice?_of_splice? hsplice
    rw [hsize] at hslice
    rw [valueAt?, hslice, Option.map_some, ofBits_toNat_ofValue]
  · intro w hw
    apply splice?_of_splice? hsplice
    rw [length_ofValue, length_ofValue, hw]
  · intro i s hi
    rw [valueAt?, valueAt?, slice?_of_splice?_of_apart hsplice (hsize.symm ▸ hi)]

/-- The bytes after the value of type `s` at `offset` is read and written back: the same
ones, but that the byte of a boolean becomes 0 or 1. -/
def rewritten (bytes : Bytes) (offset : Nat) (s : Scalar) : Bytes :=
  if s = .bool then bytes.modify offset fun b => if b = 0 then 0 else 1 else bytes

theorem withValue?_of_valueAt? (h : bytes.valueAt? offset s = some v) :
    v.scalar = s ∧ bytes.withValue? offset v = some (bytes.rewritten offset s) := by
  obtain ⟨window, hwindow, rfl⟩ := Option.map_eq_some_iff.mp h
  refine ⟨Value.scalar_ofBits s _, ?_⟩
  unfold withValue? rewritten
  by_cases hbool : s = .bool
  · subst hbool
    have hbyte : bytes.slice? offset 1 = some window := hwindow
    rw [slice?_one] at hbyte
    obtain ⟨b, hb, rfl⟩ := Option.map_eq_some_iff.mp hbyte
    rw [if_pos rfl, ofValue_ofBits_bool, splice?_one hb, List.modify_eq_set_getElem?, hb]
    rfl
  · rw [if_neg hbool, ofValue_ofBits_toNat hbool (length_of_slice? hwindow)]
    exact splice?_of_slice? hwindow

end Bytes

/-! ## In words, and byte by byte -/

namespace Overflow

variable {o : Overflow} {bytes : Bytes} {offset : UInt64} {v : Value} {s : Scalar}

/-- There is no sum only where the numbers have none below `2 ^ 64`. -/
theorem sum?_eq_or (o : Overflow) (a b : UInt64) :
    o.sum? a b = some (a + b) ∨ o.sum? a b = none ∧ 2 ^ 64 ≤ a.toNat + b.toNat := by
  cases o with
  | wraps => exact .inl rfl
  | stops =>
    show Bytes.wordEnd? a b = some (a + b) ∨ Bytes.wordEnd? a b = none ∧ _
    by_cases hlt : a.toNat + b.toNat < 2 ^ 64
    · left
      rw [Bytes.wordEnd?_eq_some_iff, UInt64.toNat_add, Nat.mod_eq_of_lt hlt]
    · right
      refine ⟨Option.eq_none_iff_forall_ne_some.mpr ?_, Nat.not_lt.mp hlt⟩
      intro last hlast
      have hword := last.toNat_lt
      rw [Bytes.wordEnd?_eq_some_iff.mp hlast] at hword
      exact hlt hword

/-- A sum that wraps around ends a range before it starts. -/
theorem inside_iff {length offset size : UInt64} :
    (offset ≤ offset + size ∧ offset + size ≤ length) ↔
      offset.toNat + size.toNat ≤ length.toNat := by
  have hoffset := offset.toNat_lt
  have hsize := size.toNat_lt
  have hlength := length.toNat_lt
  rw [UInt64.le_iff_toNat_le, UInt64.le_iff_toNat_le, UInt64.toNat_add]
  omega

/-- The ranges that are taken are those that the numbers have. -/
theorem range?_eq (o : Overflow) (length offset size : UInt64) :
    o.range? length offset size =
      if offset.toNat + size.toNat ≤ length.toNat then some (offset, offset + size) else none := by
  have hlength := length.toNat_lt
  unfold range?
  rcases sum?_eq_or o offset size with hsum | ⟨hsum, hlarge⟩
  · rw [hsum]
    by_cases hfits : offset.toNat + size.toNat ≤ length.toNat
    · rw [if_pos hfits, Option.filter_some, if_pos (decide_eq_true (inside_iff.mpr hfits))]
      rfl
    · rw [if_neg hfits, Option.filter_some, if_neg]
      · rfl
      · intro hinside
        exact hfits (inside_iff.mp (of_decide_eq_true hinside))
  · rw [hsum, if_neg (by omega)]
    rfl

/-- Copying byte by byte is a splice. -/
theorem run_copyFrom {start : Nat} {data buffer result : Bytes}
    (h : buffer.splice? start data = some result) :
    (copyFrom start data).run buffer = ((), result) := by
  induction data generalizing start buffer with
  | nil =>
    rw [Bytes.splice?_nil h]
    rfl
  | cons b data ih => exact ih (Bytes.splice?_cons h)

theorem toNat_size (s : Scalar) : (UInt64.ofNat s.size).toNat = s.size := by
  cases s <;> rfl

/-- A write in place has the effect of a write, and none at all if it stops. -/
theorem run_write (o : Overflow) (hlength : bytes.length < 2 ^ 64) (offset : UInt64) (v : Value) :
    (o.write offset v).run.run bytes =
      ((bytes.withValue? offset.toNat v).map fun _ => (),
        (bytes.withValue? offset.toNat v).getD bytes) := by
  have hrange := range?_eq o (UInt64.ofNat bytes.length) offset (UInt64.ofNat v.scalar.size)
  rw [UInt64.toNat_ofNat_of_lt' hlength, toNat_size] at hrange
  have hrun : (o.write offset v).run.run bytes =
      (fill (o.range? (UInt64.ofNat bytes.length) offset (UInt64.ofNat v.scalar.size))
        (Bytes.ofValue v)).run.run bytes := rfl
  rw [hrun, hrange]
  by_cases hfits : offset.toNat + v.scalar.size ≤ bytes.length
  · obtain ⟨result, hresult⟩ := Option.isSome_iff_exists.mp (Bytes.withValue?_isSome_iff.mpr hfits)
    rw [if_pos hfits, hresult]
    show (some (), ((copyFrom offset.toNat (Bytes.ofValue v)).run bytes).2) = (some (), result)
    rw [run_copyFrom hresult]
  · have hnone : bytes.withValue? offset.toNat v = none :=
      Bytes.withValue?_eq_none_iff.mpr (Nat.not_le.mp hfits)
    rw [if_neg hfits, hnone]
    rfl

/-- A value is read as from the numbers. -/
theorem read?_eq (o : Overflow) (hlength : bytes.length < 2 ^ 64) (offset : UInt64) (s : Scalar) :
    o.read? bytes offset s = bytes.valueAt? offset.toNat s := by
  have hrange := range?_eq o (UInt64.ofNat bytes.length) offset (UInt64.ofNat s.size)
  rw [UInt64.toNat_ofNat_of_lt' hlength, toNat_size] at hrange
  unfold read? Bytes.valueAt?
  split
  · show _ = (bytes.slice? offset.toNat 1).map _
    rw [Bytes.slice?_one, Option.map_map]
    apply Option.map_congr
    intro b _
    exact (Bytes.ofBits_bool_toNat b).symm
  · show _ = (bytes.slice? offset.toNat 1).map _
    rw [Bytes.slice?_one, Option.map_map]
    apply Option.map_congr
    intro b _
    exact (Bytes.ofBits_u8_toNat b).symm
  · rw [hrange]
    by_cases hfits : offset.toNat + s.size ≤ bytes.length
    · have hend : (offset + UInt64.ofNat s.size).toNat - offset.toNat = s.size := by
        rw [UInt64.toNat_add, toNat_size, Nat.mod_eq_of_lt (by omega), Nat.add_sub_cancel_left]
      rw [if_pos hfits, Bytes.slice?, if_pos hfits]
      show some (Value.ofBits s (Bytes.toNat ((bytes.drop offset.toNat).take
        ((offset + UInt64.ofNat s.size).toNat - offset.toNat)))) = _
      rw [hend]
      rfl
    · rw [if_neg hfits, Bytes.slice?, if_neg hfits]
      rfl

end Overflow

namespace Bytes

/-- In a buffer of fewer than `2 ^ 64` bytes, and whether sums of words wrap around or
stop the program, a value is written exactly if it fits by the numbers.  Otherwise the
write stops and leaves the buffer.  A value is read under the same condition, and
writing it back changes no byte but that of a boolean, which becomes 0 or 1. -/
theorem scalar_access (o : Overflow) {bytes : Bytes} (hlength : bytes.length < 2 ^ 64)
    (offset : UInt64) :
    (∀ v : Value,
      bytes.length < offset.toNat + v.scalar.size ∧ bytes.withValue? offset.toNat v = none ∧
          (o.write offset v).run.run bytes = (none, bytes) ∨
        ∃ result, offset.toNat + v.scalar.size ≤ bytes.length ∧
          bytes.withValue? offset.toNat v = some result ∧
          (o.write offset v).run.run bytes = (some (), result) ∧
          Wrote bytes offset.toNat v result) ∧
    ∀ s : Scalar, o.read? bytes offset s = bytes.valueAt? offset.toNat s ∧
      (bytes.length < offset.toNat + s.size ∧ bytes.valueAt? offset.toNat s = none ∨
        ∃ v, offset.toNat + s.size ≤ bytes.length ∧ bytes.valueAt? offset.toNat s = some v ∧
          v.scalar = s ∧
          bytes.withValue? offset.toNat v = some (bytes.rewritten offset.toNat s)) := by
  constructor
  · intro v
    rw [Overflow.run_write o hlength]
    cases hwrite : bytes.withValue? offset.toNat v with
    | none => exact .inl ⟨withValue?_eq_none_iff.mp hwrite, rfl, rfl⟩
    | some result =>
      have hfits := withValue?_isSome_iff.mp (Option.isSome_of_eq_some hwrite)
      exact .inr ⟨result, hfits, rfl, rfl, wrote_of_withValue? hwrite⟩
  · intro s
    refine ⟨Overflow.read?_eq o hlength offset s, ?_⟩
    cases hread : bytes.valueAt? offset.toNat s with
    | none => exact .inl ⟨valueAt?_eq_none_iff.mp hread, rfl⟩
    | some v =>
      have hfits := valueAt?_isSome_iff.mp (Option.isSome_of_eq_some hread)
      exact .inr ⟨v, hfits, rfl, withValue?_of_valueAt? hread⟩

/-- The last word is no offset of two bytes, though their end is 1 if sums wrap
around.  The boolean of the byte 7 is written back as 1. -/
theorem scalar_access_lastWord :
    List.length [(7 : UInt8), 9] < 2 ^ 64 ∧ (0xffffffffffffffff : UInt64) + 2 = 1 ∧
      (Overflow.wraps.write 0xffffffffffffffff (.i16 (-1))).run.run [7, 9] = (none, [7, 9]) ∧
      (Overflow.wraps.write 0 (.i16 (-1))).run.run [7, 9] = (some (), [255, 255]) ∧
      ∃ v, valueAt? [7, 9] 0 .bool = some v ∧ withValue? [7, 9] 0 v = some [1, 9] := by
  have hlength : List.length [(7 : UInt8), 9] < 2 ^ 64 := by decide
  obtain ⟨hlast, _⟩ := scalar_access .wraps hlength 0xffffffffffffffff
  obtain ⟨hfirst, hread⟩ := scalar_access .wraps hlength 0
  refine ⟨hlength, by decide, ?_, ?_, ?_⟩
  · rcases hlast (.i16 (-1)) with ⟨_, _, hstops⟩ | ⟨_, hfits, _⟩
    · exact hstops
    · exact absurd hfits (by decide)
  · rcases hfirst (.i16 (-1)) with ⟨hlt, _, _⟩ | ⟨result, _, hwrite, hrun, _⟩
    · exact absurd hlt (by decide)
    · have hresult : withValue? [7, 9] 0 (.i16 (-1)) = some [255, 255] := by decide
      rw [hrun, Option.some.inj (hwrite.symm.trans hresult)]
  · rcases (hread .bool).2 with ⟨hlt, _⟩ | ⟨v, _, hv, _, hback⟩
    · exact absurd hlt (by decide)
    · exact ⟨v, hv, hback⟩

end Bytes

end FlatRecord
