import FlatRecord.Bytes
import Mathlib.Data.Nat.Bitwise

/-!
# Byte strings bit by bit

Everything that a layout promises is a statement about single bits, so this
module reads the byte accesses through `bitAt?`, the bit at a position, if the
position is there.

There are three groups.

* `bitAt?` is a faithful view: two strings with the same bits are equal
  (`ext_bitAt?`), and the view knows the length (`bitAt?_isSome_iff`).
* One lemma for each access says which bits it shows or changes: `slice?`,
  `splice?` and `withBit?`.  The lemmas with `exists` say that an access inside
  the string succeeds, and those with `isSome` that no other does.
* The bytes that store a value and the value read from bytes are inverse in
  both directions, but for a boolean byte, which is normalised by a write.
-/

namespace FlatRecord.Bytes

/-! ## The view -/

/-- A byte is determined by its eight bits. -/
theorem byte_eq_of_testBit {a b : UInt8}
    (h : ∀ j, j < 8 → a.toNat.testBit j = b.toNat.testBit j) : a = b := by
  apply UInt8.toNat_inj.mp
  apply Nat.eq_of_testBit_eq
  intro j
  by_cases hj : j < 8
  · exact h j hj
  · have hpow : 2 ^ 8 ≤ 2 ^ j := Nat.pow_le_pow_right (by decide) (by omega)
    rw [Nat.testBit_lt_two_pow (Nat.lt_of_lt_of_le a.toNat_lt hpow),
      Nat.testBit_lt_two_pow (Nat.lt_of_lt_of_le b.toNat_lt hpow)]

/-- A mask of low bits keeps these. -/
theorem testBit_and_mask {b : UInt8} {n : Nat} (hn : n < 8) (j : Nat) :
    (b &&& UInt8.ofNat (2 ^ n - 1)).toNat.testBit j = (b.toNat.testBit j && decide (j < n)) := by
  have hpow : 2 ^ n ≤ 2 ^ 8 := Nat.pow_le_pow_right (by decide) (by omega)
  have hlt : 2 ^ n - 1 < 2 ^ 8 := by
    have := Nat.two_pow_pos n
    omega
  rw [UInt8.toNat_and, UInt8.toNat_ofNat', Nat.mod_eq_of_lt hlt, Nat.testBit_and,
    Nat.testBit_two_pow_sub_one]

/-- The bits of a position depend only on the byte there. -/
theorem bitAt?_congr {a b : Bytes} {i k : Nat} (h : a[i]? = b[k]?) (j : Nat) :
    a.bitAt? i j = b.bitAt? k j := by
  simp only [bitAt?, h]

theorem bitAt?_eq_none_of_le {bytes : Bytes} {i : Nat} (h : bytes.length ≤ i) (j : Nat) :
    bytes.bitAt? i j = none := by
  simp [bitAt?, List.getElem?_eq_none h]

/-- There is no bit above the seventh. -/
theorem bitAt?_eq_none_of_eight_le (bytes : Bytes) (i : Nat) {j : Nat} (h : 8 ≤ j) :
    bytes.bitAt? i j = none := by
  simp [bitAt?, Nat.not_lt.mpr h]

theorem bitAt?_of_getElem? {bytes : Bytes} {i j : Nat} {b : UInt8} (hb : bytes[i]? = some b)
    (hj : j < 8) : bytes.bitAt? i j = some (b.toNat.testBit j) := by
  simp [bitAt?, hb, hj]

theorem bitAt?_isSome_iff {bytes : Bytes} {i j : Nat} :
    (bytes.bitAt? i j).isSome ↔ i < bytes.length ∧ j < 8 := by
  by_cases hj : j < 8 <;> simp [bitAt?, hj]

theorem bitAt?_replicate_zero {n i j : Nat} (hi : i < n) (hj : j < 8) :
    Bytes.bitAt? (List.replicate n 0) i j = some false := by
  have hget : (List.replicate n (0 : UInt8))[i]? = some 0 := by
    rw [List.getElem?_replicate, if_pos hi]
  rw [bitAt?_of_getElem? hget hj]
  exact congrArg some (Nat.zero_testBit j)

/-- A byte is shown by its bits. -/
theorem getElem?_eq_of_bitAt? {a b : Bytes} {i k : Nat}
    (h : ∀ j, j < 8 → a.bitAt? i j = b.bitAt? k j) : a[i]? = b[k]? := by
  have h0 := h 0 (by decide)
  cases ha : a[i]? with
  | none =>
    cases hb : b[k]? with
    | none => rfl
    | some y => simp [bitAt?, ha, hb] at h0
  | some x =>
    cases hb : b[k]? with
    | none => simp [bitAt?, ha, hb] at h0
    | some y =>
      have hxy : x = y := byte_eq_of_testBit fun j hj => by
        have hbit := h j hj
        rw [bitAt?_of_getElem? ha hj, bitAt?_of_getElem? hb hj] at hbit
        exact Option.some.inj hbit
      rw [hxy]

/-- Two strings with the same bits are equal. -/
theorem ext_bitAt? {a b : Bytes} (h : ∀ i j, j < 8 → a.bitAt? i j = b.bitAt? i j) : a = b :=
  List.ext_getElem? fun i => getElem?_eq_of_bitAt? (h i)

/-! ## Ranges -/

theorem exists_slice? {bytes : Bytes} {offset size : Nat} (h : offset + size ≤ bytes.length) :
    ∃ data, bytes.slice? offset size = some data :=
  ⟨_, slice?_eq_some_iff.mpr ⟨h, rfl⟩⟩

theorem length_of_slice? {bytes data : Bytes} {offset size : Nat}
    (h : bytes.slice? offset size = some data) : data.length = size := by
  obtain ⟨hle, rfl⟩ := slice?_eq_some_iff.mp h
  rw [List.length_take, List.length_drop]
  omega

/-- A range is there as soon as its end is. -/
theorem le_of_slice? {bytes data : Bytes} {offset size : Nat}
    (h : bytes.slice? offset size = some data) : offset + size ≤ bytes.length :=
  (slice?_eq_some_iff.mp h).1

theorem getElem?_of_slice? {bytes data : Bytes} {offset size : Nat}
    (h : bytes.slice? offset size = some data) (i : Nat) :
    data[i]? = if i < size then bytes[offset + i]? else none := by
  obtain ⟨_, rfl⟩ := slice?_eq_some_iff.mp h
  rw [List.getElem?_take, List.getElem?_drop]

theorem bitAt?_of_slice? {bytes data : Bytes} {offset size i : Nat}
    (h : bytes.slice? offset size = some data) (hi : i < size) (j : Nat) :
    data.bitAt? i j = bytes.bitAt? (offset + i) j := by
  apply bitAt?_congr
  rw [getElem?_of_slice? h, if_pos hi]

/-- A range of a range is a range of the whole. -/
theorem slice?_of_slice? {bytes data : Bytes} {offset size : Nat}
    (h : bytes.slice? offset size = some data) {i n : Nat} (hin : i + n ≤ size) :
    data.slice? i n = bytes.slice? (offset + i) n := by
  obtain ⟨hle, rfl⟩ := slice?_eq_some_iff.mp h
  have hlen : i + n ≤ ((bytes.drop offset).take size).length := by
    rw [List.length_take, List.length_drop]
    omega
  have htake : min n (size - i) = n := by omega
  rw [slice?, if_pos hlen, slice?, if_pos (by omega), List.drop_take, List.take_take, htake,
    List.drop_drop]

/-- Ranges are equal if their bits are. -/
theorem slice_eq_iff {bytes bytes' data data' : Bytes} {offset offset' size : Nat}
    (h : bytes.slice? offset size = some data) (h' : bytes'.slice? offset' size = some data') :
    data = data' ↔ ∀ i j, i < size → j < 8 →
      bytes.bitAt? (offset + i) j = bytes'.bitAt? (offset' + i) j := by
  constructor
  · rintro rfl i j hi _
    rw [← bitAt?_of_slice? h hi, bitAt?_of_slice? h' hi]
  · intro hbits
    apply ext_bitAt?
    intro i j hj
    by_cases hi : i < size
    · rw [bitAt?_of_slice? h hi, bitAt?_of_slice? h' hi, hbits i j hi hj]
    · rw [bitAt?_eq_none_of_le (by rw [length_of_slice? h]; omega),
        bitAt?_eq_none_of_le (by rw [length_of_slice? h']; omega)]

/-- A whole string is its own range. -/
@[simp] theorem slice?_zero_length (bytes : Bytes) :
    bytes.slice? 0 bytes.length = some bytes := by
  simp [slice?]

theorem exists_splice? {bytes data : Bytes} {offset : Nat}
    (h : offset + data.length ≤ bytes.length) :
    ∃ result, bytes.splice? offset data = some result :=
  ⟨_, if_pos h⟩

theorem getElem?_of_splice? {bytes data result : Bytes} {offset : Nat}
    (h : bytes.splice? offset data = some result) (i : Nat) :
    result[i]? =
      if offset ≤ i ∧ i < offset + data.length then data[i - offset]? else bytes[i]? := by
  unfold splice? at h
  split at h
  · next hle =>
    obtain rfl := Option.some.inj h
    have htake : (bytes.take offset).length = offset := List.length_take_of_le (by omega)
    rw [List.append_assoc, List.getElem?_append, htake]
    by_cases hlow : i < offset
    · rw [if_pos hlow, if_neg (by omega), List.getElem?_take, if_pos hlow]
    · rw [if_neg hlow, List.getElem?_append]
      by_cases hmid : i - offset < data.length
      · rw [if_pos hmid, if_pos (by omega)]
      · rw [if_neg hmid, if_neg (by omega), List.getElem?_drop]
        congr 1
        omega
  · cases h

/-- A splice shows the new data in its range. -/
theorem bitAt?_of_splice? {bytes data result : Bytes} {offset i : Nat}
    (h : bytes.splice? offset data = some result) (hi : i < data.length) (j : Nat) :
    result.bitAt? (offset + i) j = data.bitAt? i j := by
  apply bitAt?_congr
  rw [getElem?_of_splice? h, if_pos (by omega), Nat.add_sub_cancel_left]

/-- A splice keeps every bit outside its range. -/
theorem bitAt?_of_splice?_of_outside {bytes data result : Bytes} {offset i : Nat}
    (h : bytes.splice? offset data = some result)
    (hi : i < offset ∨ offset + data.length ≤ i) (j : Nat) :
    result.bitAt? i j = bytes.bitAt? i j := by
  apply bitAt?_congr
  rw [getElem?_of_splice? h, if_neg (by omega)]

/-! ## Single bits -/

theorem withBit?_isSome_iff {bytes : Bytes} {offset bit : Nat} :
    (bytes.withBit? offset bit).isSome ↔ offset < bytes.length ∧ bit < 8 := by
  by_cases hbit : bit < 8 <;> simp [withBit?, hbit]

theorem exists_withBit? {bytes : Bytes} {offset bit : Nat} (ho : offset < bytes.length)
    (hb : bit < 8) : ∃ result, bytes.withBit? offset bit = some result :=
  Option.isSome_iff_exists.mp (withBit?_isSome_iff.mpr ⟨ho, hb⟩)

/-- Setting a bit changes that bit only. -/
theorem bitAt?_of_withBit? {bytes result : Bytes} {offset bit : Nat}
    (h : bytes.withBit? offset bit = some result) (i j : Nat) :
    result.bitAt? i j = if i = offset ∧ j = bit then some true else bytes.bitAt? i j := by
  simp only [withBit?] at h
  split at h
  · next hbit =>
    obtain ⟨b, hb, rfl⟩ := Option.map_eq_some_iff.mp h
    have hlen : offset < bytes.length := (List.getElem?_eq_some_iff.mp hb).1
    by_cases hi : i = offset
    · subst hi
      by_cases hj : j < 8
      · have hset : (bytes.set i (b ||| UInt8.ofNat (2 ^ bit)))[i]? =
            some (b ||| UInt8.ofNat (2 ^ bit)) := by
          rw [List.getElem?_set, if_pos rfl, if_pos hlen]
        have hpow : 2 ^ bit < 2 ^ 8 := Nat.pow_lt_pow_right (by decide) hbit
        rw [bitAt?_of_getElem? hset hj, bitAt?_of_getElem? hb hj, UInt8.toNat_or,
          UInt8.toNat_ofNat', Nat.mod_eq_of_lt hpow, Nat.testBit_or, Nat.testBit_two_pow]
        by_cases hjb : j = bit
        · simp [hjb]
        · simp [hjb, Ne.symm hjb]
      · rw [bitAt?_eq_none_of_eight_le _ _ (by omega), bitAt?_eq_none_of_eight_le _ _ (by omega),
          if_neg (by omega)]
    · rw [if_neg (by omega)]
      exact bitAt?_congr (by rw [List.getElem?_set, if_neg (Ne.symm hi)]) j
  · exact nomatch h

theorem length_of_withBit? {bytes result : Bytes} {offset bit : Nat}
    (h : bytes.withBit? offset bit = some result) : result.length = bytes.length := by
  simp only [withBit?] at h
  split at h
  · obtain ⟨b, _, rfl⟩ := Option.map_eq_some_iff.mp h
    exact List.length_set
  · exact nomatch h

/-! ## Stored values -/

theorem withValue?_isSome_iff {bytes : Bytes} {offset : Nat} {v : Value} :
    (bytes.withValue? offset v).isSome ↔ offset + v.scalar.size ≤ bytes.length := by
  simp only [withValue?, splice?, length_ofValue]
  split <;> simp [*]

theorem valueAt?_isSome_iff {bytes : Bytes} {offset : Nat} {s : Scalar} :
    (bytes.valueAt? offset s).isSome ↔ offset + s.size ≤ bytes.length := by
  simp only [valueAt?, slice?]
  split <;> simp [*]

theorem toNat_lt (bytes : Bytes) : toNat bytes < 2 ^ (8 * bytes.length) := by
  have h := toNat_ofNat bytes.length (toNat bytes)
  rw [ofNat_toNat] at h
  rw [h]
  exact Nat.mod_lt _ (Nat.two_pow_pos _)

/-- All types but the booleans hold every number that fits their bytes. -/
theorem bits_ofBits {s : Scalar} (hs : s ≠ .bool) {n : Nat} (hn : n < 2 ^ (8 * s.size)) :
    (Value.ofBits s n).bits = n := by
  cases s with
  | bool => exact absurd rfl hs
  | _ => simpa [Value.ofBits, Value.bits, Scalar.size] using hn

/-- Writing the value read from bytes restores them, if it is no boolean. -/
theorem ofValue_ofBits_toNat {s : Scalar} (hs : s ≠ .bool) {data : Bytes}
    (hdata : data.length = s.size) : ofValue (Value.ofBits s (toNat data)) = data := by
  have hn : toNat data < 2 ^ (8 * s.size) := hdata ▸ toNat_lt data
  rw [ofValue, Value.scalar_ofBits, bits_ofBits hs hn, ← hdata, ofNat_toNat]

/-- Bytes are known from the value that is read from them, if it is no boolean. -/
theorem ofBits_toNat_inj {s : Scalar} (hs : s ≠ .bool) {a b : Bytes} (ha : a.length = s.size)
    (hb : b.length = s.size) :
    Value.ofBits s (toNat a) = Value.ofBits s (toNat b) ↔ a = b := by
  constructor
  · intro h
    rw [← ofValue_ofBits_toNat hs ha, h, ofValue_ofBits_toNat hs hb]
  · intro h
    rw [h]

/-- A boolean is stored as 1 or 0. -/
theorem ofValue_bool (v : Bool) : ofValue (.bool v) = [if v then 1 else 0] := by
  cases v <;> rfl

/-- Any byte but 0 reads as a true boolean. -/
theorem ofBits_bool_toNat (b : UInt8) : Value.ofBits .bool (toNat [b]) = .bool (b != 0) := by
  have hzero : b.toNat = 0 ↔ b = 0 := by
    rw [← UInt8.toNat_inj]
    rfl
  by_cases hb : b = 0
  · subst hb
    rfl
  · have hne : b.toNat ≠ 0 := fun h => hb (hzero.mp h)
    simp only [Value.ofBits, toNat, Nat.mul_zero, Nat.add_zero, bne_iff_ne.mpr hne,
      bne_iff_ne.mpr hb]

/-- Writing the boolean read from a byte makes the byte 0 or 1. -/
theorem ofValue_ofBits_bool (b : UInt8) :
    ofValue (Value.ofBits .bool (toNat [b])) = [if b = 0 then 0 else 1] := by
  rw [ofBits_bool_toNat, ofValue_bool]
  by_cases hb : b = 0 <;> simp [hb]

end FlatRecord.Bytes
