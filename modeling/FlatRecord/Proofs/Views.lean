import FlatRecord.Proofs.Bits

/-!
# Views of the same bytes

The bytes at an offset can be looked at one bit at a time, or as a value of any type of
their size.  This module says that all of these are views of one number.

There are three groups.

* The number and its types.  `Value.Shows` says what each type makes of a number, and
  `shows_ofBits` that every value that is read shows the number of its bytes.
* The number and its bits.  `bitAt?_eq_testBit_toNat` is the induction over the bytes: bit
  `j` of the number is bit `j % 8` of byte `j / 8`.  The lemmas beside it say how words
  reach a bit, by a shift of the byte or of a one.
* `SeenAs` collects the views of one range.  `seenAs_of_bits` says that the bits decide all
  the others, so a bit that is set is followed through them by looking at bits only
  (`SeenAs.withBit?`).
-/

namespace FlatRecord

/-! ## Types of one size -/

namespace Value

/-- What a type makes of bytes whose number is `n`.  A boolean says whether it is 0, a
signed integer is its two's complement, and an unsigned integer, a code unit and the
pattern of a float are the number itself. -/
def Shows (v : Value) (n : Nat) : Prop :=
  match v with
  | bool b => b = true ↔ n ≠ 0
  | i8 _ | i16 _ | i32 _ | i64 _ => v.toInt = (n : Int).bmod (2 ^ (8 * v.scalar.size))
  | u8 _ | u16 _ | u32 _ | u64 _ | f32 _ | f64 _ | char16 _ => v.bits = n

/-- The value that is read from a number shows it, if the number fits the type. -/
theorem shows_ofBits {s : Scalar} {n : Nat} (hn : n < 2 ^ (8 * s.size)) :
    (ofBits s n).Shows n := by
  cases s with
  | bool => exact bne_iff_ne
  | i8 | i16 | i32 | i64 => simp [ofBits, Shows, toInt, scalar, Scalar.size]
  | u8 | u16 | u32 | u64 | f32 | f64 | char16 => exact Bytes.bits_ofBits (by decide) hn

end Value

namespace Bytes

variable {bytes data result : Bytes} {offset size i j k n : Nat}

/-! ## Bits of the number -/

/-- Bit `j` of the number is bit `j % 8` of byte `j / 8`. -/
theorem bitAt?_eq_testBit_toNat (hj : j < 8 * bytes.length) :
    bytes.bitAt? (j / 8) (j % 8) = some ((toNat bytes).testBit j) := by
  induction bytes generalizing j with
  | nil => simp at hj
  | cons b bytes ih =>
    rw [List.length_cons] at hj
    have hnumber : toNat (b :: bytes) = 2 ^ 8 * toNat bytes + b.toNat := by
      rw [toNat]
      omega
    rw [hnumber, Nat.testBit_two_pow_mul_add _ b.toNat_lt]
    by_cases hlow : j < 8
    · rw [if_pos hlow, show j / 8 = 0 by omega, show j % 8 = j by omega]
      exact bitAt?_of_getElem? rfl hlow
    · rw [if_neg hlow, ← ih (show j - 8 < 8 * bytes.length by omega),
        show j / 8 = (j - 8) / 8 + 1 by omega, show j % 8 = (j - 8) % 8 by omega]
      exact bitAt?_congr List.getElem?_cons_succ _

/-- A shift by less than eight is by the number itself. -/
theorem toNat_shiftAmount (hk : k < 8) : (UInt8.ofNat k).toNat % 8 = k := by
  rw [UInt8.toNat_ofNat']
  omega

/-- A bit is read by shifting its byte until it is the lowest one. -/
theorem shiftRight_eq_testBit (b : UInt8) (hk : k < 8) :
    ((b >>> UInt8.ofNat k) &&& 1 == 1) = b.toNat.testBit k := by
  have hlowest : ((b >>> UInt8.ofNat k) &&& 1).toNat = b.toNat / 2 ^ k % 2 := by
    rw [UInt8.toNat_and, UInt8.toNat_shiftRight, toNat_shiftAmount hk]
    show b.toNat >>> k &&& 1 = _
    rw [Nat.and_one_is_mod, Nat.shiftRight_eq_div_pow]
  rw [Nat.testBit_eq_decide_div_mod_eq, ← hlowest, Bool.eq_iff_iff, beq_iff_eq,
    decide_eq_true_eq, ← UInt8.toNat_inj]
  rfl

/-- A bit is set by a one that is shifted there. -/
theorem withBit?_eq_modify (hi : i < bytes.length) (hk : k < 8) :
    bytes.withBit? i k = some (bytes.modify i fun b => b ||| 1 <<< UInt8.ofNat k) := by
  have hone : UInt8.ofNat (2 ^ k) = 1 <<< UInt8.ofNat k := by
    rw [← UInt8.toNat_inj, UInt8.toNat_shiftLeft, toNat_shiftAmount hk, UInt8.toNat_ofNat']
    show _ = 1 <<< k % 2 ^ 8
    rw [Nat.one_shiftLeft]
  rw [withBit?, if_pos hk, List.modify_eq_set, List.getElem?_eq_getElem hi, hone]
  rfl

/-! ## The views of a range -/

/-- The `size` bytes at `offset` are seen as the number `n`, bit by bit, through shifts of
single bytes, and as a value of every type of that size. -/
structure SeenAs (bytes : Bytes) (offset size n : Nat) : Prop where
  bit_eq : ∀ j < 8 * size, bytes.bitAt? (offset + j / 8) (j % 8) = some (n.testBit j)
  exists_byte : ∀ j < 8 * size, ∃ b, bytes[offset + j / 8]? = some b ∧
    ((b >>> UInt8.ofNat (j % 8)) &&& 1 == 1) = n.testBit j
  exists_value : ∀ s : Scalar, s.size = size →
    ∃ v, bytes.valueAt? offset s = some v ∧ v.scalar = s ∧ v.Shows n

/-- A range of `size` bytes is seen as a number that fits them. -/
theorem toNat_lt_of_slice? (h : bytes.slice? offset size = some data) :
    toNat data < 2 ^ (8 * size) := by
  rw [← length_of_slice? h]
  exact toNat_lt data

theorem seenAs_toNat (h : bytes.slice? offset size = some data) :
    SeenAs bytes offset size (toNat data) := by
  have hlength : data.length = size := length_of_slice? h
  have hbit : ∀ j < 8 * size,
      bytes.bitAt? (offset + j / 8) (j % 8) = some ((toNat data).testBit j) := by
    intro j hj
    rw [← bitAt?_eq_testBit_toNat (show j < 8 * data.length by omega),
      bitAt?_of_slice? h (show j / 8 < size by omega)]
  refine ⟨hbit, ?_, ?_⟩
  · intro j hj
    have hle := le_of_slice? h
    have hi : offset + j / 8 < bytes.length := by omega
    have hk : j % 8 < 8 := by omega
    refine ⟨bytes[offset + j / 8], List.getElem?_eq_getElem hi, ?_⟩
    apply Option.some.inj
    rw [shiftRight_eq_testBit _ hk, ← bitAt?_of_getElem? (List.getElem?_eq_getElem hi) hk]
    exact hbit j hj
  · intro s hs
    subst hs
    refine ⟨Value.ofBits s (toNat data), ?_, Value.scalar_ofBits s _, ?_⟩
    · rw [valueAt?, h]
      rfl
    · exact Value.shows_ofBits (toNat_lt_of_slice? h)

/-- A range is seen as the number that has its bits. -/
theorem seenAs_of_bits (hfits : offset + size ≤ bytes.length) (hn : n < 2 ^ (8 * size))
    (hbit : ∀ j < 8 * size, bytes.bitAt? (offset + j / 8) (j % 8) = some (n.testBit j)) :
    SeenAs bytes offset size n := by
  obtain ⟨data, hdata⟩ := exists_slice? hfits
  have hseen := seenAs_toNat hdata
  have hlt := toNat_lt_of_slice? hdata
  have hsame : toNat data = n := by
    apply Nat.eq_of_testBit_eq
    intro j
    by_cases hj : j < 8 * size
    · apply Option.some.inj
      rw [← hseen.bit_eq j hj, hbit j hj]
    · -- Neither number reaches so far up.
      have hpow : 2 ^ (8 * size) ≤ 2 ^ j := Nat.pow_le_pow_right (by decide) (by omega)
      rw [Nat.testBit_lt_two_pow (by omega), Nat.testBit_lt_two_pow (by omega)]
  rw [← hsame]
  exact hseen

/-- Setting bit `j` of a range adds it to the number that the range is seen as. -/
theorem SeenAs.withBit? (h : SeenAs bytes offset size n) (hfits : offset + size ≤ bytes.length)
    (hn : n < 2 ^ (8 * size)) (hj : j < 8 * size)
    (hset : bytes.withBit? (offset + j / 8) (j % 8) = some result) :
    SeenAs result offset size (n ||| 2 ^ j) := by
  have hpow : 2 ^ j < 2 ^ (8 * size) := Nat.pow_lt_pow_right (by decide) hj
  apply seenAs_of_bits
  · rw [length_of_withBit? hset]
    exact hfits
  · exact Nat.or_lt_two_pow hn hpow
  · intro m hm
    rw [bitAt?_of_withBit? hset, h.bit_eq m hm, Nat.testBit_or, Nat.testBit_two_pow]
    -- Bits `m` and `j` have the same byte and the same place in it only if they are one.
    by_cases hmj : m = j
    · rw [if_pos (by omega), decide_eq_true hmj.symm, Bool.or_true]
    · rw [if_neg (by omega), decide_eq_false (Ne.symm hmj), Bool.or_false]

/-- A range is seen as one number in every way.  Setting one of its bits makes it the
number with that bit, and shows at no other position. -/
theorem views_agree (hfits : offset + size ≤ bytes.length) :
    ∃ n < 2 ^ (8 * size), SeenAs bytes offset size n ∧
      ∀ j < 8 * size, ∃ result,
        bytes.withBit? (offset + j / 8) (j % 8) = some result ∧
        result = bytes.modify (offset + j / 8) (fun b => b ||| 1 <<< UInt8.ofNat (j % 8)) ∧
        SeenAs result offset size (n ||| 2 ^ j) ∧
        ∀ i k, (i, k) ≠ (offset + j / 8, j % 8) → result.bitAt? i k = bytes.bitAt? i k := by
  obtain ⟨data, hdata⟩ := exists_slice? hfits
  have hseen := seenAs_toNat hdata
  have hn := toNat_lt_of_slice? hdata
  refine ⟨toNat data, hn, hseen, ?_⟩
  intro j hj
  have hi : offset + j / 8 < bytes.length := by omega
  have hset := withBit?_eq_modify hi (show j % 8 < 8 by omega)
  refine ⟨_, hset, rfl, hseen.withBit? hfits hn hj hset, ?_⟩
  intro i k hne
  rw [bitAt?_of_withBit? hset, if_neg]
  intro hsame
  exact hne (Prod.ext hsame.1 hsame.2)

/-- The two bytes behind the first are seen as 0xf780.  Bit 11, in the second of them, makes
that 0xff80, which is -128 as a signed integer. -/
theorem views_agree_minus128 :
    1 + 2 ≤ List.length [(7 : UInt8), 0x80, 0xf7] ∧
      SeenAs [7, 0x80, 0xf7] 1 2 0xf780 ∧
      withBit? [7, 0x80, 0xf7] 2 3 = some [7, 0x80, 0xff] ∧
      SeenAs [7, 0x80, 0xff] 1 2 0xff80 ∧
      ∃ v, valueAt? [7, 0x80, 0xff] 1 .i16 = some v ∧ v.toInt = -128 := by
  have hfits : 1 + 2 ≤ List.length [(7 : UInt8), 0x80, 0xf7] := by decide
  obtain ⟨n, _, hseen, hset⟩ := views_agree hfits
  have hn : n = 0xf780 := by
    obtain ⟨v, hv, _, hshows⟩ := hseen.exists_value .u16 rfl
    have hread : valueAt? [7, 0x80, 0xf7] 1 .u16 = some (.u16 0xf780) := by decide
    rw [Option.some.inj (hv.symm.trans hread)] at hshows
    exact hshows.symm
  subst hn
  obtain ⟨result, hresult, _, hchanged, _⟩ := hset 11 (by decide)
  have hbit : withBit? [7, 0x80, 0xf7] 2 3 = some [7, 0x80, 0xff] := by decide
  have hor : 0xf780 ||| 2 ^ 11 = 0xff80 := by decide
  rw [Option.some.inj (hresult.symm.trans hbit), hor] at hchanged
  obtain ⟨v, hv, hscalar, hshows⟩ := hchanged.exists_value .i16 rfl
  refine ⟨hfits, hseen, hbit, hchanged, v, hv, ?_⟩
  cases v with
  | i16 v =>
    calc (Value.i16 v).toInt = Int.bmod 0xff80 (2 ^ 16) := hshows
      _ = -128 := by decide
  | _ => exact nomatch hscalar

end Bytes

end FlatRecord
