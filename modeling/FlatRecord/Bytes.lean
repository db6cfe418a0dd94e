import FlatRecord.Value

/-!
# Byte access

Little-endian numbers, and reads and writes at a position of a byte string.
Every access checks its own bounds and answers `none` when a byte that it needs
is not there, so that a caller that promises to stay inside can be held to it.
A write answers the changed bytes and never changes their number.

`ofBits_toNat_ofValue` says that the bytes of a value give the value back, and
`ofNat_toNat` that bytes are determined by the number they are read as.
-/

namespace FlatRecord

-- `^` is the power of the core library here, whatever else is imported.
attribute [local instance (high)] instPowNat

/-- A string of bytes. -/
abbrev Bytes := List UInt8

namespace Bytes

/-! ## Little-endian numbers -/

/-- The lowest `width` bytes of a number, low byte first. -/
def ofNat : (width : Nat) → Nat → Bytes
  | 0, _ => []
  | width + 1, n => UInt8.ofNat n :: ofNat width (n / 256)

/-- The number whose bytes these are, low byte first. -/
def toNat : Bytes → Nat
  | [] => 0
  | b :: bs => b.toNat + 256 * toNat bs

@[simp] theorem length_ofNat (width n : Nat) : (ofNat width n).length = width := by
  induction width generalizing n with
  | zero => rfl
  | succ width ih => simp [ofNat, ih]

/-- Reading back what is written in `width` bytes keeps the lowest bytes. -/
theorem toNat_ofNat (width n : Nat) : toNat (ofNat width n) = n % 2 ^ (8 * width) := by
  induction width generalizing n with
  | zero => simp [ofNat, toNat, Nat.mod_one]
  | succ width ih =>
    have h : 2 ^ (8 * (width + 1)) = 256 * 2 ^ (8 * width) := by
      rw [Nat.mul_succ, Nat.pow_add, Nat.mul_comm]
    rw [h, Nat.mod_mul, ofNat, toNat, ih]
    simp

/-- Bytes are the written form of the number that they are read as. -/
theorem ofNat_toNat (bytes : Bytes) : ofNat bytes.length (toNat bytes) = bytes := by
  induction bytes with
  | nil => rfl
  | cons b bs ih =>
    have hb : b.toNat < 256 := b.toNat_lt
    have hlow : UInt8.ofNat (b.toNat + 256 * toNat bs) = b := by
      apply UInt8.toNat_inj.mp
      simp
    have hhigh : (b.toNat + 256 * toNat bs) / 256 = toNat bs := by omega
    simp only [List.length_cons, ofNat, toNat, hlow, hhigh, ih]

/-! ## Ranges -/

/-- The `size` bytes from `offset` on. -/
def slice? (bytes : Bytes) (offset size : Nat) : Option Bytes :=
  if offset + size ≤ bytes.length then some ((bytes.drop offset).take size) else none

theorem slice?_eq_some_iff {bytes data : Bytes} {offset size : Nat} :
    slice? bytes offset size = some data ↔
      offset + size ≤ bytes.length ∧ (bytes.drop offset).take size = data := by
  simp [slice?]

/-- `bytes` with the range that starts at `offset` replaced by `data`. -/
def splice? (bytes : Bytes) (offset : Nat) (data : Bytes) : Option Bytes :=
  if offset + data.length ≤ bytes.length then
    some (bytes.take offset ++ data ++ bytes.drop (offset + data.length))
  else
    none

theorem length_of_splice?_eq_some {bytes data result : Bytes} {offset : Nat}
    (h : splice? bytes offset data = some result) : result.length = bytes.length := by
  simp only [splice?] at h
  split at h
  · next hle =>
    obtain rfl := Option.some.inj h
    simp only [List.length_append, List.length_take, List.length_drop]
    omega
  · exact nomatch h

/-! ## Bits -/

/-- Bit `bit` of the byte at `offset`, where bit 0 is the lowest. -/
def bitAt? (bytes : Bytes) (offset bit : Nat) : Option Bool :=
  if bit < 8 then bytes[offset]?.map fun b => b.toNat.testBit bit else none

/-- `bytes` with bit `bit` of the byte at `offset` set. -/
def withBit? (bytes : Bytes) (offset bit : Nat) : Option Bytes :=
  if bit < 8 then bytes[offset]?.map fun b => bytes.set offset (b ||| UInt8.ofNat (2 ^ bit))
  else none

/-! ## Scalars -/

/-- The value of type `s` stored at `offset`. -/
def valueAt? (bytes : Bytes) (offset : Nat) (s : Scalar) : Option Value :=
  (slice? bytes offset s.size).map fun data => Value.ofBits s (toNat data)

/-- The bytes that store a value. -/
def ofValue (v : Value) : Bytes :=
  ofNat v.scalar.size v.bits

@[simp] theorem length_ofValue (v : Value) : (ofValue v).length = v.scalar.size :=
  length_ofNat _ _

/-- A value is read back from the bytes that store it. -/
theorem ofBits_toNat_ofValue (v : Value) : Value.ofBits v.scalar (toNat (ofValue v)) = v := by
  rw [ofValue, toNat_ofNat, Nat.mod_eq_of_lt v.bits_lt, Value.ofBits_bits]

/-- `bytes` with `v` stored at `offset`. -/
def withValue? (bytes : Bytes) (offset : Nat) (v : Value) : Option Bytes :=
  splice? bytes offset (ofValue v)

end Bytes

end FlatRecord
