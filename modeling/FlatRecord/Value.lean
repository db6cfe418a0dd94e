import FlatRecord.Scalar

/-!
# Values

A `Value` is one stored datum together with its scalar type.  Floats are held
as their IEEE 754 bit patterns, so that no pattern is lost, NaN payloads
included.

`Value.bits` and `Value.ofBits` are the two directions between a value and the
number whose little-endian bytes are stored.  `ofBits_bits` says that nothing
is lost on the way out and back, and `bits_lt` that the number fits the bytes
of its type.
-/

namespace FlatRecord

-- `^` is the power of the core library here, whatever else is imported.
attribute [local instance (high)] instPowNat

/-- A value of one of the scalar types. -/
inductive Value where
  | bool (v : Bool)
  | i8 (v : Int8)
  | u8 (v : UInt8)
  | i16 (v : Int16)
  | u16 (v : UInt16)
  | i32 (v : Int32)
  | u32 (v : UInt32)
  | i64 (v : Int64)
  | u64 (v : UInt64)
  | f32 (bits : UInt32)
  | f64 (bits : UInt64)
  | char16 (unit : UInt16)
deriving DecidableEq

/-! ## Floating-point comparison -/

/-- The widths of the exponent and fraction fields of a binary float. -/
structure FloatFormat where
  exponentBits : Nat
  fractionBits : Nat

namespace FloatFormat

def binary32 : FloatFormat := ⟨8, 23⟩

def binary64 : FloatFormat := ⟨11, 52⟩

/-- A bit pattern without its sign. -/
def magnitude (f : FloatFormat) (bits : Nat) : Nat :=
  bits % 2 ^ (f.exponentBits + f.fractionBits)

/-- The magnitude of the infinities.  Everything above it is a NaN. -/
def infinity (f : FloatFormat) : Nat :=
  (2 ^ f.exponentBits - 1) * 2 ^ f.fractionBits

def isNaN (f : FloatFormat) (bits : Nat) : Bool :=
  f.infinity < f.magnitude bits

/-- Numeric equality of two patterns: a NaN equals nothing, and the two zeros
are equal. -/
def numericEq (f : FloatFormat) (a b : Nat) : Bool :=
  !f.isNaN a && !f.isNaN b &&
    (a == b || (f.magnitude a == 0 && f.magnitude b == 0))

end FloatFormat

namespace Value

/-- The type of a value. -/
def scalar : Value → Scalar
  | bool _ => .bool
  | i8 _ => .i8
  | u8 _ => .u8
  | i16 _ => .i16
  | u16 _ => .u16
  | i32 _ => .i32
  | u32 _ => .u32
  | i64 _ => .i64
  | u64 _ => .u64
  | f32 _ => .f32
  | f64 _ => .f64
  | char16 _ => .char16

/-- Equality of values as numbers: values of different types are different,
and floats compare by IEEE 754. -/
def numericEq : Value → Value → Bool
  | f32 a, f32 b => FloatFormat.binary32.numericEq a.toNat b.toNat
  | f64 a, f64 b => FloatFormat.binary64.numericEq a.toNat b.toNat
  | a, b => a == b

/-! ## Bit patterns -/

/-- The stored number: two's complement for signed integers, the IEEE pattern
for floats, 1 or 0 for a boolean. -/
def bits : Value → Nat
  | bool v => v.toNat
  | i8 v => v.toUInt8.toNat
  | u8 v => v.toNat
  | i16 v => v.toUInt16.toNat
  | u16 v => v.toNat
  | i32 v => v.toUInt32.toNat
  | u32 v => v.toNat
  | i64 v => v.toUInt64.toNat
  | u64 v => v.toNat
  | f32 v => v.toNat
  | f64 v => v.toNat
  | char16 v => v.toNat

/-- The stored number fits the bytes of its type. -/
theorem bits_lt (v : Value) : v.bits < 2 ^ (8 * v.scalar.size) := by
  cases v with
  | bool v => cases v <;> decide
  | i8 v => exact v.toUInt8.toNat_lt
  | u8 v => exact v.toNat_lt
  | i16 v => exact v.toUInt16.toNat_lt
  | u16 v => exact v.toNat_lt
  | i32 v => exact v.toUInt32.toNat_lt
  | u32 v => exact v.toNat_lt
  | i64 v => exact v.toUInt64.toNat_lt
  | u64 v => exact v.toNat_lt
  | f32 v => exact v.toNat_lt
  | f64 v => exact v.toNat_lt
  | char16 v => exact v.toNat_lt

/-- The value of type `s` stored as `n`.  Any number but 0 is a true boolean. -/
def ofBits (s : Scalar) (n : Nat) : Value :=
  match s with
  | .bool => bool (n != 0)
  | .i8 => i8 (UInt8.ofNat n).toInt8
  | .u8 => u8 (UInt8.ofNat n)
  | .i16 => i16 (UInt16.ofNat n).toInt16
  | .u16 => u16 (UInt16.ofNat n)
  | .i32 => i32 (UInt32.ofNat n).toInt32
  | .u32 => u32 (UInt32.ofNat n)
  | .i64 => i64 (UInt64.ofNat n).toInt64
  | .u64 => u64 (UInt64.ofNat n)
  | .f32 => f32 (UInt32.ofNat n)
  | .f64 => f64 (UInt64.ofNat n)
  | .char16 => char16 (UInt16.ofNat n)

@[simp] theorem scalar_ofBits (s : Scalar) (n : Nat) : (ofBits s n).scalar = s := by
  cases s <;> rfl

@[simp] theorem ofBits_bits (v : Value) : ofBits v.scalar v.bits = v := by
  cases v with
  | bool v => cases v <;> rfl
  | _ => simp [scalar, bits, ofBits]

/-- The value zero of a type: false, 0, or +0.0. -/
def zero (s : Scalar) : Value :=
  ofBits s 0

/-- The value of type `s` that holds `n` modulo the range of the type. -/
def ofInt (s : Scalar) (n : Int) : Value :=
  ofBits s (n % 2 ^ (8 * s.size)).toNat

/-! ## Numbers held by integers -/

/-- The number that an integer or a code unit holds.  Booleans and floats are
read as their bit patterns. -/
def toInt : Value → Int
  | i8 v => v.toInt
  | i16 v => v.toInt
  | i32 v => v.toInt
  | i64 v => v.toInt
  | v => v.bits

/-! ## Values of one type -/

/-- The values of type `s`. -/
def Of (s : Scalar) : Type :=
  { v : Value // v.scalar = s }

instance (s : Scalar) : DecidableEq (Of s) :=
  inferInstanceAs (DecidableEq { v : Value // v.scalar = s })

instance (s : Scalar) : Inhabited (Of s) :=
  ⟨⟨zero s, scalar_ofBits s 0⟩⟩

/-- `v` as a value of type `s`, if that is its type. -/
def as? (s : Scalar) (v : Value) : Option (Of s) :=
  if h : v.scalar = s then some ⟨v, h⟩ else none

/-- The value of type `s` that holds `n` modulo the range of the type. -/
def Of.ofInt (s : Scalar) (n : Int) : Of s :=
  ⟨Value.ofInt s n, scalar_ofBits s _⟩

end Value

end FlatRecord
