/-!
# Scalar types

The twelve types that a stored value can have.  A scalar type fixes how many
bytes a value takes and whether an enumeration may be stored in it.
-/

namespace FlatRecord

/-- A type of stored values.  `char16` is a UTF-16 code unit. -/
inductive Scalar where
  | bool | i8 | u8 | i16 | u16 | i32 | u32 | i64 | u64 | f32 | f64 | char16
deriving DecidableEq, Repr, Inhabited

namespace Scalar

/-- The number of bytes that a value takes. -/
def size : Scalar → Nat
  | bool | i8 | u8 => 1
  | i16 | u16 | char16 => 2
  | i32 | u32 | f32 => 4
  | i64 | u64 | f64 => 8

theorem size_pos (s : Scalar) : 0 < s.size := by
  cases s <;> decide

/-- The eight integer types.  `char16` is a character type and not among them. -/
def isInteger : Scalar → Bool
  | i8 | u8 | i16 | u16 | i32 | u32 | i64 | u64 => true
  | bool | f32 | f64 | char16 => false

/-- The name used in messages. -/
def name : Scalar → String
  | bool => "bool"
  | i8 => "i8"
  | u8 => "u8"
  | i16 => "i16"
  | u16 => "u16"
  | i32 => "i32"
  | u32 => "u32"
  | i64 => "i64"
  | u64 => "u64"
  | f32 => "f32"
  | f64 => "f64"
  | char16 => "char16"

end Scalar

end FlatRecord
