import FlatRecord.Layout.Arrange

/-!
# Machine words

The rest of the library counts in natural numbers.  A machine counts in words, and a
sum that is no word wraps around or stops the program.  This module says how the
bounds of a range, the access to a scalar and the places of a layout are computed
there.

* `Bytes.wordRange?` and `Bytes.wordRemaining` are the check of a window and the
  number that its error reports.
* `Overflow.write` and `Overflow.read?` access one scalar.  A write changes the buffer
  in place, one byte after the other.
* `Layout.Cursor.countAll?` runs over the fields of a layout.  Bytes are counted in 64
  bits and the bits of a byte in 8.
-/

namespace FlatRecord

-- `^` is the power of the core library here, whatever else is imported.
attribute [local instance (high)] instPowNat

/-! ## The window of a record -/

namespace Bytes

/-- The end of `size` bytes from `offset` on, unless the sum of the words wraps
around. -/
def wordEnd? (offset size : UInt64) : Option UInt64 :=
  if offset + size < offset then none else some (offset + size)

/-- The first byte of a range and the end, if it ends inside `length` bytes. -/
def wordRange? (length offset size : UInt64) : Option (UInt64 × UInt64) :=
  ((wordEnd? offset size).filter fun last => last ≤ length).map fun last => (offset, last)

/-- The bytes that follow an offset, none behind the last. -/
def wordRemaining (length offset : UInt64) : UInt64 :=
  if offset ≤ length then length - offset else 0

end Bytes

/-! ## One scalar -/

/-- What becomes of a sum of words that is no word: it stops the program, or it wraps
around. -/
inductive Overflow where
  | stops
  | wraps
deriving DecidableEq, Repr

namespace Overflow

def sum? (o : Overflow) (a b : UInt64) : Option UInt64 :=
  match o with
  | stops => Bytes.wordEnd? a b
  | wraps => some (a + b)

/-- The first byte of a range and the end.  A range is refused if it ends before it
starts, or behind the last of `length` bytes. -/
def range? (o : Overflow) (length offset size : UInt64) : Option (UInt64 × UInt64) :=
  ((o.sum? offset size).filter fun last => offset ≤ last ∧ last ≤ length).map fun last =>
    (offset, last)

/-- Copies bytes into the buffer, one after the other from a position on. -/
def copyFrom (start : Nat) : Bytes → StateM Bytes Unit
  | [] => pure ()
  | b :: data => do
    modify fun buffer => buffer.set start b
    copyFrom (start + 1) data

/-- Copies bytes to where a range starts, and stops if there is no range. -/
def fill (range : Option (UInt64 × UInt64)) (data : Bytes) : OptionT (StateM Bytes) Unit :=
  match range with
  | none => failure
  | some (first, _) => copyFrom first.toNat data

/-- Writes a value in place: takes the range of its bytes, and then copies them. -/
def write (o : Overflow) (offset : UInt64) (v : Value) : OptionT (StateM Bytes) Unit := do
  let buffer ← get
  fill (o.range? (UInt64.ofNat buffer.length) offset (UInt64.ofNat v.scalar.size))
    (Bytes.ofValue v)

/-- Reads a value: a boolean and an unsigned byte by its index, the others from the
range of their bytes. -/
def read? (o : Overflow) (bytes : Bytes) (offset : UInt64) (s : Scalar) : Option Value :=
  match s with
  | .bool => bytes[offset.toNat]?.map fun b => .bool (b != 0)
  | .u8 => bytes[offset.toNat]?.map fun b => .u8 b
  | s =>
    (o.range? (UInt64.ofNat bytes.length) offset (UInt64.ofNat s.size)).map fun (first, last) =>
      .ofBits s (Bytes.toNat ((bytes.drop first.toNat).take (last.toNat - first.toNat)))

end Overflow

/-! ## The places of a layout -/

namespace Layout

/-- The sum of two counts, unless it takes more than `width` bits. -/
def sumInWidth? (width a b : Nat) : Option Nat :=
  if a + b < 2 ^ width then some (a + b) else none

namespace Cursor

/-- The cursor behind a field.  Bytes are counted in 64 bits and bits in 8. -/
def count? (packing : Packing) (c : Cursor) (s : Scalar) : Option Cursor :=
  if s = .bool then do
    let bit ← match packing with
      | .loose => some 8
      | .dense => sumInWidth? 8 c.bit 1
    if bit = 8 then
      let byte ← sumInWidth? 64 c.byte 1
      pure ⟨byte, 0⟩
    else pure ⟨c.byte, bit⟩
  else do
    let byte ← sumInWidth? 64 c.byte s.size
    pure ⟨byte, c.bit⟩

/-- The cursor in front of each field, and the one behind the last. -/
def countAll? (packing : Packing) (c : Cursor) : List Scalar → Option (List Cursor × Cursor)
  | [] => some ([], c)
  | s :: rest => do
    let next ← c.count? packing s
    let (cursors, last) ← countAll? packing next rest
    pure (c :: cursors, last)

/-- The bytes up to the cursor, counted in 64 bits. -/
def bytesUsed? (c : Cursor) : Option Nat :=
  if 0 < c.bit then sumInWidth? 64 c.byte 1 else some c.byte

end Cursor

end Layout

end FlatRecord
