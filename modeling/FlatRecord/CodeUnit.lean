/-!
# UTF-16 code units

A code unit is any 16-bit number.  The surrogates among them are no characters,
and the characters above U+FFFF have no single code unit.
-/

namespace FlatRecord

/-- A UTF-16 code unit. -/
structure CodeUnit where
  toUInt16 : UInt16
deriving DecidableEq, Inhabited, Ord

namespace CodeUnit

/-- The character with this number, unless the unit is a surrogate. -/
def toChar? (u : CodeUnit) : Option Char :=
  if h : u.toUInt16.toNat.isValidChar then some (Char.ofNatAux u.toUInt16.toNat h) else none

/-- The code unit of a character, if it has a single one. -/
def ofChar? (c : Char) : Option CodeUnit :=
  if c.toNat < UInt16.size then some ⟨UInt16.ofNat c.toNat⟩ else none

/-- The order of code units is that of their numbers. -/
def le (a b : CodeUnit) : Bool :=
  a.toUInt16 ≤ b.toUInt16

end CodeUnit

end FlatRecord
