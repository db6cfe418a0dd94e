/-!
# Binary64 numbers

Finite floats and their arithmetic on exact numbers.  A magnitude is a bit
pattern without its sign; as a number it is a multiple of 2 to the -1074, and
`units` says which.  Results are rounded to the nearest magnitude, a half to
the even one, and to `infinity` when they are too large.
-/

namespace FlatRecord

-- `^` is the power of the core library here, whatever else is imported.
attribute [local instance (high)] instPowNat

/-- A float, as a sign and the bit pattern of its magnitude. -/
structure Binary64 where
  negative : Bool
  magnitude : Nat
deriving DecidableEq, Repr

namespace Binary64

/-- The bits of a pattern below its exponent. -/
def fractionBits : Nat := 52

/-- The smallest positive number is 2 to the power of minus this. -/
def unitBits : Nat := 1074

/-- The magnitude above all finite ones. -/
def infinity : Nat :=
  2047 * 2 ^ fractionBits

/-- A finite magnitude as a multiple of 2 to the -1074. -/
def units (magnitude : Nat) : Nat :=
  let exponent := magnitude / 2 ^ fractionBits
  let fraction := magnitude % 2 ^ fractionBits
  if exponent = 0 then fraction else (fraction + 2 ^ fractionBits) * 2 ^ (exponent - 1)

/-- A quotient rounded to the nearest number, a half to the even one. -/
def roundHalfEven (num den : Nat) : Nat :=
  let quotient := num / den
  let remainder := num % den
  if 2 * remainder < den then quotient
  else if den < 2 * remainder then quotient + 1
  else quotient + quotient % 2

/-- The magnitude nearest to a quotient. -/
def nearest (num den : Nat) : Nat :=
  let scaled := num * 2 ^ unitBits
  let shift := (scaled / den).log2 - fractionBits
  min (shift * 2 ^ fractionBits + roundHalfEven scaled (den * 2 ^ shift)) infinity

/-- The rounded product of two finite magnitudes. -/
def mul (a b : Nat) : Nat :=
  nearest (units a * units b) (2 ^ (2 * unitBits))

/-- The rounded quotient of two finite magnitudes. -/
def div (a b : Nat) : Nat :=
  nearest (units a) (units b)

/-- The magnitude nearest to a power of ten. -/
def powerOfTen (exponent : Nat) : Nat :=
  nearest (10 ^ exponent) 1

end Binary64

end FlatRecord
