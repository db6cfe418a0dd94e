import FlatRecord.Decimal.Binary64

/-!
# Shortest decimal text

The text of a float has the fewest digits that read back as the float.  Among
those it is the nearest, and of two equally near the one with an even last
digit.

The search goes through the decimal grids from coarse to fine.  If a point of
a grid reads back as the float, then so does one of the two neighbours of the
float on that grid, so no other points are tried.
-/

namespace FlatRecord.Decimal

-- `^` is the power of the core library here, whatever else is imported.
attribute [local instance (high)] instPowNat

/-- A positive decimal number: `digits` times 10 to the `exponent`. -/
structure Scientific where
  digits : Nat
  exponent : Int
deriving DecidableEq, Repr

/-- The number of decimal digits. -/
def digitCount (n : Nat) : Nat :=
  (Nat.toDigits 10 n).length

/-- Numbers are scaled by 10 to the 400 before their digits are taken, which
leaves more than 70 digits of the smallest float. -/
def scaleExponent : Nat := 400

/-- Whether `n` divided by the scale reads back as a magnitude. -/
def readsBack (n magnitude : Nat) : Bool :=
  Binary64.nearest n (10 ^ scaleExponent) == magnitude

/-- The point that reads back as a magnitude, on the grid of multiples of
`step`; of two such points the nearer one. -/
def onGrid? (magnitude step : Nat) : Option Nat :=
  let num := Binary64.units magnitude * 10 ^ scaleExponent
  let den := 2 ^ Binary64.unitBits * step
  let below := num / den
  let above := below + 1
  match readsBack (below * step) magnitude, readsBack (above * step) magnitude with
  | true, true => some (Binary64.roundHalfEven num den)
  | true, false => some below
  | false, true => some above
  | false, false => none

/-- A number without the zeros at its end, as far as `count` of them. -/
def dropZeros : (count : Nat) → Scientific → Scientific
  | 0, s => s
  | count + 1, s =>
    if s.digits % 10 = 0 then dropZeros count ⟨s.digits / 10, s.exponent + 1⟩ else s

/-- The point that reads back on the first grid that has one.  The grids are the
multiples of 1 with `zeros` zeros, then with one zero less, and so on. -/
def search (magnitude : Nat) : (zeros grids : Nat) → Option Scientific
  | _, 0 => none
  | zeros, grids + 1 =>
    match onGrid? magnitude (10 ^ zeros) with
    | some point => some (dropZeros 20 ⟨point, (zeros : Int) - scaleExponent⟩)
    | none => search magnitude (zeros - 1) grids

/-- The shortest decimal that reads back as a positive finite magnitude.
Seventeen digits always do. -/
def shortest? (magnitude : Nat) : Option Scientific :=
  let whole := Binary64.units magnitude * 10 ^ scaleExponent / 2 ^ Binary64.unitBits
  search magnitude (digitCount whole - 1) 17

/-! ## Text -/

/-- The digits with the point after `point` of them: positional when the point
falls near the digits, with a signed exponent otherwise. -/
def layOut (digits : List Char) (point : Int) : List Char :=
  let count : Int := digits.length
  if 0 < point ∧ point ≤ 16 then
    if count ≤ point then
      digits ++ List.replicate (point - count).toNat '0' ++ ['.', '0']
    else
      digits.take point.toNat ++ '.' :: digits.drop point.toNat
  else if -5 < point ∧ point ≤ 0 then
    '0' :: '.' :: List.replicate (-point).toNat '0' ++ digits
  else
    let mantissa :=
      match digits with
      | first :: second :: rest => first :: '.' :: second :: rest
      | digits => digits
    let sign := if point < 1 then '-' else '+'
    mantissa ++ 'e' :: sign :: (point - 1).natAbs.repr.toList

/-- The text of a finite float. -/
def text (x : Binary64) : String :=
  let sign := if x.negative then ['-'] else []
  let number :=
    if x.magnitude = 0 then ['0', '.', '0']
    else
      match shortest? x.magnitude with
      | none => []
      | some s =>
        let digits := Nat.toDigits 10 s.digits
        layOut digits (digits.length + s.exponent)
  String.ofList (sign ++ number)

end FlatRecord.Decimal
