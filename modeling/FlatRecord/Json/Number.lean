import FlatRecord.Decimal.Binary64

/-!
# JSON numbers

A number is found in two steps.  `NumeralState` runs over the characters and
says where a numeral ends and whether it is complete.  `Number.ofNumeral?` then
gives the number that a complete numeral stands for.

A numeral without a point or an exponent is an integer if it lies in the range
of 64-bit integers, signed or unsigned; every other numeral is a float, and so
is `-0`.  The digits are collected in an unsigned 64-bit number.  Digits that no
longer fit are dropped, and before the point they raise the exponent instead.
A float that is too large is no number.
-/

namespace FlatRecord.Json

/-- Whether a character is a decimal digit. -/
def isDigit (c : Char) : Bool :=
  '0' ≤ c && c ≤ '9'

/-! ## The form of numerals -/

/-- What has been read of a numeral. -/
inductive NumeralState where
  /-- The minus sign. -/
  | minus
  /-- A leading zero, after which no digit may follow. -/
  | zero
  /-- Digits before the point. -/
  | whole
  /-- The point, with no digit after it yet. -/
  | point
  /-- Digits after the point. -/
  | fraction
  /-- The letter before the exponent. -/
  | mark
  /-- The sign of the exponent. -/
  | markSign
  /-- Digits of the exponent. -/
  | exponent
deriving DecidableEq, Repr

/-- What the next character does to a numeral. -/
inductive NumeralStep where
  /-- It belongs to the numeral. -/
  | extend (s : NumeralState)
  /-- The numeral ends before it. -/
  | finish
  /-- It cannot follow. -/
  | refuse
deriving DecidableEq, Repr

namespace NumeralState

/-- The state after the first character of a numeral. -/
def start? (c : Char) : Option NumeralState :=
  if c = '-' then some minus
  else if c = '0' then some zero
  else if isDigit c then some whole
  else none

/-- The step from a state by a character. -/
def step (s : NumeralState) (c : Char) : NumeralStep :=
  let mark? := c = 'e' || c = 'E'
  match s with
  | minus => if c = '0' then .extend zero else if isDigit c then .extend whole else .refuse
  | zero =>
    if isDigit c then .refuse
    else if c = '.' then .extend point else if mark? then .extend mark else .finish
  | whole =>
    if isDigit c then .extend whole
    else if c = '.' then .extend point else if mark? then .extend mark else .finish
  | point => if isDigit c then .extend fraction else .refuse
  | fraction =>
    if isDigit c then .extend fraction else if mark? then .extend mark else .finish
  | mark =>
    if isDigit c then .extend exponent
    else if c = '+' || c = '-' then .extend markSign else .refuse
  | markSign => if isDigit c then .extend exponent else .refuse
  | exponent => if isDigit c then .extend exponent else .finish

/-- Whether a numeral may end here. -/
def isComplete : NumeralState → Bool
  | zero | whole | fraction | exponent => true
  | minus | point | mark | markSign => false

end NumeralState

/-! ## The value of numerals -/

/-- A JSON number. -/
inductive Number where
  | integer (n : Int)
  | float (x : Binary64)
deriving DecidableEq, Repr

/-- A decimal number as it is collected: `significand` times 10 to the
`exponent`. -/
structure Collected where
  significand : Nat
  exponent : Int
deriving DecidableEq, Repr

namespace Collected

/-- The significand with another digit, if it stays below 2 to the 64. -/
def push? (significand : Nat) (digit : Char) : Option Nat :=
  let next := significand * 10 + (digit.toNat - '0'.toNat)
  if next < UInt64.size then some next else none

/-- Collects the digits before the point.  From the first one on that does not
fit, digits only raise the exponent. -/
def whole (significand : Nat) : List Char → Collected
  | [] => ⟨significand, 0⟩
  | d :: ds =>
    match push? significand d with
    | some next => whole next ds
    | none => ⟨significand, (d :: ds).length⟩

/-- Collects the digits after the point, up to the first one that does not fit. -/
def fraction (c : Collected) : List Char → Collected
  | [] => c
  | d :: ds =>
    match push? c.significand d with
    | some next => fraction ⟨next, c.exponent - 1⟩ ds
    | none => c

/-- A magnitude divided by 10 to the 308, `times` times. -/
def divideOut : (times : Nat) → (magnitude : Nat) → Nat
  | 0, magnitude => magnitude
  | times + 1, magnitude =>
    if magnitude = 0 then 0
    else divideOut times (Binary64.div magnitude (Binary64.powerOfTen 308))

/-- The magnitude of the float, with one rounding for the significand, one for
the power of ten and one for their product or quotient.  Powers of ten go up to
308: beyond it a number is too large unless it is zero, and divisions are
repeated. -/
def magnitude? (c : Collected) : Option Nat :=
  let significand := Binary64.nearest c.significand 1
  if 0 ≤ c.exponent then
    if 308 < c.exponent then
      if significand = 0 then some 0 else none
    else
      let product := Binary64.mul significand (Binary64.powerOfTen c.exponent.toNat)
      if product = Binary64.infinity then none else some product
  else
    let places := (-c.exponent).toNat
    let times := (places - 1) / 308
    let rest := divideOut times significand
    some (Binary64.div rest (Binary64.powerOfTen (places - 308 * times)))

end Collected

/-- The number that decimal digits stand for. -/
def natOfDigits (digits : List Char) : Nat :=
  digits.foldl (fun n d => n * 10 + (d.toNat - '0'.toNat)) 0

/-- The exponent after its letter: an optional sign and digits. -/
def exponentOf : List Char → Int
  | '-' :: digits => -(natOfDigits digits : Int)
  | '+' :: digits => natOfDigits digits
  | digits => natOfDigits digits

namespace Number

/-- The number of a complete numeral without its sign. -/
def ofUnsigned? (negative : Bool) (numeral : List Char) : Option Number :=
  let digits := numeral.takeWhile isDigit
  let collected := Collected.whole 0 digits
  let float (c : Collected) := c.magnitude?.map fun m => Number.float ⟨negative, m⟩
  let withExponent (c : Collected) (rest : List Char) : Collected :=
    match rest with
    | [] => c
    | _ :: power => ⟨c.significand, c.exponent + exponentOf power⟩
  match numeral.dropWhile isDigit with
  | [] =>
    if collected.exponent = 0 ∧ !negative then
      some (.integer collected.significand)
    else if collected.exponent = 0 ∧ 0 < collected.significand
        ∧ collected.significand ≤ UInt64.size / 2 then
      some (.integer (-(collected.significand : Int)))
    else
      float collected
  | '.' :: rest =>
    let places := rest.takeWhile isDigit
    float (withExponent (collected.fraction places) (rest.dropWhile isDigit))
  | rest => float (withExponent collected rest)

/-- The number of a complete numeral, unless it is too large. -/
def ofNumeral? : List Char → Option Number
  | '-' :: numeral => ofUnsigned? true numeral
  | numeral => ofUnsigned? false numeral

end Number

end FlatRecord.Json
