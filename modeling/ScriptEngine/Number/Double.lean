import ScriptEngine.Layout

/-!
Binary floating point of 64 bits, computed on whole numbers. A finite double is a whole number
of units of `2 ^ (-1074)`, the least positive double; `magnitude` counts them. Each operation
forms its exact result as a ratio of whole numbers of units and rounds it once, to the nearest
double and to the even significand on a tie.
-/

namespace ScriptEngine

/-- A double, held as its 64 bits. -/
structure Double where
  bits : UInt64
deriving DecidableEq, Inhabited

namespace Double

/-- Number of units in one: the value of a finite double is its magnitude over this. -/
def unitsPerOne : Nat := 2 ^ 1074

def word (x : Double) : Nat := x.bits.toNat

def isNegative (x : Double) : Bool := 2 ^ 63 ≤ x.word

/-- The eleven bits of the exponent. -/
def exponent (x : Double) : Nat := x.word / 2 ^ 52 % 2 ^ 11

/-- The fifty-two bits below the exponent. -/
def fraction (x : Double) : Nat := x.word % 2 ^ 52

def isNaN (x : Double) : Bool := x.exponent == 2047 && x.fraction != 0

def isInfinite (x : Double) : Bool := x.exponent == 2047 && x.fraction == 0

def isFinite (x : Double) : Bool := x.exponent != 2047

/-- The significand: the fraction, with the leading bit that a normal double leaves out. -/
def significand (x : Double) : Nat :=
  if x.exponent = 0 then x.fraction else 2 ^ 52 + x.fraction

/-- The power of two that one step of the significand weighs, in units. -/
def scale (x : Double) : Nat := x.exponent - 1

/-- Absolute value of a finite double, in units. -/
def magnitude (x : Double) : Nat := x.significand * 2 ^ x.scale

/-- Signed value of a finite double, in units. -/
def units (x : Double) : Int := if x.isNegative then -x.magnitude else x.magnitude

/-- Put the sign bit before sixty-three bits of exponent and fraction. -/
def withSign (negative : Bool) (rest : Nat) : Double :=
  ⟨UInt64.ofNat (if negative then 2 ^ 63 + rest else rest)⟩

def zero (negative : Bool) : Double := withSign negative 0

def infinity (negative : Bool) : Double := withSign negative (2047 * 2 ^ 52)

/-- The quiet value that stands for no number. -/
def nan : Double := withSign false (2047 * 2 ^ 52 + 2 ^ 51)

/-- The nearest whole number to `num / den`, the even one on a tie. -/
def divideToEven (num den : Nat) : Nat :=
  let quotient := num / den
  let twice := 2 * (num % den)
  if twice < den then quotient
  else if den < twice then quotient + 1
  else quotient + quotient % 2

/-- The double nearest to `num / den` units. -/
def round (negative : Bool) (num den : Nat) : Double :=
  let quotient := num / den
  let scale := if quotient < 2 ^ 53 then 0 else Nat.log2 quotient - 52
  let significand := divideToEven num (den * 2 ^ scale)
  -- The leading bit of the significand, and a carry out of it, count into the exponent.
  let rest := scale * 2 ^ 52 + significand
  if 2047 * 2 ^ 52 ≤ rest then infinity negative else withSign negative rest

/-- The double nearest to a whole number. -/
def ofInt (n : Int) : Double := round (n < 0) (n.natAbs * unitsPerOne) 1

/-- The double nearest to the decimal `digits * 10 ^ power`. -/
def ofDecimal (negative : Bool) (digits : Nat) (power : Int) : Double :=
  let length := (Nat.toDigits 10 digits).length
  if digits = 0 then zero negative
  else if 400 < length + power then infinity negative
  else if length + power < -400 then zero negative
  else if 0 ≤ power then round negative (digits * 10 ^ power.toNat * unitsPerOne) 1
  else round negative (digits * unitsPerOne) (10 ^ (-power).toNat)

def neg (x : Double) : Double := ⟨x.bits ^^^ 0x8000000000000000⟩

def add (x y : Double) : Double :=
  if x.isNaN || y.isNaN then nan
  else if x.isInfinite then
    if y.isInfinite && x.isNegative != y.isNegative then nan else x
  else if y.isInfinite then y
  else
    let sum := x.units + y.units
    if sum = 0 then zero (x.isNegative && y.isNegative)
    else round (sum < 0) sum.natAbs 1

def sub (x y : Double) : Double := x.add y.neg

def mul (x y : Double) : Double :=
  let negative := x.isNegative != y.isNegative
  if x.isNaN || y.isNaN then nan
  else if x.isInfinite || y.isInfinite then
    if (x.isFinite && x.magnitude == 0) || (y.isFinite && y.magnitude == 0) then nan
    else infinity negative
  else round negative (x.magnitude * y.magnitude) unitsPerOne

/-- Position on the line of doubles; the two zeros share one place. -/
def place (x : Double) : Int :=
  if x.isNegative then -((x.word : Int) - 2 ^ 63) else x.word

/-- Order of two doubles, unless one of them is no number. -/
def compare? (x y : Double) : Option Ordering :=
  if x.isNaN || y.isNaN then none else some (compare x.place y.place)

/-- Equality as a script sees it: zeros are equal, and no number equals nothing. -/
def equals (x y : Double) : Bool := x.compare? y == some .eq

def isZero (x : Double) : Bool := x.isFinite && x.magnitude == 0

/-- Whether the value is a whole number. -/
def isIntegral (x : Double) : Bool := x.isFinite && x.magnitude % unitsPerOne == 0

/-- The value without its fractional part; zero unless finite. -/
def truncate (x : Double) : Int :=
  if x.isFinite then
    let whole : Int := x.magnitude / unitsPerOne
    if x.isNegative then -whole else whole
  else 0

end Double
end ScriptEngine
