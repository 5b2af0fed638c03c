import TreeStore.Text.Digits

/-!
# Binary floating point numbers

Double precision numbers as their 64 bits. Every finite one is an exact fraction whose denominator
is `2 ^ 1074`, so that comparison, reading from decimal digits and writing are exact arithmetic on
natural numbers.
-/

namespace TreeStore

/-- A double precision number, given by its bits: sign, eleven bits of exponent, 52 bits of
fraction. -/
structure Double where
  /-- The sign, exponent and fraction bits, from the highest to the lowest. -/
  bits : UInt64
  deriving DecidableEq, Repr, Inhabited

namespace Double

/-- The denominator of every finite number. -/
def unit : Nat := Nat.pow 2 1074

/-- The exponent bits. -/
def exponentField (x : Double) : Nat := x.bits.toNat / Nat.pow 2 52 % Nat.pow 2 11

/-- The fraction bits. -/
def fraction (x : Double) : Nat := x.bits.toNat % Nat.pow 2 52

/-- Whether the sign bit is set. -/
def isNegative (x : Double) : Bool := Nat.pow 2 63 ≤ x.bits.toNat

/-- Neither infinite nor undefined. -/
def isFinite (x : Double) : Bool := x.exponentField != Nat.pow 2 11 - 1

/-- The undefined numbers. -/
def isNaN (x : Double) : Bool := !x.isFinite && x.fraction != 0

/-- The two infinite numbers. -/
def isInfinite (x : Double) : Bool := !x.isFinite && x.fraction == 0

/-- The integer that is multiplied by a power of two in a finite number. -/
def significand (x : Double) : Nat :=
  if x.exponentField = 0 then x.fraction else Nat.pow 2 52 + x.fraction

/-- The power of two that a finite number's significand is multiplied by, counted from `2 ^ -1074`.
-/
def scale (x : Double) : Nat := x.exponentField - 1

/-- The absolute value of a finite number times `unit`. -/
def magnitude (x : Double) : Nat := x.significand * Nat.pow 2 x.scale

/-- A finite number times `unit`. -/
def scaled (x : Double) : Int := if x.isNegative then -x.magnitude else x.magnitude

/-- Positive infinity. -/
def infinity : Double := ⟨0x7FF0000000000000⟩

/-- Negative infinity. -/
def negativeInfinity : Double := ⟨0xFFF0000000000000⟩

/-- The undefined number. -/
def nan : Double := ⟨0x7FF8000000000000⟩

/-- The number with the sign bit set. -/
def negated (x : Double) : Double := ⟨x.bits ^^^ 0x8000000000000000⟩

/-- Whether a number equals zero, with either sign. -/
def isZero (x : Double) : Bool := x.isFinite && x.magnitude == 0

/-- The order of two numbers, none if one of them is undefined. -/
def compare? (x y : Double) : Option Ordering :=
  if x.isNaN || y.isNaN then none
  else if x.bits = y.bits then some .eq
  else if x.isInfinite then some (if x.isNegative then .lt else .gt)
  else if y.isInfinite then some (if y.isNegative then .gt else .lt)
  else some (compare x.scaled y.scaled)

/-- The order of a number and an integer, none if the number is undefined. -/
def compareInt? (x : Double) (n : Int) : Option Ordering :=
  if x.isNaN then none
  else if x.isInfinite then some (if x.isNegative then .lt else .gt)
  else some (compare x.scaled (n * unit))

/-- A quotient rounded to the nearest integer, a half to the even one. -/
def roundHalfEven (num den : Nat) : Nat :=
  let q := num / den
  let r := num % den
  if 2 * r < den then q
  else if 2 * r > den then q + 1
  else if q % 2 = 0 then q
  else q + 1

/-- The non-negative number nearest to a fraction; a tie goes to the even significand and what is
too large becomes infinite. -/
def ofRatio (num den : Nat) : Double :=
  let scale := (num * unit / den).log2 - 52
  let bits := scale * Nat.pow 2 52 + roundHalfEven (num * unit) (den * Nat.pow 2 scale)
  if 0x7FF0000000000000 ≤ bits then infinity else ⟨bits.toUInt64⟩

/-- The number nearest to `digits * 10 ^ exponent`. Exponents far outside of the range are answered
without computing the power. -/
def ofDecimal (digits : Nat) (exponent : Int) : Double :=
  let size : Int := (Digits.decimal digits).length
  if digits = 0 then ⟨0⟩
  else if 400 < size + exponent then infinity
  else if size + exponent < -400 then ⟨0⟩
  else if 0 ≤ exponent then ofRatio (digits * Nat.pow 10 exponent.toNat) 1
  else ofRatio digits (Nat.pow 10 (-exponent).toNat)

/-- The number nearest to an integer divided by `unit`. -/
def ofScaled (n : Int) : Double :=
  let x := ofRatio n.natAbs unit
  if n < 0 then x.negated else x

/-- The rounded sum of two finite numbers that are not negative. -/
def add (x y : Double) : Double := ofScaled (x.scaled + y.scaled)

/-- The rounded product of a finite number and a natural one. -/
def times (x : Double) (n : Nat) : Double := ofScaled (x.scaled * n)

/-- The integer part, towards zero, of a finite number. -/
def truncate (x : Double) : Int := Int.tdiv x.scaled unit

/-- The greatest integer that is not above a finite number. -/
def floor (x : Double) : Int := Int.fdiv x.scaled unit

end Double

end TreeStore
