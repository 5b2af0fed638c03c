/-!
# Numbers written in digits

Decimal and hexadecimal notation for natural numbers, with and without a fixed width. Digits are
lists of characters, most significant first; decimal digits are those of the standard library, whose
reader `Nat.ofDigitChars` takes them back.
-/

namespace TreeStore.Digits

/-- The decimal digits of a number, with no zero in front of a positive one. -/
def decimal (n : Nat) : List Char := Nat.toDigits 10 n

/-- The number that decimal digits stand for. -/
def ofDecimal (ds : List Char) : Nat := Nat.ofDigitChars 10 ds 0

/-- Reading the digits of a number gives the number. -/
@[simp] theorem ofDecimal_decimal (n : Nat) : ofDecimal (decimal n) = n := by
  simp [ofDecimal, decimal]

/-- Decimal notation of an integer: a minus sign in front of a negative one. -/
def signed : Int → List Char
  | .ofNat n => decimal n
  | .negSucc n => '-' :: decimal (n + 1)

/-- How many decimal digits of an integer are read or written at most. -/
def limit : Nat := 4300

/-- Fill a text up to a width with copies of one character in front of it. -/
def fill (c : Char) (width : Nat) (cs : List Char) : List Char :=
  List.replicate (width - cs.length) c ++ cs

/-- Decimal digits with zeros in front up to a width; a number that needs more digits keeps them. -/
def padded (width n : Nat) : List Char := fill '0' width (decimal n)

/-- A text is never shorter than the width it was filled to. -/
theorem length_fill (c : Char) (width : Nat) (cs : List Char) :
    (fill c width cs).length = max width cs.length := by
  simp [fill]
  omega

/-- Letters of hexadecimal digits above nine. -/
inductive Case
  | lower
  | upper
  deriving DecidableEq, Repr

/-- Hexadecimal digits with zeros in front up to a width. -/
def hex (case : Case) (width n : Nat) : List Char :=
  let ds := Nat.toDigits 16 n
  fill '0' width <| match case with
    | .lower => ds
    | .upper => ds.map Char.toUpper

/-- The value of one hexadecimal digit of either case. -/
def hexValue? (c : Char) : Option Nat :=
  if '0' ≤ c ∧ c ≤ '9' then some (c.toNat - '0'.toNat)
  else if 'a' ≤ c ∧ c ≤ 'f' then some (c.toNat - 'a'.toNat + 10)
  else if 'A' ≤ c ∧ c ≤ 'F' then some (c.toNat - 'A'.toNat + 10)
  else none

/-- The number that hexadecimal digits stand for, if all of them are such digits. -/
def ofHex? (cs : List Char) : Option Nat :=
  cs.foldl (fun acc c => do return 16 * (← acc) + (← hexValue? c)) (some 0)

/-- The number that digits below a base stand for; other characters count as zero. -/
def ofBase (base : Nat) (cs : List Char) : Nat :=
  cs.foldl (fun acc c => base * acc + (hexValue? c).getD 0) 0

end TreeStore.Digits
