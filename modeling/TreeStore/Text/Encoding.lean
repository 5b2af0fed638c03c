/-!
# Character encodings

Texts as bytes: UTF-8 in both directions, and reading UTF-16 and UTF-32 in both byte orders.
Sequences that are longer than needed or that lie beyond the last character are refused. Half a
surrogate pair is no character; a reader says what it takes such a half for, or refuses it.
-/

namespace TreeStore.Encoding

/-- Bytes of a file. -/
abbrev Bytes := List UInt8

/-- The bytes of one character in UTF-8. -/
def encodeChar (c : Char) : Bytes :=
  let n := c.toNat
  if n < 0x80 then [n.toUInt8]
  else if n < 0x800 then [(0xC0 + n / 0x40).toUInt8, (0x80 + n % 0x40).toUInt8]
  else if n < 0x10000 then
    [(0xE0 + n / 0x1000).toUInt8, (0x80 + n / 0x40 % 0x40).toUInt8, (0x80 + n % 0x40).toUInt8]
  else
    [(0xF0 + n / 0x40000).toUInt8, (0x80 + n / 0x1000 % 0x40).toUInt8,
      (0x80 + n / 0x40 % 0x40).toUInt8, (0x80 + n % 0x40).toUInt8]

/-- The bytes of a text in UTF-8. -/
def encode (cs : List Char) : Bytes := cs.flatMap encodeChar

/-- The character with a code point, unless that is a surrogate or too large. -/
def charOf? (n : Nat) : Option Char :=
  if h : n.isValidChar then some (Char.ofNatAux n h) else none

/-- Whether a unit is the first half of a surrogate pair. -/
def isHigh (n : Nat) : Bool := 0xD800 ≤ n && n ≤ 0xDBFF

/-- Whether a unit is the second half of a surrogate pair. -/
def isLow (n : Nat) : Bool := 0xDC00 ≤ n && n ≤ 0xDFFF

/-- The code point that a surrogate pair stands for. -/
def joined (high low : Nat) : Nat := 0x10000 + (high - 0xD800) * 0x400 + (low - 0xDC00)

/-- The character with a code point. Half a surrogate pair is taken for `half`, and refused without
one. -/
def charOr? (half : Option Char) (n : Nat) : Option Char :=
  if isHigh n || isLow n then half else charOf? n

/-- The character with a code point if that lies at or above a bound. -/
private def charFrom? (half : Option Char) (least n : Nat) : Option Char :=
  if least ≤ n then charOr? half n else none

/-- The value of a byte that continues a character. -/
private def tail? (b : UInt8) : Option Nat :=
  if 0x80 ≤ b.toNat ∧ b.toNat ≤ 0xBF then some (b.toNat - 0x80) else none

/-- The text that bytes stand for in UTF-8. -/
def decodeUtf8? (half : Option Char) : Bytes → Option (List Char)
  | [] => some []
  | a :: rest =>
    let n := a.toNat
    if n < 0x80 then do return (← charOf? n) :: (← decodeUtf8? half rest)
    else if n < 0xC0 then none
    else if n < 0xE0 then match rest with
      | b :: rest => do
        let c ← charFrom? half 0x80 ((n - 0xC0) * 0x40 + (← tail? b))
        return c :: (← decodeUtf8? half rest)
      | _ => none
    else if n < 0xF0 then match rest with
      | b :: c :: rest => do
        let c ← charFrom? half 0x800 (((n - 0xE0) * 0x40 + (← tail? b)) * 0x40 + (← tail? c))
        return c :: (← decodeUtf8? half rest)
      | _ => none
    else if n < 0xF8 then match rest with
      | b :: c :: d :: rest => do
        let c ← charFrom? half 0x10000
          ((((n - 0xF0) * 0x40 + (← tail? b)) * 0x40 + (← tail? c)) * 0x40 + (← tail? d))
        return c :: (← decodeUtf8? half rest)
      | _ => none
    else none

/-- The order of the bytes of one unit. -/
inductive Endian
  | little
  | big
  deriving DecidableEq, Repr

/-- The number that two bytes stand for. -/
private def pair (order : Endian) (a b : UInt8) : Nat :=
  match order with
  | .little => a.toNat + 0x100 * b.toNat
  | .big => 0x100 * a.toNat + b.toNat

/-- Pairs of bytes as numbers; a byte without a partner is refused. -/
private def units16? (order : Endian) : Bytes → Option (List Nat)
  | [] => some []
  | [_] => none
  | a :: b :: rest => (units16? order rest).map (pair order a b :: ·)

/-- The characters of 16-bit units. -/
private def chars16? (half : Option Char) : List Nat → Option (List Char)
  | [] => some []
  | [u] => (charOr? half u).map fun c => [c]
  | u :: v :: rest =>
    if isHigh u && isLow v then do return (← charOf? (joined u v)) :: (← chars16? half rest)
    else do return (← charOr? half u) :: (← chars16? half (v :: rest))

/-- The text that bytes stand for in UTF-16. -/
def decodeUtf16? (half : Option Char) (order : Endian) (bytes : Bytes) : Option (List Char) := do
  chars16? half (← units16? order bytes)

/-- The text that bytes stand for in UTF-32. -/
def decodeUtf32? (half : Option Char) (order : Endian) : Bytes → Option (List Char)
  | [] => some []
  | a :: b :: c :: d :: rest =>
    let n := match order with
      | .little => pair .little a b + 0x10000 * pair .little c d
      | .big => 0x10000 * pair .big a b + pair .big c d
    do return (← charOr? half n) :: (← decodeUtf32? half order rest)
  | _ => none

example : decodeUtf8? none (encode "aé中😀".toList) = some ['a', 'é', '中', '😀'] := by decide

end TreeStore.Encoding
