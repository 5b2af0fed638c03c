import TreeStore.Failure
import TreeStore.Text.Encoding

/-!
# Reading JSON

Reads one value from bytes or from a text. Beyond the standard the undefined and infinite numbers
are read, and of fields with one name the last counts. A number with a fraction or an exponent is a
floating point number, any other one an exact integer.
-/

namespace TreeStore.Json

/-- The blanks between tokens. -/
def isBlank (c : Char) : Bool := c = ' ' || c = '\t' || c = '\n' || c = '\r'

/-- What follows the blanks at the start. -/
def skip (cs : List Char) : List Char := cs.dropWhile isBlank

/-- The integer that decimal digits stand for; too many of them are refused. -/
def integer (ds : List Char) : Except Problem Nat :=
  if Digits.limit < ds.length then .error (.argument (.tooManyDigits ds.length))
  else .ok (Digits.ofDecimal ds)

/-- The character for an escape with one letter. -/
def simpleEscape? : Char → Option Char
  | '"' => some '"'
  | '\\' => some '\\'
  | '/' => some '/'
  | 'b' => some '\x08'
  | 'f' => some '\x0c'
  | 'n' => some '\n'
  | 'r' => some '\r'
  | 't' => some '\t'
  | _ => none

/-- The rest of a text behind its opening quote, as code points and 16-bit units, and what follows
the closing one. What was read so far is held in reverse. -/
def stringTail (seen : List Nat) : List Char → Option (List Nat × List Char)
  | [] => none
  | '"' :: rest => some (seen.reverse, rest)
  | '\\' :: 'u' :: a :: b :: c :: d :: rest =>
    match Digits.ofHex? [a, b, c, d] with
    | some u => stringTail (u :: seen) rest
    | none => none
  | '\\' :: c :: rest =>
    match simpleEscape? c with
    | some x => stringTail (x.toNat :: seen) rest
    | none => none
  | c :: rest => if c.toNat < 0x20 then none else stringTail (c.toNat :: seen) rest

/-- What stands for half a surrogate pair alone. -/
def replacement : Char := '\uFFFD'

/-- The character with a code point; half a surrogate pair alone is replaced. -/
def charOf (n : Nat) : Char := (Encoding.charOf? n).getD replacement

/-- The characters that code points and 16-bit units stand for. -/
def pairUp : List Nat → List Char
  | [] => []
  | [u] => [charOf u]
  | u :: v :: rest =>
    if Encoding.isHigh u && Encoding.isLow v then charOf (Encoding.joined u v) :: pairUp rest
    else charOf u :: pairUp (v :: rest)

/-- A fraction at the start, without its point, and what follows it. -/
def fraction : List Char → List Char × List Char
  | '.' :: rest =>
    let ds := rest.takeWhile Char.isDigit
    if ds = [] then ([], '.' :: rest) else (ds, rest.dropWhile Char.isDigit)
  | cs => ([], cs)

/-- An exponent at the start and what follows it. -/
def exponent? : List Char → Option Int × List Char
  | c :: rest =>
    if c = 'e' || c = 'E' then
      let (negative, digits) := match rest with
        | '-' :: more => (true, more)
        | '+' :: more => (false, more)
        | more => (false, more)
      let ds := digits.takeWhile Char.isDigit
      if ds = [] then (none, c :: rest)
      else
        let n : Int := Digits.ofDecimal ds
        (some (if negative then -n else n), digits.dropWhile Char.isDigit)
    else (none, c :: rest)
  | [] => (none, [])

/-- The integer part at the start, which has no zero in front of other digits, and what follows it.
-/
def whole : List Char → List Char × List Char
  | '0' :: rest => (['0'], rest)
  | cs => (cs.takeWhile Char.isDigit, cs.dropWhile Char.isDigit)

/-- A number at the start and what follows it. -/
def number (cs : List Char) : Except Problem (Value × List Char) :=
  let (negative, rest) := match cs with
    | '-' :: rest => (true, rest)
    | rest => (false, rest)
  let (ds, rest) := whole rest
  if ds = [] then .error .malformedJson
  else
    let (fs, rest) := fraction rest
    let (e, rest) := exponent? rest
    if fs = [] && e.isNone then do
      let n : Int ← integer ds
      return (.int (if negative then -n else n), rest)
    else
      let x := Double.ofDecimal (Digits.ofDecimal (ds ++ fs)) (e.getD 0 - fs.length)
      .ok (.float (if negative then x.negated else x), rest)

/-- A text behind its opening quote, and what follows it. -/
def string (cs : List Char) : Except Problem (String × List Char) :=
  match stringTail [] cs with
  | some (us, rest) => .ok (String.ofList (pairUp us), rest)
  | none => .error .malformedJson

mutual

/-- A value at the start and what follows it. The depth bounds the recursion; the length of the text
is always enough. -/
def value : Nat → List Char → Except Problem (Value × List Char)
  | 0, _ => .error .malformedJson
  | depth + 1, cs => match cs with
    | '"' :: rest => (string rest).map fun (s, rest) => (.str s, rest)
    | '\x7b' :: rest => match skip rest with
      | '\x7d' :: rest => .ok (.object [], rest)
      | rest => (members depth [] rest).map fun (fs, rest) => (.object (Fields.ofPairs fs), rest)
    | '[' :: rest => match skip rest with
      | ']' :: rest => .ok (.list [], rest)
      | rest => (elements depth [] rest).map fun (xs, rest) => (.list xs, rest)
    | 'n' :: 'u' :: 'l' :: 'l' :: rest => .ok (.null, rest)
    | 't' :: 'r' :: 'u' :: 'e' :: rest => .ok (.bool true, rest)
    | 'f' :: 'a' :: 'l' :: 's' :: 'e' :: rest => .ok (.bool false, rest)
    | 'N' :: 'a' :: 'N' :: rest => .ok (.float .nan, rest)
    | 'I' :: 'n' :: 'f' :: 'i' :: 'n' :: 'i' :: 't' :: 'y' :: rest => .ok (.float .infinity, rest)
    | '-' :: 'I' :: 'n' :: 'f' :: 'i' :: 'n' :: 'i' :: 't' :: 'y' :: rest =>
      .ok (.float .negativeInfinity, rest)
    | _ => number cs

/-- The fields of an object from the first name on; those read so far are held in reverse. -/
def members : Nat → List (Value × Value) → List Char →
    Except Problem (List (Value × Value) × List Char)
  | 0, _, _ => .error .malformedJson
  | depth + 1, seen, cs => match cs with
    | '"' :: rest => do
      let (name, rest) ← string rest
      match skip rest with
      | ':' :: rest =>
        let (v, rest) ← value depth (skip rest)
        let seen := (.str name, v) :: seen
        match skip rest with
        | ',' :: rest => members depth seen (skip rest)
        | '\x7d' :: rest => return (seen.reverse, rest)
        | _ => throw .malformedJson
      | _ => throw .malformedJson
    | _ => .error .malformedJson

/-- The members of an array from the first one on; those read so far are held in reverse. -/
def elements : Nat → List Value → List Char → Except Problem (List Value × List Char)
  | 0, _, _ => .error .malformedJson
  | depth + 1, seen, cs => do
    let (v, rest) ← value depth cs
    match skip rest with
    | ',' :: rest => elements depth (v :: seen) (skip rest)
    | ']' :: rest => return ((v :: seen).reverse, rest)
    | _ => throw .malformedJson

end

/-- The value that a text stands for. Nothing but blanks may follow it. -/
def read (cs : List Char) : Except Problem Value := do
  let (v, rest) ← value (cs.length + 1) (skip cs)
  if skip rest = [] then return v else throw .malformedJson

/-- The text that bytes stand for. A byte order mark gives the encoding, else the places of zero
bytes among the first four do; without any it is UTF-8. As in an escape, half a surrogate pair alone
is replaced. -/
def decode? (bytes : Encoding.Bytes) : Option (List Char) :=
  let half : Option Char := some replacement
  if [0x00, 0x00, 0xFE, 0xFF].isPrefixOf bytes then Encoding.decodeUtf32? half .big (bytes.drop 4)
  else if [0xFF, 0xFE, 0x00, 0x00].isPrefixOf bytes then
    Encoding.decodeUtf32? half .little (bytes.drop 4)
  else if [0xFE, 0xFF].isPrefixOf bytes then Encoding.decodeUtf16? half .big (bytes.drop 2)
  else if [0xFF, 0xFE].isPrefixOf bytes then Encoding.decodeUtf16? half .little (bytes.drop 2)
  else if [0xEF, 0xBB, 0xBF].isPrefixOf bytes then Encoding.decodeUtf8? half (bytes.drop 3)
  else match bytes with
  | a :: b :: c :: d :: _ =>
    if a = 0 then
      if b = 0 then Encoding.decodeUtf32? half .big bytes else Encoding.decodeUtf16? half .big bytes
    else if b = 0 then
      if c = 0 && d = 0 then Encoding.decodeUtf32? half .little bytes
      else Encoding.decodeUtf16? half .little bytes
    else Encoding.decodeUtf8? half bytes
  | [a, b] =>
    if a = 0 then Encoding.decodeUtf16? half .big bytes
    else if b = 0 then Encoding.decodeUtf16? half .little bytes
    else Encoding.decodeUtf8? half bytes
  | _ => Encoding.decodeUtf8? half bytes

/-- The value that the bytes of a file stand for. -/
def readBytes (bytes : Encoding.Bytes) : Except Problem Value :=
  match decode? bytes with
  | some cs => read cs
  | none => .error .undecodable

end TreeStore.Json
