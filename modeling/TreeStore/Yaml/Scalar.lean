import TreeStore.Failure
import TreeStore.Json.Reader

/-!
# What plain scalars mean

A scalar without quotes stands for nothing, a truth value, a number or a text, by its form alone.
Integers may be written in base two, eight, ten, sixteen and sixty, and digits may be grouped by
underscores.
-/

namespace TreeStore.Yaml

/-- What a plain scalar stands for by its form. -/
inductive PlainKind
  | text
  | null
  | bool
  | int
  | float
  /-- A date, perhaps with a time. -/
  | moment
  /-- The key whose value is merged into a mapping. -/
  | merge
  /-- The key for the default value of a mapping. -/
  | default
  deriving DecidableEq, Repr

/-- A digit or an underscore. -/
def isGrouped (c : Char) : Bool := c.isDigit || c = '_'

/-- A text without a sign at its start. -/
def unsigned : List Char → List Char
  | '-' :: rest | '+' :: rest => rest
  | cs => cs

/-- Whether a text is there and all of its characters are of a kind. -/
def every (p : Char → Bool) (cs : List Char) : Bool := !cs.isEmpty && cs.all p

/-- The parts of a text between colons. -/
def colonParts : List Char → List (List Char)
  | [] => [[]]
  | c :: cs =>
    if c = ':' then [] :: colonParts cs
    else match colonParts cs with
      | [] => [[c]]
      | p :: ps => (c :: p) :: ps

/-- Digits below sixty. -/
def isSixtieth : List Char → Bool
  | [a] => a.isDigit
  | [a, b] => '0' ≤ a && a ≤ '5' && b.isDigit
  | _ => false

/-- Whether the parts between colons are a number in base sixty with more than one digit. -/
def isSexagesimal : List (List Char) → Bool
  | first :: second :: rest =>
    (match first with
      | d :: ds => d.isDigit && ds.all isGrouped
      | [] => false) && (second :: rest).all isSixtieth
  | _ => false

/-- Whether a text is an integer. -/
def isInt (cs : List Char) : Bool :=
  match unsigned cs with
  | ['0'] => true
  | '0' :: 'b' :: ds => every (fun c => c = '0' || c = '1' || c = '_') ds
  | '0' :: 'x' :: ds => every (fun c => (Digits.hexValue? c).isSome || c = '_') ds
  | '0' :: ds => every (fun c => ('0' ≤ c && c ≤ '7') || c = '_') ds
  | d :: ds => d.isDigit && (ds.all isGrouped || isSexagesimal (colonParts (d :: ds)))
  | [] => false

/-- Whether a text is empty or an exponent with a sign. -/
def isExponent : List Char → Bool
  | [] => true
  | e :: sign :: ds => (e = 'e' || e = 'E') && (sign = '-' || sign = '+') && every Char.isDigit ds
  | _ => false

/-- Whether a text is a fraction behind its point, perhaps with an exponent. -/
def isFraction (cs : List Char) : Bool := isExponent (cs.dropWhile isGrouped)

/-- Whether a text is a floating point number. -/
def isFloat (cs : List Char) : Bool :=
  let body := unsigned cs
  let whole := body.takeWhile (· ≠ '.')
  let infinite := ["inf", "Inf", "INF"].any fun name => body == '.' :: name.toList
  let undefined := ["nan", "NaN", "NAN"].any fun name => cs == '.' :: name.toList
  infinite || undefined || match body.dropWhile (· ≠ '.') with
    | '.' :: rest =>
      match whole with
      | [] => body == cs && (match rest with
        | d :: _ => d.isDigit && isFraction rest
        | [] => false)
      | d :: ds =>
        (d.isDigit && ds.all isGrouped && isFraction rest) ||
          (isSexagesimal (colonParts whole) && rest.all isGrouped)
    | _ => false

/-- What follows a number of digits, if there are at least and at most so many. -/
def digits? (least most : Nat) (cs : List Char) : Option (List Char) :=
  let ds := (cs.take most).takeWhile Char.isDigit
  if least ≤ ds.length then some (cs.drop ds.length) else none

/-- What follows a character, if the text starts with it. -/
def exactly? (c : Char) : List Char → Option (List Char)
  | d :: rest => if c = d then some rest else none
  | [] => none

/-- Whether a text is a time zone behind blanks, or nothing. -/
def isZone (cs : List Char) : Bool :=
  match cs.dropWhile fun c => c = ' ' || c = '\t' with
  | [] => cs.isEmpty
  | ['Z'] => true
  | sign :: rest =>
    (sign = '-' || sign = '+') && match digits? 1 2 rest with
      | some [] => true
      | some (':' :: rest) => digits? 2 2 rest == some []
      | _ => false

/-- Whether a text is a time of day, perhaps with a zone. -/
def isTime (cs : List Char) : Bool :=
  let zone := do
    let cs ← digits? 1 2 cs
    let cs ← digits? 2 2 (← exactly? ':' cs)
    let cs ← digits? 2 2 (← exactly? ':' cs)
    return match cs with
      | '.' :: rest => rest.dropWhile Char.isDigit
      | rest => rest
  zone.any isZone

/-- Whether a text is a date, perhaps with a time. -/
def isMoment (cs : List Char) : Bool :=
  let day := do digits? 2 2 (← exactly? '-' (← digits? 2 2 (← exactly? '-' (← digits? 4 4 cs))))
  let loose := do digits? 1 2 (← exactly? '-' (← digits? 1 2 (← exactly? '-' (← digits? 4 4 cs))))
  day == some [] || loose.any fun
    | 't' :: rest | 'T' :: rest => isTime rest
    | ' ' :: rest | '\t' :: rest => isTime (rest.dropWhile fun c => c = ' ' || c = '\t')
    | _ => false

/-- Whether a text is one of some words. -/
def isWord (words : List String) (cs : List Char) : Bool := words.any fun w => w.toList == cs

/-- The words for yes. -/
def trueWords : List String :=
  ["yes", "Yes", "YES", "true", "True", "TRUE", "on", "On", "ON"]

/-- The words for no. -/
def falseWords : List String :=
  ["no", "No", "NO", "false", "False", "FALSE", "off", "Off", "OFF"]

/-- The words for nothing. -/
def nullWords : List String := ["", "~", "null", "Null", "NULL"]

/-- What a plain scalar stands for. -/
def plainKind (cs : List Char) : PlainKind :=
  if isWord nullWords cs then .null
  else if isWord trueWords cs || isWord falseWords cs then .bool
  else if isFloat cs then .float
  else if isInt cs then .int
  else if isMoment cs then .moment
  else if cs = ['<', '<'] then .merge
  else if cs = ['='] then .default
  else .text

/-- Whether a number has a minus sign. -/
def isMinus : List Char → Bool
  | '-' :: _ => true
  | _ => false

/-- The digits of a number without underscores. -/
def ungrouped (cs : List Char) : List Char := cs.filter (· ≠ '_')

/-- Digits in a base that is a power of two. -/
def inBase (base : Nat) (ds : List Char) : Except Problem Nat :=
  if ds = [] then .error (.argument (.notInBase base "")) else .ok (Digits.ofBase base ds)

/-- The integer that digits without sign and underscores stand for. -/
def natural (ds : List Char) : Except Problem Nat :=
  match ds with
  | ['0'] => .ok 0
  | '0' :: 'b' :: ds => inBase 2 ds
  | '0' :: 'x' :: ds => inBase 16 ds
  | '0' :: ds => inBase 8 ds
  | ds => (colonParts ds).foldlM (fun acc part => return 60 * acc + (← Json.integer part)) 0

/-- The integer that a plain scalar stands for. -/
def intOf (cs : List Char) : Except Problem Value := do
  let n ← natural (ungrouped (unsigned cs))
  return .int (if isMinus cs then -n else n)

/-- The number that decimal digits with a point, and perhaps an exponent, stand for. -/
def decimalOf (cs : List Char) : Double :=
  let whole := cs.takeWhile Char.isDigit
  let (fraction, rest) := match cs.dropWhile Char.isDigit with
    | '.' :: rest => (rest.takeWhile Char.isDigit, rest.dropWhile Char.isDigit)
    | rest => ([], rest)
  let exponent := (Json.exponent? rest).1.getD 0
  Double.ofDecimal (Digits.ofDecimal (whole ++ fraction)) (exponent - fraction.length)

/-- The number in base sixty with the given digits, the last of which may have a fraction. Sums are
rounded from the last digit on. -/
def sexagesimal (parts : List (List Char)) : Double :=
  (parts.reverse.foldl (fun (acc : Double × Nat) part =>
    (acc.1.add ((decimalOf part).times acc.2), 60 * acc.2)) (⟨0⟩, 1)).1

/-- The floating point number that a plain scalar stands for. -/
def floatOf (cs : List Char) : Value :=
  let body := (ungrouped (unsigned cs)).map Char.toLower
  let x :=
    if body = ".inf".toList then Double.infinity
    else if body = ".nan".toList then Double.nan
    else if body.contains ':' then sexagesimal (colonParts body)
    else decimalOf body
  .float (if isMinus cs then x.negated else x)

/-- The value that a plain scalar stands for. Dates are kept as texts; a merge or a default outside
of a key stands for nothing. -/
def plainValue (s : String) : Except Problem Value :=
  let cs := s.toList
  match plainKind cs with
  | .null => .ok .null
  | .bool => .ok (.bool (isWord trueWords cs))
  | .int => intOf cs
  | .float => .ok (floatOf cs)
  | .moment | .text => .ok (.str s)
  | .merge | .default => .error .malformedYaml

end TreeStore.Yaml
