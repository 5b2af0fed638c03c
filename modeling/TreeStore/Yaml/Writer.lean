import TreeStore.Yaml.Scalar
import TreeStore.Yaml.Token

/-!
# Writing YAML

Values as YAML in ASCII, in block style and with sorted keys. A text is written without quotes if it
is read back as a text, else in single quotes if all of its characters may stand there, else in
double quotes with escapes. Texts are folded at a blank once a line is longer than the line width.
-/

namespace TreeStore.Yaml

open Digits

/-- The length of a line behind which a text is folded. -/
def lineWidth : Nat := 80

/-- How far the members of a collection are set in. -/
def indentWidth : Nat := 2

/-- The longest text that may be a key on the line of its value, together with the name of its kind.
-/
def keyWidth : Nat := 127

/-- How a text is written. -/
inductive Style
  | plain
  | single
  | double
  deriving DecidableEq, Repr

/-- Whether a character can be written in double quotes only. -/
def isSpecial (c : Char) : Bool := !(c = '\n' || (' ' ≤ c && c ≤ '~'))

/-- Whether two characters stand next to each other somewhere. -/
def hasPair (a b : Char) : List Char → Bool
  | c :: d :: rest => (c = a && d = b) || hasPair a b (d :: rest)
  | _ => false

/-- Whether a text may be written in single quotes. -/
def allowsSingle (cs : List Char) : Bool :=
  !cs.any isSpecial && !hasPair ' ' '\n' cs && !hasPair '\n' ' ' cs

/-- Whether an indicator at the start of a text stands against writing it without quotes. -/
def startsIndicator : List Char → Bool
  | '-' :: '-' :: '-' :: _ | '.' :: '.' :: '.' :: _ => true
  | c :: rest =>
    "#,[]\x7b\x7d&*!|>'\"%@`".toList.contains c || ((c = '?' || c = '-') && startsWhite rest)
  | [] => false

/-- Whether a colon in front of white space or a number sign behind it is in a text. The first
character is the one in front of the text. -/
def hasIndicator (previous : Char) : List Char → Bool
  | [] => false
  | c :: rest =>
    (c = ':' && startsWhite rest) || (c = '#' && isWhite previous) || hasIndicator c rest

/-- Whether a text may be written without quotes. -/
def allowsPlain (cs : List Char) : Bool :=
  allowsSingle cs && !cs.contains '\n' && cs.head? ≠ some ' ' && cs.getLast? ≠ some ' ' &&
    !startsIndicator cs && !hasIndicator ' ' cs

/-- How a text is written: as plainly as it can be read back. -/
def styleOf (cs : List Char) : Style :=
  if plainKind cs = .text && allowsPlain cs then .plain
  else if allowsSingle cs then .single
  else .double

/-- A new line, set in. -/
def newLine (indent : Nat) : List Char := '\n' :: List.replicate indent ' '

/-- A text without escapes, as runs of blanks, of line ends and of other characters. A blank between
words is replaced by a new line if the line is too long; line ends are written twice, as a single
one would be read as a blank. -/
def folded (indent : Nat) (folds first : Bool) (column : Nat) : List (List Char) → List Char
  | [] => []
  | run :: rest =>
    if folds && run = [' '] && !first && !rest.isEmpty && lineWidth < column then
      newLine indent ++ folded indent folds false indent rest
    else if run.head? = some '\n' then
      run ++ newLine indent ++ folded indent folds false indent rest
    else run ++ folded indent folds false (column + run.length) rest

/-- The kind of run that a character belongs to. -/
def runKind (c : Char) : Nat := if c = ' ' then 0 else if c = '\n' then 1 else 2

/-- The runs of a text. -/
def runs (cs : List Char) : List (List Char) := cs.splitBy fun a b => runKind a == runKind b

/-- The letter for a character in an escape. -/
def escapeLetter? : Char → Option Char
  | '\x00' => some '0'
  | '\x07' => some 'a'
  | '\x08' => some 'b'
  | '\t' => some 't'
  | '\n' => some 'n'
  | '\x0b' => some 'v'
  | '\x0c' => some 'f'
  | '\r' => some 'r'
  | '\x1b' => some 'e'
  | '"' => some '"'
  | '\\' => some '\\'
  | '\x85' => some 'N'
  | '\xa0' => some '_'
  | '\u2028' => some 'L'
  | '\u2029' => some 'P'
  | _ => none

/-- The escape for a character in double quotes, none if it stands for itself. -/
def escapeOf? (c : Char) : Option (List Char) :=
  match escapeLetter? c with
  | some letter => some ['\\', letter]
  | none =>
    if ' ' ≤ c && c ≤ '~' then none
    else if c.toNat < 0x100 then some ('\\' :: 'x' :: hex .upper 2 c.toNat)
    else if c.toNat < 0x10000 then some ('\\' :: 'u' :: hex .upper 4 c.toNat)
    else some ('\\' :: 'U' :: hex .upper 8 c.toNat)

/-- A fold in double quotes: the line end is escaped, and so is a blank behind it. -/
def escapedFold (indent : Nat) (next : List Char) : List Char :=
  '\\' :: (newLine indent ++ if next.head? = some ' ' then ['\\'] else [])

/-- The column behind a fold in double quotes. -/
def escapedColumn (indent : Nat) (next : List Char) : Nat :=
  if next.head? = some ' ' then indent + 1 else indent

/-- A text in double quotes without the quotes. It is folded at a blank or next to an escape, but
neither before its second character nor behind the last but one. -/
def escapedText (indent : Nat) (folds first afterEscape : Bool) (column : Nat) :
    List Char → List Char
  | [] => []
  | c :: rest =>
    let mayFold := folds && !first && !rest.isEmpty
    match escapeOf? c with
    | some escape =>
      if mayFold && lineWidth + 1 < column + escape.length then
        escape ++ escapedFold indent rest ++
          escapedText indent folds false true (escapedColumn indent rest) rest
      else escape ++ escapedText indent folds false true (column + escape.length) rest
    | none =>
      if mayFold && (c = ' ' || afterEscape) && lineWidth < column then
        escapedFold indent (c :: rest) ++
          c :: escapedText indent folds false false (escapedColumn indent (c :: rest) + 1) rest
      else c :: escapedText indent folds false false (column + 1) rest

/-- A text that starts at a column. -/
def textAt (indent : Nat) (folds : Bool) (column : Nat) (cs : List Char) : List Char :=
  match styleOf cs with
  | .plain => folded indent folds true column (runs cs)
  | .single =>
    let doubled := cs.flatMap fun c => if c = '\'' then ['\'', '\''] else [c]
    '\'' :: (folded indent folds true (column + 1) (runs doubled) ++ ['\''])
  | .double => '"' :: (escapedText indent folds true false (column + 1) cs ++ ['"'])

/-- A floating point number. There is a point even in front of an exponent. -/
def floatText (x : Double) : List Char :=
  if x.isNaN then ".nan".toList
  else if x.isInfinite then (if x.isNegative then "-.inf" else ".inf").toList
  else
    let cs := x.toText
    if cs.contains '.' then cs
    else cs.takeWhile (· ≠ 'e') ++ ['.', '0'] ++ cs.dropWhile (· ≠ 'e')

/-- A scalar or an empty collection that starts at a column. -/
def scalarAt (indent : Nat) (folds : Bool) (column : Nat) : Value → List Char
  | .null => "null".toList
  | .bool b => (if b then "true" else "false").toList
  | .int n => signed n
  | .float x => floatText x
  | .str s => textAt indent folds column s.toList
  | .list _ | .tuple _ => ['[', ']']
  | .object _ => ['\x7b', '\x7d']

/-- Whether a key may be on the line of its value: it is a short scalar that is neither empty nor
has line ends, or an empty collection. -/
def isLineKey : Value → Bool
  | .str s =>
    !s.isEmpty && !s.toList.any (fun c => isBreak c && c ≠ '\r') && s.length + 5 ≤ keyWidth
  | .list xs | .tuple xs => xs.isEmpty
  | .object fields => fields.isEmpty
  | _ => true

mutual

/-- What follows an indicator in a collection that is set in by some columns. Behind a key on its
line a collection starts on a new line, where the hyphens of a sequence are not set in further;
behind any other indicator it starts on the same line. -/
def behind (indent : Nat) (key : Bool) (column : Nat) : Value → List Char
  | .list (x :: xs) | .tuple (x :: xs) =>
    let inner := if key then indent else indent + indentWidth
    (if key then newLine inner else [' ']) ++
      (newLine inner).intercalate (itemTexts inner (x :: xs))
  | .object (f :: fs) =>
    let inner := indent + indentWidth
    (if key then newLine inner else [' ']) ++
      (newLine inner).intercalate (fieldTexts inner (f :: fs))
  | v => ' ' :: scalarAt (indent + indentWidth) true (column + 1) v

/-- The entries of a sequence that is set in by some columns. -/
def itemTexts (indent : Nat) : List Value → List (List Char)
  | [] => []
  | x :: xs => ('-' :: behind indent false (indent + 1) x) :: itemTexts indent xs

/-- The fields of a mapping that is set in by some columns. -/
def fieldTexts (indent : Nat) : List (Value × Value) → List (List Char)
  | [] => []
  | (k, v) :: rest =>
    let field :=
      if isLineKey k then
        let key := scalarAt (indent + indentWidth) false indent k
        key ++ ':' :: behind indent true (indent + key.length + 1) v
      else
        '?' :: behind indent false (indent + 1) k ++ newLine indent ++
          ':' :: behind indent false (indent + 1) v
    field :: fieldTexts indent rest

end

mutual

/-- A value with the fields of all objects in order of their keys. -/
def sorted : Value → Value
  | .list xs => .list (sortedAll xs)
  | .tuple xs => .tuple (sortedAll xs)
  | .object fields =>
    .object ((sortedFields fields).mergeSort fun a b => b.1.before? a.1 ≠ some true)
  | v => v

/-- The members of a sequence, each with sorted fields. -/
def sortedAll : List Value → List Value
  | [] => []
  | x :: xs => sorted x :: sortedAll xs

/-- Fields with values that have sorted fields, in the given order. -/
def sortedFields : List (Value × Value) → List (Value × Value)
  | [] => []
  | (k, v) :: rest => (k, sorted v) :: sortedFields rest

end

/-- The document that holds an object. -/
def document (fields : Fields) : String :=
  String.ofList <| match sorted (.object fields) with
    | .object (f :: fs) => (newLine 0).intercalate (fieldTexts 0 (f :: fs)) ++ ['\n']
    | _ => "\x7b\x7d\n".toList

end TreeStore.Yaml
