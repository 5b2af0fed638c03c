import TreeStore.Failure
import TreeStore.Text.Encoding

/-!
# Tokens of YAML

Cuts a text into tokens. In block style the tokens that open and close collections follow from the
indentation, and that a scalar is a key shows only at the colon behind it; so the place of each
possible key is remembered until the line ends. Directives, anchors, tags and block scalars are not
supported.
-/

namespace TreeStore.Yaml

/-- A token. -/
inductive Token
  | documentStart
  | documentEnd
  | blockSequenceStart
  | blockMappingStart
  | blockEnd
  | flowSequenceStart
  | flowSequenceEnd
  | flowMappingStart
  | flowMappingEnd
  | blockEntry
  | flowEntry
  | key
  | value
  | scalar (plain : Bool) (text : String)
  deriving DecidableEq, Repr

/-- Whether a character ends a line. -/
def isBreak (c : Char) : Bool :=
  c = '\n' || c = '\r' || c = '\x85' || c = '\u2028' || c = '\u2029'

/-- Whether a character is a blank, a tab or ends a line. -/
def isWhite (c : Char) : Bool := c = ' ' || c = '\t' || isBreak c

/-- Whether a text is at its end or starts with white space. -/
def startsWhite : List Char → Bool
  | [] => true
  | c :: _ => isWhite c

/-- Whether a text starts with a document marker. -/
def startsMarker : List Char → Bool
  | '-' :: '-' :: '-' :: rest | '.' :: '.' :: '.' :: rest => startsWhite rest
  | _ => false

/-- Whether a text may hold a character. -/
def isReadable (c : Char) : Bool :=
  let n := c.toNat
  n = 0x9 || n = 0xA || n = 0xD || (0x20 ≤ n && n ≤ 0x7E) || n = 0x85 || (0xA0 ≤ n && n ≤ 0xD7FF) ||
    (0xE000 ≤ n && n ≤ 0xFFFD) || (0x10000 ≤ n && n ≤ 0x10FFFF)

/-- A place where a key may have started. -/
structure KeyPlace where
  /-- The number of tokens in front of it. -/
  tokens : Nat
  /-- Whether only a key may stand there. -/
  required : Bool
  /-- Its position in the text. -/
  index : Nat
  /-- Its line. -/
  line : Nat
  /-- Its column. -/
  column : Nat
  deriving DecidableEq, Repr

/-- Where the reading of a text stands. -/
structure Scan where
  /-- The text ahead. -/
  rest : List Char
  /-- The position in the text. -/
  index : Nat := 0
  /-- The line. -/
  line : Nat := 0
  /-- The column. -/
  column : Nat := 0
  /-- How many flow collections are open. -/
  flow : Nat := 0
  /-- The column of the present block collection, none outside of any. -/
  indent : Option Nat := none
  /-- The columns of the block collections around it. -/
  outer : List (Option Nat) := []
  /-- Whether a key may start here. -/
  keyAllowed : Bool := true
  /-- The place of a possible key for each number of open flow collections. -/
  keys : List (Nat × KeyPlace) := []
  /-- The tokens so far. -/
  tokens : List Token := []

/-- A text that is no YAML. -/
def malformed {α : Type} : Except Problem α := .error .malformedYaml

namespace Scan

/-- Go on by one character. A carriage return in front of a line feed does not end the line. -/
def forward (s : Scan) : Scan :=
  match s.rest with
  | [] => s
  | c :: rest =>
    let s := { s with rest, index := s.index + 1 }
    if isBreak c && !(c = '\r' && rest.head? = some '\n') then
      { s with line := s.line + 1, column := 0 }
    else if c = '\uFEFF' then s
    else { s with column := s.column + 1 }

/-- Go on by some characters. -/
def advance (s : Scan) : Nat → Scan
  | 0 => s
  | n + 1 => s.forward.advance n

/-- Add a token. -/
def emit (s : Scan) (t : Token) : Scan := { s with tokens := s.tokens ++ [t] }

/-- Read a line break: the character that stands for it, if there is one. -/
def lineBreak (s : Scan) : Option Char × Scan :=
  match s.rest with
  | '\r' :: '\n' :: _ => (some '\n', s.advance 2)
  | c :: _ =>
    if c = '\u2028' || c = '\u2029' then (some c, s.forward)
    else if isBreak c then (some '\n', s.forward)
    else (none, s)
  | [] => (none, s)

/-- Go on to the next token, over blanks, comments and line ends. The fuel is at least the length of
the text ahead. -/
def skip : Nat → Scan → Scan
  | 0, s => s
  | fuel + 1, s =>
    let s := s.advance (s.rest.takeWhile (· = ' ')).length
    let s := match s.rest with
      | '#' :: _ => s.advance (s.rest.takeWhile fun c => !isBreak c).length
      | _ => s
    match s.lineBreak with
    | (none, s) => s
    | (some _, s) => skip fuel (if s.flow = 0 then { s with keyAllowed := true } else s)

/-- Forget the possible keys that are on another line or too far away; one that was required is an
error. -/
def dropStale (s : Scan) : Except Problem Scan :=
  let isStale (k : KeyPlace) : Bool := k.line ≠ s.line || 1024 < s.index - k.index
  if s.keys.any fun (_, k) => isStale k && k.required then malformed
  else .ok { s with keys := s.keys.filter fun (_, k) => !isStale k }

/-- Forget the possible key at the present level; one that was required is an error. -/
def dropKey (s : Scan) : Except Problem Scan :=
  match s.keys.lookup s.flow with
  | some k => if k.required then malformed else .ok { s with keys := s.keys.filter (·.1 ≠ s.flow) }
  | none => .ok s

/-- Remember that a key may start here. -/
def saveKey (s : Scan) : Except Problem Scan :=
  let required := s.flow = 0 && s.indent = some s.column
  if s.keyAllowed then do
    let s ← s.dropKey
    return { s with
      keys := (s.flow, ⟨s.tokens.length, required, s.index, s.line, s.column⟩) :: s.keys }
  else .ok s

/-- Close the block collections that are set in further than a column; without a column, all of
them. -/
def unwind (s : Scan) (column : Option Nat) : Scan :=
  if s.flow ≠ 0 then s else go s.outer.length s
where
  /-- Close at most the given number of collections. -/
  go : Nat → Scan → Scan
    | 0, s => s
    | count + 1, s =>
      let inside := match s.indent, column with
        | some i, some c => decide (c < i)
        | some _, none => true
        | none, _ => false
      if inside then
        match s.outer with
        | i :: outer => go count ({ s with indent := i, outer }.emit .blockEnd)
        | [] => s
      else s

/-- Whether a collection at a column would be set in further than the present one. -/
def isDeeper (s : Scan) (column : Nat) : Bool :=
  match s.indent with
  | some i => i < column
  | none => true

/-- Open a block collection at a column. -/
def indentTo (s : Scan) (column : Nat) : Scan :=
  { s with outer := s.indent :: s.outer, indent := some column }

/-- A token that ends all block collections. -/
def boundary (s : Scan) : Except Problem Scan := do
  let s ← (s.unwind none).dropKey
  return { s with keyAllowed := false }

/-- A document marker. -/
def marker (s : Scan) (t : Token) : Except Problem Scan := do
  return (← s.boundary).advance 3 |>.emit t

/-- The start of a flow collection. -/
def openFlow (s : Scan) (t : Token) : Except Problem Scan := do
  let s ← s.saveKey
  return { s with flow := s.flow + 1, keyAllowed := true }.forward.emit t

/-- The end of a flow collection. -/
def closeFlow (s : Scan) (t : Token) : Except Problem Scan := do
  if s.flow = 0 then malformed
  else
    let s ← s.dropKey
    return { s with flow := s.flow - 1, keyAllowed := false }.forward.emit t

/-- A comma in a flow collection. -/
def entryInFlow (s : Scan) : Except Problem Scan := do
  let s ← { s with keyAllowed := true }.dropKey
  return s.forward.emit .flowEntry

/-- A hyphen in front of an entry. -/
def entryInBlock (s : Scan) : Except Problem Scan := do
  let s ←
    if s.flow ≠ 0 then .ok s
    else if !s.keyAllowed then malformed
    else if s.isDeeper s.column then .ok ((s.indentTo s.column).emit .blockSequenceStart)
    else .ok s
  let s ← { s with keyAllowed := true }.dropKey
  return s.forward.emit .blockEntry

/-- A question mark in front of a key. -/
def explicitKey (s : Scan) : Except Problem Scan := do
  let s ←
    if s.flow ≠ 0 then .ok s
    else if !s.keyAllowed then malformed
    else if s.isDeeper s.column then .ok ((s.indentTo s.column).emit .blockMappingStart)
    else .ok s
  let s ← { s with keyAllowed := s.flow = 0 }.dropKey
  return s.forward.emit .key

/-- A colon behind a key: the tokens that show the key are put in front of it. -/
def valueMark (s : Scan) : Except Problem Scan := do
  match s.keys.lookup s.flow with
  | some k =>
    let s := { s with keys := s.keys.filter (·.1 ≠ s.flow), keyAllowed := false }
    let (s, opening) :=
      if s.flow = 0 && s.isDeeper k.column then (s.indentTo k.column, [Token.blockMappingStart])
      else (s, [])
    let tokens := s.tokens.take k.tokens ++ opening ++ .key :: s.tokens.drop k.tokens
    return { s with tokens }.forward.emit .value
  | none =>
    let s ←
      if s.flow ≠ 0 then .ok s
      else if !s.keyAllowed then malformed
      else if s.isDeeper s.column then .ok ((s.indentTo s.column).emit .blockMappingStart)
      else .ok s
    let s ← { s with keyAllowed := s.flow = 0 }.dropKey
    return s.forward.emit .value

/-- The characters of a plain scalar up to the next white space or indicator. -/
def plainWord (inFlow : Bool) : List Char → List Char
  | [] => []
  | c :: rest =>
    let ends := isWhite c || (inFlow && [',', '?', '[', ']', '\x7b', '\x7d'].contains c) ||
      (c = ':' && (startsWhite rest ||
        (inFlow && [',', '[', ']', '\x7b', '\x7d'].any fun d => rest.head? = some d)))
    if ends then [] else c :: plainWord inFlow rest

/-- Blanks and line ends after a line end; none if a document marker follows. -/
def breaksAfter : Nat → Scan → Option (List Char) × Scan
  | 0, s => (some [], s)
  | fuel + 1, s =>
    let s := s.advance (s.rest.takeWhile (· = ' ')).length
    match s.lineBreak with
    | (none, s) => (some [], s)
    | (some c, s) =>
      if startsMarker s.rest then (none, s)
      else
        let (more, s) := breaksAfter fuel s
        (more.map (c :: ·), s)

/-- The white space inside of a plain scalar, folded; nothing if the scalar ends. -/
def plainSpace (s : Scan) : List Char × Scan :=
  let blanks := s.rest.takeWhile (· = ' ')
  let s := s.advance blanks.length
  match s.lineBreak with
  | (none, s) => (blanks, s)
  | (some c, s) =>
    let s := { s with keyAllowed := true }
    if startsMarker s.rest then ([], s)
    else
      match breaksAfter s.rest.length s with
      | (none, s) => ([], s)
      | (some breaks, s) =>
        ((if c ≠ '\n' then [c] else if breaks.isEmpty then [' '] else []) ++ breaks, s)

/-- The words of a plain scalar and the space between them. -/
def plainText (column : Nat) : Nat → List Char → Scan → List Char × Scan
  | 0, _, s => ([], s)
  | fuel + 1, space, s =>
    let word := if s.rest.head? = some '#' then [] else plainWord (s.flow ≠ 0) s.rest
    if word.isEmpty then ([], s)
    else
      let s := { s with keyAllowed := false }.advance word.length
      let (next, s) := s.plainSpace
      if next.isEmpty || s.rest.head? = some '#' || (s.flow = 0 && s.column < column) then
        (space ++ word, s)
      else
        let (more, s) := plainText column fuel next s
        (space ++ word ++ more, s)

/-- A plain scalar. -/
def plainScalar (s : Scan) : Except Problem Scan := do
  let s ← s.saveKey
  let column := match s.indent with
    | some i => i + 1
    | none => 0
  let (text, s) := plainText column (s.rest.length + 1) [] { s with keyAllowed := false }
  return s.emit (.scalar true (String.ofList text))

/-- The character for an escape with one letter. -/
def escape? : Char → Option Char
  | '0' => some '\x00'
  | 'a' => some '\x07'
  | 'b' => some '\x08'
  | 't' | '\t' => some '\t'
  | 'n' => some '\n'
  | 'v' => some '\x0b'
  | 'f' => some '\x0c'
  | 'r' => some '\r'
  | 'e' => some '\x1b'
  | ' ' => some ' '
  | '"' => some '"'
  | '\\' => some '\\'
  | '/' => some '/'
  | 'N' => some '\x85'
  | '_' => some '\xa0'
  | 'L' => some '\u2028'
  | 'P' => some '\u2029'
  | _ => none

/-- The number of digits behind the letter of an escape by number. -/
def escapeLength? : Char → Option Nat
  | 'x' => some 2
  | 'u' => some 4
  | 'U' => some 8
  | _ => none

/-- The character with a code point that an escape gives. -/
def escaped (n : Nat) : Except Problem Char :=
  if Nat.pow 2 31 ≤ n then .error (.outOfRange .characterNumber)
  else if 0x10FFFF < n then .error (.argument .noCharacter)
  else .ok ((Encoding.charOf? n).getD '\uFFFD')

/-- Blanks and line ends inside of a quoted scalar, after a line end. -/
def quotedBreaks : Nat → Scan → Except Problem (List Char × Scan)
  | 0, s => .ok ([], s)
  | fuel + 1, s =>
    if startsMarker s.rest then malformed
    else
      let s := s.advance (s.rest.takeWhile fun c => c = ' ' || c = '\t').length
      match s.lineBreak with
      | (none, s) => .ok ([], s)
      | (some c, s) => do
        let (more, s) ← quotedBreaks fuel s
        return (c :: more, s)

/-- White space inside of a quoted scalar, folded. -/
def quotedSpace (s : Scan) : Except Problem (List Char × Scan) :=
  let blanks := s.rest.takeWhile fun c => c = ' ' || c = '\t'
  let s := s.advance blanks.length
  if s.rest.isEmpty then malformed
  else match s.lineBreak with
    | (none, s) => .ok (blanks, s)
    | (some c, s) => do
      let (breaks, s) ← quotedBreaks s.rest.length s
      return ((if c ≠ '\n' then [c] else if breaks.isEmpty then [' '] else []) ++ breaks, s)

/-- An escape behind its backslash. -/
def escapeSequence (s : Scan) : Except Problem (List Char × Scan) :=
  match s.rest with
  | [] => malformed
  | c :: rest =>
    match escape? c, escapeLength? c with
    | some x, _ => .ok ([x], s.forward)
    | none, some n =>
      if rest.length < n then malformed
      else match Digits.ofHex? (rest.take n) with
        | some code => do return ([← escaped code], s.advance (n + 1))
        | none => malformed
    | none, none =>
      match s.lineBreak with
      | (some _, s) => quotedBreaks s.rest.length s
      | (none, _) => malformed

/-- The text of a quoted scalar up to its closing quote. -/
def quotedText (quote : Char) : Nat → Scan → Except Problem (List Char × Scan)
  | 0, _ => malformed
  | fuel + 1, s =>
    let goOn (part : List Char × Scan) : Except Problem (List Char × Scan) := do
      let (more, s) ← quotedText quote fuel part.2
      return (part.1 ++ more, s)
    match s.rest with
    | [] => malformed
    | c :: rest =>
      if c = quote then
        if quote = '\'' && rest.head? = some '\'' then goOn (['\''], s.advance 2)
        else .ok ([], s.forward)
      else if isWhite c then do goOn (← s.quotedSpace)
      else if c = '\\' && quote = '"' then do goOn (← s.forward.escapeSequence)
      else goOn ([c], s.forward)

/-- A quoted scalar. -/
def quotedScalar (s : Scan) (quote : Char) : Except Problem Scan := do
  let s ← s.saveKey
  let (text, s) ← quotedText quote (s.rest.length + 1) { s with keyAllowed := false }.forward
  return s.emit (.scalar false (String.ofList text))

/-- Whether a plain scalar may start here. -/
def startsPlain (s : Scan) : Bool :=
  match s.rest with
  | [] => false
  | c :: rest =>
    let indicators := "-?:,[]\x7b\x7d#&*!|>'\"%@`".toList
    (!isWhite c && !indicators.contains c) ||
      (!startsWhite rest && (c = '-' || (s.flow = 0 && (c = '?' || c = ':'))))

/-- Read the next token, in front of which the scan stands. -/
def token (s : Scan) : Except Problem Scan :=
  let inFlow := s.flow ≠ 0
  if s.column = 0 && startsMarker s.rest then
    s.marker (if s.rest.head? = some '-' then .documentStart else .documentEnd)
  else match s.rest with
    | '[' :: _ => s.openFlow .flowSequenceStart
    | '\x7b' :: _ => s.openFlow .flowMappingStart
    | ']' :: _ => s.closeFlow .flowSequenceEnd
    | '\x7d' :: _ => s.closeFlow .flowMappingEnd
    | ',' :: _ => s.entryInFlow
    | '\'' :: _ => s.quotedScalar '\''
    | '"' :: _ => s.quotedScalar '"'
    | c :: rest =>
      if c = '-' && startsWhite rest then s.entryInBlock
      else if c = '?' && (inFlow || startsWhite rest) then s.explicitKey
      else if c = ':' && (inFlow || startsWhite rest) then s.valueMark
      else if s.startsPlain then s.plainScalar
      else malformed
    | [] => malformed

/-- Read all tokens. The fuel is more than the length of the text ahead. -/
def run : Nat → Scan → Except Problem (List Token)
  | 0, _ => malformed
  | fuel + 1, s => do
    let s ← (skip (s.rest.length + 1) s).dropStale
    if s.rest.isEmpty then return (← s.boundary).tokens
    else run fuel (← (s.unwind (some s.column)).token)

end Scan

/-- The tokens of a text. -/
def tokens (cs : List Char) : Except Problem (List Token) :=
  if !cs.all isReadable then malformed
  else
    let rest := match cs with
      | '\uFEFF' :: rest => rest
      | rest => rest
    Scan.run (rest.length + 1) { rest }

end TreeStore.Yaml
