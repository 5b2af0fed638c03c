import TreeStore.Value

/-!
# Writing JSON

Values as JSON in ASCII, either on one line or with a line for each member. Characters outside of
ASCII are escaped, those beyond sixteen bits as surrogate pairs.
-/

namespace TreeStore.Json

open Digits

/-- An escape for a 16-bit unit. -/
def unitEscape (n : Nat) : List Char := '\\' :: 'u' :: hex .lower 4 n

/-- One character inside of a quoted text. -/
def escapeChar (c : Char) : List Char :=
  if c = '"' || c = '\\' then ['\\', c]
  else if c = '\n' then ['\\', 'n']
  else if c = '\r' then ['\\', 'r']
  else if c = '\t' then ['\\', 't']
  else if c = '\x08' then ['\\', 'b']
  else if c = '\x0c' then ['\\', 'f']
  else if ' ' ≤ c ∧ c ≤ '~' then [c]
  else if c.toNat < 0x10000 then unitEscape c.toNat
  else
    let n := c.toNat - 0x10000
    unitEscape (0xD800 + n / 0x400) ++ unitEscape (0xDC00 + n % 0x400)

/-- A quoted text. -/
def quoted (s : String) : List Char := '"' :: (s.toList.flatMap escapeChar ++ ['"'])

/-- A floating point number. -/
def floatText (x : Double) : List Char :=
  if x.isNaN then "NaN".toList
  else if x.isInfinite then (if x.isNegative then "-Infinity" else "Infinity").toList
  else x.toText

/-- How members are separated: all on one line, or each on a line of its own, set in by the depth.
-/
inductive Layout
  | line
  | lines (width : Nat)
  deriving DecidableEq, Repr

/-- What stands in front of a member at some depth. -/
def Layout.gap (depth : Nat) : Layout → List Char
  | line => []
  | lines width => '\n' :: List.replicate (width * depth) ' '

/-- What stands between two members. -/
def Layout.comma (depth : Nat) : Layout → List Char
  | line => [',', ' ']
  | lines width => ',' :: (lines width).gap depth

/-- The name of a field. Names are texts; other keys are written as the text of their value. -/
def keyText : Value → List Char
  | .str s => quoted s
  | .null => quoted "null"
  | .bool b => quoted (if b then "true" else "false")
  | .int n => quoted (String.ofList (signed n))
  | .float x => quoted (String.ofList (floatText x))
  | v => quoted v.literal

mutual

/-- A value at some depth. -/
def render (layout : Layout) (depth : Nat) : Value → List Char
  | .null => "null".toList
  | .bool b => (if b then "true" else "false").toList
  | .int n => signed n
  | .float x => floatText x
  | .str s => quoted s
  | .list [] | .tuple [] => ['[', ']']
  | .list xs | .tuple xs =>
    '[' :: (layout.gap (depth + 1) ++
      (layout.comma (depth + 1)).intercalate (renderAll layout (depth + 1) xs) ++
      layout.gap depth ++ [']'])
  | .object [] => ['\x7b', '\x7d']
  | .object fields =>
    '\x7b' :: (layout.gap (depth + 1) ++
      (layout.comma (depth + 1)).intercalate (renderFields layout (depth + 1) fields) ++
      layout.gap depth ++ ['\x7d'])

/-- The members of an array. -/
def renderAll (layout : Layout) (depth : Nat) : List Value → List (List Char)
  | [] => []
  | x :: xs => render layout depth x :: renderAll layout depth xs

/-- The fields of an object. -/
def renderFields (layout : Layout) (depth : Nat) : List (Value × Value) → List (List Char)
  | [] => []
  | (k, v) :: rest =>
    (keyText k ++ ':' :: ' ' :: render layout depth v) :: renderFields layout depth rest

end

/-- A value on one line. -/
def compact (v : Value) : String := String.ofList (render .line 0 v)

/-- A value with each member on a line of its own, set in by two blanks. -/
def indented (v : Value) : String := String.ofList (render (.lines 2) 0 v)

end TreeStore.Json
