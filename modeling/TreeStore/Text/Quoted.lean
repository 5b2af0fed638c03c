import TreeStore.Text.Digits
import TreeStore.Text.Printable

/-!
# Quoted text

The written form of a text inside a message: between quotes, with escapes for the quote, the
backslash and whatever does not print. Single quotes are preferred; double quotes are used for a
text that holds a single quote and no double one, so that quotes seldom need an escape.
-/

namespace TreeStore.Quoted

open Digits Printable

/-- The quote that a text is written between. -/
def quoteOf (cs : List Char) : Char :=
  if cs.contains '\'' && !cs.contains '"' then '"' else '\''

/-- One character as it is written between the given quotes. -/
def escape (quote c : Char) : List Char :=
  if c = quote || c = '\\' then ['\\', c]
  else if c = '\n' then ['\\', 'n']
  else if c = '\r' then ['\\', 'r']
  else if c = '\t' then ['\\', 't']
  else if isPrintable c then [c]
  else if c.toNat < 0x100 then '\\' :: 'x' :: hex .lower 2 c.toNat
  else if c.toNat < 0x10000 then '\\' :: 'u' :: hex .lower 4 c.toNat
  else '\\' :: 'U' :: hex .lower 8 c.toNat

/-- The written form of a text. -/
def encode (cs : List Char) : List Char :=
  let quote := quoteOf cs
  quote :: (cs.flatMap (escape quote) ++ [quote])

/-- The written form of a string. -/
def literal (s : String) : String := String.ofList (encode s.toList)

example : encode ['a', '\'', 'b'] = ['"', 'a', '\'', 'b', '"'] := by decide

example : encode ['\'', '"'] = ['\'', '\\', '\'', '"', '\''] := by decide

end TreeStore.Quoted
