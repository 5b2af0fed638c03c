import TreeStore.Failure

/-!
# Message templates

Templates hold placeholders that start with a percent sign: `%s` shows a value, `%r` its literal and
`%d` an integer, each perhaps with flags, a width and a precision; two percent signs side by side
show one. A template is first cut into pieces, in which a fault of the template is a piece of its
own; so a lack of values in front of the fault is reported first.
-/

namespace TreeStore.Template

/-- A placeholder. -/
structure Placeholder where
  /-- The name of the field that is shown, of the single object that is given. -/
  key : Option String := none
  /-- Fill up behind the text and not in front of it. -/
  left : Bool := false
  /-- Write a plus sign in front of a number that is not negative. -/
  plus : Bool := false
  /-- Write a blank in front of a number that is not negative. -/
  blank : Bool := false
  /-- Mark the base of a number. -/
  marked : Bool := false
  /-- Fill numbers up with zeros. -/
  zero : Bool := false
  /-- The least width. -/
  width : Nat := 0
  /-- The greatest length of a text, or the least count of digits. -/
  precision : Option Nat := none
  /-- The letter that tells the kind. -/
  kind : Char := 's'
  /-- Where that letter stands. -/
  position : Nat := 0
  deriving Repr, Inhabited

/-- A part of a template. -/
inductive Piece
  /-- A character that shows as itself. -/
  | literal (c : Char)
  /-- A placeholder. -/
  | placeholder (p : Placeholder)
  /-- The template breaks off. -/
  | fault (f : ArgumentFault)

/-- What may still come in a placeholder. -/
inductive Phase
  | start
  | key (depth : Nat) (seen : List Char)
  | flags
  | width
  | precision
  | kind

/-- Where the reading of a template stands. -/
inductive Stage
  | outside
  | inside (phase : Phase) (p : Placeholder)

/-- The placeholder with a flag set, if the character is one. -/
def flag? (p : Placeholder) : Char → Option Placeholder
  | '-' => some { p with left := true }
  | '+' => some { p with plus := true }
  | ' ' => some { p with blank := true }
  | '#' => some { p with marked := true }
  | '0' => some { p with zero := true }
  | _ => none

/-- The value of a decimal digit. -/
def digit (c : Char) : Nat := c.toNat - '0'.toNat

/-- What comes after a placeholder's flags: width, precision, a size letter, kind. -/
def further (phase : Phase) (p : Placeholder) (position : Nat) (c : Char) : Piece ⊕ Stage :=
  let widthNext := match phase with
    | .start | .flags | .width => true
    | _ => false
  let sizeNext := match phase with
    | .kind => false
    | _ => true
  if widthNext && c.isDigit then .inr (.inside .width { p with width := 10 * p.width + digit c })
  else if widthNext && c = '.' then .inr (.inside .precision { p with precision := some 0 })
  else match phase, c.isDigit, p.precision with
    | .precision, true, some n =>
      .inr (.inside .precision { p with precision := some (10 * n + digit c) })
    | _, _, _ =>
      if sizeNext && (c = 'h' || c = 'l' || c = 'L') then .inr (.inside .kind p)
      else .inl (.placeholder { p with kind := c, position })

/-- One character of a template: a piece or a new stage. -/
def advance (position : Nat) (c : Char) : Stage → Piece ⊕ Stage
  | .outside => if c = '%' then .inr (.inside .start {}) else .inl (.literal c)
  | .inside .start p =>
    if c = '%' then .inl (.literal '%')
    else if c = '(' then .inr (.inside (.key 1 []) p)
    else match flag? p c with
      | some p => .inr (.inside .flags p)
      | none => further .start p position c
  | .inside (.key depth seen) p =>
    if c = ')' then
      if depth = 1 then .inr (.inside .flags { p with key := some (String.ofList seen.reverse) })
      else .inr (.inside (.key (depth - 1) (c :: seen)) p)
    else .inr (.inside (.key (if c = '(' then depth + 1 else depth) (c :: seen)) p)
  | .inside .flags p => match flag? p c with
    | some p => .inr (.inside .flags p)
    | none => further .flags p position c
  | .inside phase p => further phase p position c

/-- The pieces of a template from a position on. -/
def piecesFrom (position : Nat) : Stage → List Char → List Piece
  | .outside, [] => []
  | .inside (.key ..) _, [] => [.fault (.other "incomplete format key")]
  | .inside _ _, [] => [.fault .openPlaceholder]
  | stage, c :: cs =>
    match advance position c stage with
    | .inl piece => piece :: piecesFrom (position + 1) .outside cs
    | .inr stage => piecesFrom (position + 1) stage cs

/-- The pieces of a template. -/
def pieces (template : String) : List Piece := piecesFrom 0 .outside template.toList

/-- The values that a template is filled with. -/
structure Supply where
  /-- The values that are left. -/
  values : List Value
  /-- The single object that fields are taken from, if there is one; it need not be used up. -/
  object : Option Fields

/-- The supply for a message: a single object that is not empty also serves by its fields. -/
def Supply.of : List Value → Supply
  | [.object (f :: fs)] => ⟨[.object (f :: fs)], some (f :: fs)⟩
  | values => ⟨values, none⟩

/-- The value for a placeholder and the supply after it. An object that served by a field is not
shown as a whole any more. -/
def Supply.take (supply : Supply) (key : Option String) : Except Problem (Value × Supply) :=
  match key, supply.object with
  | some name, some fields => match Fields.get? fields (.str name) with
    | some v => .ok (v, { supply with values := [] })
    | none => .error (.missingKey name)
  | some _, none => .error .wrongType
  | none, _ => match supply.values with
    | v :: rest => .ok (v, { supply with values := rest })
    | [] => .error .wrongType

/-- Fill a text up to the width of a placeholder with blanks. -/
def pad (p : Placeholder) (cs : List Char) : List Char :=
  if p.left then cs ++ List.replicate (p.width - cs.length) ' ' else Digits.fill ' ' p.width cs

/-- A text in a placeholder. -/
def textIn (p : Placeholder) (s : String) : List Char :=
  pad p (match p.precision with
    | some n => s.toList.take n
    | none => s.toList)

/-- A number in a placeholder, by its sign, the mark of its base and its digits. -/
def numberIn (p : Placeholder) (negative : Bool) (mark digits : List Char) : List Char :=
  let digits := Digits.fill '0' (p.precision.getD 0) digits
  let sign := if negative then ['-'] else if p.plus then ['+'] else if p.blank then [' '] else []
  let head := sign ++ if p.marked then mark else []
  if p.zero && !p.left then head ++ Digits.fill '0' (p.width - head.length) digits
  else pad p (head ++ digits)

/-- The integer that a value is worth; fractions are cut off where that is allowed. -/
def integer (fractions : Bool) : Value → Except Problem Int
  | .int n => .ok n
  | .bool b => .ok (if b then 1 else 0)
  | .float x =>
    if !fractions then .error .wrongType
    else if x.isFinite then .ok x.truncate
    else if x.isNaN then .error (.argument .undefinedNumber)
    else .error (.outOfRange .infiniteNumber)
  | _ => .error .wrongType

/-- A value in a placeholder. -/
def valueIn (p : Placeholder) (v : Value) : Except Problem (List Char) :=
  let number (fractions : Bool) (mark : List Char) (digits : Nat → List Char) :=
    (integer fractions v).map fun n => numberIn p (n < 0) mark (digits n.natAbs)
  match p.kind with
  | 's' => .ok (textIn p v.display)
  | 'r' => .ok (textIn p v.literal)
  | 'd' | 'i' | 'u' => number true [] Digits.decimal
  | 'x' => number false ['0', 'x'] (Digits.hex .lower 0)
  | 'X' => number false ['0', 'X'] (Digits.hex .upper 0)
  | 'o' => number false ['0', 'o'] (Nat.toDigits 8)
  | kind => .error (.argument (.unknownPlaceholder kind p.position))

/-- The text of pieces. All values have to be used up, unless they are a single object. -/
def render : List Piece → Supply → Except Problem (List Char)
  | [], supply =>
    if supply.values.isEmpty || supply.object.isSome then .ok [] else .error .wrongType
  | .literal c :: rest, supply => (render rest supply).map (c :: ·)
  | .fault f :: _, _ => .error (.argument f)
  | .placeholder p :: rest, supply => do
    let (v, supply) ← supply.take p.key
    let shown ← valueIn p v
    return shown ++ (← render rest supply)

/-- A message: the template filled with values, or as it is if there are none. -/
def message (template : String) (values : List Value) : Except Problem String :=
  if values.isEmpty then .ok template
  else (render (pieces template) (.of values)).map String.ofList

end TreeStore.Template
