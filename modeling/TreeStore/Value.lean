import TreeStore.Number.Shortest
import TreeStore.Text.Quoted

/-!
# Dynamic values

The values that configuration files, log contexts and scripted store answers are made of. A value
has two texts: its literal, in which texts are quoted, and its display, which shows a text as it is.
Numbers of all three kinds compare by what they are worth, a truth value being worth zero or one.
-/

namespace TreeStore

/-- A value whose kind is known only when it is looked at. -/
inductive Value where
  /-- Nothing. -/
  | null
  /-- A truth value. -/
  | bool (b : Bool)
  /-- An integer of any size. -/
  | int (n : Int)
  /-- A floating point number. -/
  | float (x : Double)
  /-- A text. -/
  | str (s : String)
  /-- A sequence. -/
  | list (xs : List Value)
  /-- A sequence that stands for grouped arguments. -/
  | tuple (xs : List Value)
  /-- Keys and their values, in order of insertion. -/
  | object (fields : List (Value × Value))
  deriving Inhabited, Repr

namespace Value

/-- A value counts as true unless it is nothing, zero or empty. -/
def truthy : Value → Bool
  | null => false
  | bool b => b
  | int n => n != 0
  | float x => !x.isZero
  | str s => !s.isEmpty
  | list xs | tuple xs => !xs.isEmpty
  | object fields => !fields.isEmpty

mutual

/-- The text of a value inside of a message, with quoted texts. -/
def literal : Value → String
  | null => "None"
  | bool true => "True"
  | bool false => "False"
  | int n => String.ofList (Digits.signed n)
  | float x => String.ofList x.toText
  | str s => Quoted.literal s
  | list xs => "[" ++ ", ".intercalate (literals xs) ++ "]"
  | tuple [x] => "(" ++ literal x ++ ",)"
  | tuple xs => "(" ++ ", ".intercalate (literals xs) ++ ")"
  | object fields => "\x7b" ++ ", ".intercalate (fieldLiterals fields) ++ "\x7d"

/-- The literals of the members of a sequence. -/
def literals : List Value → List String
  | [] => []
  | x :: xs => literal x :: literals xs

/-- The literals of keys and values, with a colon between them. -/
def fieldLiterals : List (Value × Value) → List String
  | [] => []
  | (k, v) :: rest => (literal k ++ ": " ++ literal v) :: fieldLiterals rest

end

/-- The text of a value on its own: a text as it is, anything else as its literal. -/
def display : Value → String
  | str s => s
  | v => v.literal

mutual

/-- Whether the text of a value would hold an integer with more digits than are written. -/
def isOverlong : Value → Bool
  | int n => Digits.limit < (Digits.decimal n.natAbs).length
  | list xs | tuple xs => anyOverlong xs
  | object fields => anyFieldOverlong fields
  | _ => false

/-- Whether the text of one of some values would be too long. -/
def anyOverlong : List Value → Bool
  | [] => false
  | x :: xs => isOverlong x || anyOverlong xs

/-- Whether the text of a key or of its value would be too long. -/
def anyFieldOverlong : List (Value × Value) → Bool
  | [] => false
  | (k, v) :: rest => isOverlong k || isOverlong v || anyFieldOverlong rest

end

@[simp] theorem isOverlong_null : null.isOverlong = false := by simp [isOverlong]

@[simp] theorem isOverlong_bool (b : Bool) : (bool b).isOverlong = false := by simp [isOverlong]

@[simp] theorem isOverlong_str (s : String) : (str s).isOverlong = false := by simp [isOverlong]

theorem isOverlong_object (fields : List (Value × Value)) :
    (object fields).isOverlong = anyFieldOverlong fields := by
  simp [isOverlong]

/-- Some values are too long to be written if one of them is. -/
theorem anyOverlong_iff {xs : List Value} :
    anyOverlong xs = true ↔ ∃ x ∈ xs, x.isOverlong = true := by
  induction xs with
  | nil => simp [anyOverlong]
  | cons x xs ih => simp [anyOverlong, ih]

/-- What numbers and truth values are worth. -/
inductive Number
  | exact (n : Int)
  | binary (x : Double)

/-- The number that a value is worth, none for other kinds. -/
def number? : Value → Option Number
  | bool b => some (.exact (if b then 1 else 0))
  | int n => some (.exact n)
  | float x => some (.binary x)
  | _ => none

/-- The order of two numbers, none if one of them is undefined. -/
def Number.compare? : Number → Number → Option Ordering
  | .exact a, .exact b => some (compare a b)
  | .binary a, .exact b => a.compareInt? b
  | .exact a, .binary b => (b.compareInt? a).map Ordering.swap
  | .binary a, .binary b => a.compare? b

/-- Whether two values are worth the same number. -/
def sameNumber (a b : Value) : Bool :=
  match a.number?, b.number? with
  | some x, some y => x.compare? y == some .eq
  | _, _ => false

mutual

/-- Equality of values: numbers by worth, sequences member by member, objects regardless of order.
-/
def same : Value → Value → Bool
  | null, b => match b with
    | null => true
    | _ => false
  | str a, b => match b with
    | str c => a == c
    | _ => false
  | list xs, b => match b with
    | list ys => sameAll xs ys
    | _ => false
  | tuple xs, b => match b with
    | tuple ys => sameAll xs ys
    | _ => false
  | object fs, b => match b with
    | object gs => fs.length == gs.length && sameFields fs gs
    | _ => false
  | a, b => sameNumber a b

/-- Equality of sequences. -/
def sameAll : List Value → List Value → Bool
  | [], ys => ys.isEmpty
  | x :: xs, ys => match ys with
    | [] => false
    | y :: ys => same x y && sameAll xs ys

/-- Whether every field is found among the others. -/
def sameFields : List (Value × Value) → List (Value × Value) → Bool
  | [], _ => true
  | (k, v) :: rest, gs => gs.any (fun g => same k g.1 && same v g.2) && sameFields rest gs

end

mutual

/-- Whether a value comes before another, none if their kinds have no order. -/
def before? : Value → Value → Option Bool
  | str a, b => match b with
    | str c => some (decide (a < c))
    | _ => none
  | list xs, b => match b with
    | list ys => beforeAll? xs ys
    | _ => none
  | tuple xs, b => match b with
    | tuple ys => beforeAll? xs ys
    | _ => none
  | a, b => match a.number?, b.number? with
    | some x, some y => some (x.compare? y == some .lt)
    | _, _ => none

/-- The order of sequences: that of their first members that differ, else the shorter one is first.
-/
def beforeAll? : List Value → List Value → Option Bool
  | [], ys => some !ys.isEmpty
  | x :: xs, ys => match ys with
    | [] => some false
    | y :: ys => if same x y then beforeAll? xs ys else before? x y

end

/-- Insert a value behind those that it does not come before; none if two values have no order. -/
def insertSorted? (x : Value) : List Value → Option (List Value)
  | [] => some [x]
  | y :: ys => do
    if ← before? y x then return y :: (← insertSorted? x ys)
    else return x :: y :: ys

/-- The members of a sequence in order; none if two of them have no order. -/
def sort? : List Value → Option (List Value)
  | [] => some []
  | x :: xs => do insertSorted? x (← sort? xs)

/-- What a loop over a value visits: members, characters or keys; none for kinds without members. -/
def members? : Value → Option (List Value)
  | list xs | tuple xs => some xs
  | str s => some (s.toList.map fun c => str (String.singleton c))
  | object fields => some (fields.map Prod.fst)
  | _ => none

/-- Whether two keys name the same field: equal keys, and the undefined number with itself. -/
def sameKey : Value → Value → Bool
  | float x, float y => x.isNaN && y.isNaN || sameNumber (.float x) (.float y)
  | a, b => same a b

end Value

/-- The fields of an object. -/
abbrev Fields := List (Value × Value)

namespace Fields

/-- The value of a field. -/
def get? (fields : Fields) (key : Value) : Option Value :=
  (fields.find? fun f => f.1.sameKey key).map Prod.snd

/-- Set a field: a known key keeps its place, a new one comes last. -/
def put (key value : Value) : Fields → Fields
  | [] => [(key, value)]
  | (k, v) :: rest => if k.sameKey key then (k, value) :: rest else (k, v) :: put key value rest

/-- Remove a field. -/
def remove (key : Value) (fields : Fields) : Fields :=
  fields.filter fun f => !f.1.sameKey key

/-- Fields in the order in which keys first occur, each with its last value. -/
def ofPairs (pairs : List (Value × Value)) : Fields :=
  pairs.foldl (fun acc f => put f.1 f.2 acc) []

end Fields

end TreeStore
