import TreeStore.Value

/-!
# Node paths

A path is the root, written as one separator, or a chain of segments with a separator in front of
each. Nothing is resolved: a segment that says "here" or "one up" is refused, as are control
characters, private use characters and specials. This module checks paths, takes them apart and
joins them; the checks report the first fault in a fixed order.
-/

namespace TreeStore.Path

/-- What may be wrong with a path. -/
inductive Fault
  /-- It is not a text. -/
  | notText
  /-- It has no characters. -/
  | empty
  /-- It does not start with a separator. -/
  | unrooted
  /-- It ends with a separator that is not allowed. -/
  | trailing
  /-- The character at this position is the null character. -/
  | null (position : Nat)
  /-- The character at this position is forbidden. -/
  | forbidden (position : Nat)
  /-- Two separators stand side by side. -/
  | emptySegment
  /-- A segment is relative to another one. -/
  | relative
  deriving DecidableEq, Repr

/-- The reason that is reported for a fault. -/
def Fault.reason : Fault → String
  | notText => "path must be a string"
  | empty => "path length must be > 0"
  | unrooted => "path must start with / character"
  | trailing => "path must not end with / character"
  | null i => "null character not allowed @" ++ toString i
  | forbidden i => "invalid character @" ++ toString i
  | emptySegment => "empty node name specified"
  | relative => "relative paths not allowed"

/-- The character between segments. -/
def separator : Char := '/'

/-- The path of the topmost node. -/
def root : String := "/"

/-- Characters other than the null character that no path may hold: control characters, private use
characters and specials. -/
def isForbidden (c : Char) : Bool :=
  let n := c.toNat
  (0x1 ≤ n && n ≤ 0x1f) || (0x7f ≤ n && n ≤ 0x9f) || (0xd800 ≤ n && n ≤ 0xf8ff) ||
    (0xfff0 ≤ n && n ≤ 0xffff)

/-- The texts between separators, with the empty ones. -/
def pieces : List Char → List (List Char)
  | [] => [[]]
  | c :: cs =>
    if c = separator then [] :: pieces cs
    else match pieces cs with
      | [] => [[c]]
      | p :: ps => (c :: p) :: ps

/-- What is wrong with a segment because of its length or because it is relative. -/
def segmentFault? (segment : List Char) : Option Fault :=
  if segment = [] then some .emptySegment
  else if segment = ['.'] ∨ segment = ['.', '.'] then some .relative
  else none

/-- Whether a text ends with a separator. -/
def endsOpen (p : List Char) : Bool := p.getLast? = some separator

/-- The first fault of the text behind the separator that a path starts with. -/
def tailFault? (p : List Char) (segments : List (List Char)) : Option Fault :=
  match p.findIdx? (·.toNat = 0) with
  | some i => some (.null i)
  | none => match p.findIdx? isForbidden with
    | some i => some (.forbidden i)
    | none => segments.findSome? segmentFault?

/-- The first fault of a path. If `isOpen`, a single separator may end it, for a counter to follow.
-/
def fault? (isOpen : Bool) : List Char → Option Fault
  | [] => some .empty
  | c :: cs =>
    if c ≠ separator then some .unrooted
    else if cs = [] then none
    else if endsOpen cs then
      if isOpen then tailFault? (c :: cs) (pieces cs).dropLast else some .trailing
    else tailFault? (c :: cs) (pieces cs)

/-- The names along a path, from the top; the root has none. -/
def segmentChars (p : List Char) : List (List Char) := (pieces p).filter (· ≠ [])

/-- What stands before the last separator, or the root if nothing does. -/
def parentChars (p : List Char) : List Char :=
  match ((p.reverse.dropWhile (· ≠ separator)).drop 1).reverse with
  | [] => [separator]
  | q => q

/-- What stands behind the last separator. -/
def leafChars (p : List Char) : List Char := (p.reverse.takeWhile (· ≠ separator)).reverse

/-- A text without the separators at its ends. -/
def strip (p : List Char) : List Char :=
  ((p.dropWhile (· = separator)).reverse.dropWhile (· = separator)).reverse

/-- The stripped texts that are not empty, each behind a separator; the root if there is none. -/
def joinChars (ps : List (List Char)) : List Char :=
  separator :: [separator].intercalate ((ps.map strip).filter (· ≠ []))

/-- The beginnings of a text that end in front of a separator other than the first character, and
the text itself; the shortest comes first. -/
def prefixChars : List Char → List (List Char)
  | [] => []
  | c :: cs => go [c] cs
where
  /-- The beginnings that extend the characters seen so far, which are held in reverse. -/
  go (seen : List Char) : List Char → List (List Char)
    | [] => [seen.reverse]
    | c :: cs => if c = separator then seen.reverse :: go (c :: seen) cs else go (c :: seen) cs

/-- The position of the last separator in front of a position. -/
def lastSeparator? (p : List Char) : Nat → Option Nat
  | 0 => none
  | n + 1 => if p[n]? = some separator then some n else lastSeparator? p n

/-- The separator that is found stands in front of the position. -/
theorem lastSeparator?_lt {p : List Char} {position found : Nat}
    (h : lastSeparator? p position = some found) : found < position := by
  induction position with
  | zero => cases h
  | succ n ih =>
    rw [lastSeparator?] at h
    split at h
    · injection h with he
      omega
    · exact Nat.lt_succ_of_lt (ih h)

/-- The position of the first separator that is not in front of a position. -/
def nextSeparator? (p : List Char) (position : Nat) : Option Nat :=
  ((p.drop position).findIdx? (· = separator)).map (position + ·)

/-- The separator that is found does not stand in front of the position. -/
theorem le_of_nextSeparator? {p : List Char} {position found : Nat}
    (h : nextSeparator? p position = some found) : position ≤ found := by
  obtain ⟨offset, -, rfl⟩ := Option.map_eq_some_iff.mp h
  exact Nat.le_add_right position offset

/-- What a walk upwards visits: what stands in front of its position, which moves on to the last
separator before it as long as it has not come to the front. -/
def upwardChars (p : List Char) (position : Nat) : List (List Char) :=
  if position = 0 then []
  else p.take position :: match _h : lastSeparator? p position with
    | none => []
    | some found => upwardChars p found
termination_by position
decreasing_by exact lastSeparator?_lt _h

/-- What a walk downwards visits: its position moves on to the next separator behind it, or else to
the end, where it comes only if all of the text is wanted. -/
def downwardChars (p : List Char) (whole : Bool) (position : Nat) : List (List Char) :=
  if position < p.length then
    match _h : nextSeparator? p (position + 1) with
    | none => if whole then [p] else []
    | some found => p.take found :: downwardChars p whole found
  else []
termination_by p.length - position
decreasing_by
  have := le_of_nextSeparator? _h
  omega

/-- The last ten characters, which are the counter of a sequential path; all of a shorter text. -/
def suffixChars (p : List Char) : List Char := p.drop (p.length - 10)

/-- The first fault of a path. -/
def fault (p : String) (isOpen : Bool) : Option Fault := fault? isOpen p.toList

/-- The names along a path, from the top. -/
def segments (p : String) : List String := (segmentChars p.toList).map String.ofList

/-- The path of the node above; the root is above itself. -/
def parent (p : String) : String := String.ofList (parentChars p.toList)

/-- The last name of a path; the root has the empty one. -/
def leaf (p : String) : String := String.ofList (leafChars p.toList)

/-- Join texts to one path. Separators at the ends of each are dropped and empty texts are left out,
so that one separator stands between any two of them. -/
def join (ps : List String) : String := String.ofList (joinChars (ps.map String.toList))

/-- The paths from the topmost node below the root down to the given one; the root alone for the
root. -/
def prefixes (p : String) : List String := (prefixChars p.toList).map String.ofList

/-- The paths from the given one up to the topmost node below the root; the root alone for the root.
-/
def upwards (p : String) : List String := (upwardChars p.toList p.toList.length).map String.ofList

/-- The paths below a node on the way to the given path, of which the last is left out unless the
whole path is wanted. The node is given by the length of its path, zero for the root. -/
def downwards (p : String) (whole : Bool) (position : Nat) : List String :=
  (downwardChars p.toList whole position).map String.ofList

/-- How deep a path lies, by the number of its separators. -/
def depth (p : String) : Nat := p.toList.count separator

/-- The counter at the end of a sequential path. -/
def sequentialSuffix (p : String) : String := String.ofList (suffixChars p.toList)

example : segments "/a/b" = ["a", "b"] ∧ segments "/" = [] := by decide

example : parent "/a/b" = "/a" ∧ parent "/a" = "/" ∧ parent "/" = "/" := by decide

example : prefixes "/a/b" = ["/a", "/a/b"] ∧ prefixes "/" = ["/"] := by decide

example : join ["/a/", "", "//", "b//c/"] = "/a/b//c" ∧ join [] = "/" := by decide

example : fault "/a//b" false = some .emptySegment ∧ fault "/a/" true = none := by decide

-- To compare two paths, lemmas about these are used; their characters are not computed.
attribute [irreducible] segments parent leaf join prefixes

end TreeStore.Path
