import TreeStore.Value

/-!
# Time of day

Moments are seconds since the beginning of 1970 in universal time; the clock shows hours, minutes
and seconds.
-/

namespace TreeStore.Clock

/-- The whole seconds of a moment that is given as a number; other values count as the beginning. -/
def seconds : Value → Int
  | .int n => n
  | .bool b => if b then 1 else 0
  | .float x => x.floor
  | _ => 0

/-- Hours, minutes and seconds of a moment, two digits each. -/
def timeOfDay (moment : Int) : String :=
  let s := (moment % 86400).toNat
  let two (n : Nat) := Digits.padded 2 n
  String.ofList (two (s / 3600) ++ ':' :: (two (s / 60 % 60) ++ ':' :: two (s % 60)))

example : timeOfDay 45296 = "12:34:56" ∧ timeOfDay (-1) = "23:59:59" := by decide

end TreeStore.Clock
