import TreeStore.Number.Double

/-!
# Shortest decimal notation

A finite number is written with the fewest decimal digits that read back as the same number; of
several such texts of one length the nearest to the number is taken. The choice is made in exact
arithmetic: for each count of digits the two neighbours of the number on that decimal grid are
compared with the interval of reals that round to it.
-/

namespace TreeStore.Double

/-- All decimal grids are counted from this negative power of ten. -/
private def finest : Nat := 342

/-- Half of the gap below a finite number, in quarters of the gap above it: the gap is halved where
the exponent changes. -/
private def gapBelow (x : Double) : Nat :=
  if x.fraction = 0 ∧ 1 < x.exponentField then 1 else 2

/-- The digits of a positive finite number on the grid of the given step, if a point of the grid
rounds to the number. Distances are scaled by `4 * unit`. -/
private def onGrid? (x : Double) (step : Nat) : Option Nat :=
  let value := 4 * x.magnitude * Nat.pow 10 finest
  let quarter := Nat.pow 2 x.scale * Nat.pow 10 finest
  let low := value - gapBelow x * quarter
  let high := value + 2 * quarter
  let closed := x.significand % 2 = 0
  let point (d : Nat) := d * step * (4 * unit)
  let inside (d : Nat) : Bool :=
    if closed then low ≤ point d ∧ point d ≤ high else low < point d ∧ point d < high
  let d := value / (step * (4 * unit))
  match inside d, inside (d + 1) with
  | false, false => none
  | true, false => some d
  | false, true => some (d + 1)
  | true, true =>
    let below := value - point d
    let above := point (d + 1) - value
    if below < above then some d
    else if above < below then some (d + 1)
    else if d % 2 = 0 then some d
    else some (d + 1)

/-- The shortest digits of a positive finite number and the power of ten of the last one. -/
def shortest (x : Double) : Nat × Int :=
  let size := (Digits.decimal (x.magnitude * Nat.pow 10 finest / unit)).length
  let found := (List.range 17).findSome? fun i =>
    (onGrid? x (Nat.pow 10 (size - (i + 1)))).map fun d =>
      (d, ((size - (i + 1) : Nat) : Int) - finest)
  found.getD (0, 0)

/-- The digits without the zeros at the end, and how many digits stand before the decimal point. -/
def digitsAndPoint (x : Double) : List Char × Int :=
  let (d, exponent) := x.shortest
  let ds := Digits.decimal d
  ((ds.reverse.dropWhile (· = '0')).reverse, ds.length + exponent)

/-- The text of a number. The decimal point is written in place for exponents from -4 to 15, with at
least one digit on both sides; other numbers have an exponent of at least two digits. -/
def toText (x : Double) : List Char :=
  let sign := if x.isNegative then ['-'] else []
  if x.isNaN then ['n', 'a', 'n']
  else if x.isInfinite then sign ++ ['i', 'n', 'f']
  else if x.isZero then sign ++ ['0', '.', '0']
  else
    let (ds, point) := x.digitsAndPoint
    let exponent := point - 1
    sign ++ if -4 ≤ exponent ∧ exponent < 16 then
      if point ≤ 0 then '0' :: '.' :: (List.replicate (-point).toNat '0' ++ ds)
      else
        let before := ds.take point.toNat
        let after := ds.drop point.toNat
        before ++ List.replicate (point.toNat - before.length) '0' ++
          '.' :: (if after.isEmpty then ['0'] else after)
    else
      let mantissa := match ds with
        | d :: r => d :: (if r.isEmpty then [] else '.' :: r)
        | [] => []
      mantissa ++ 'e' :: (if exponent < 0 then '-' else '+') :: Digits.padded 2 exponent.natAbs

end TreeStore.Double
