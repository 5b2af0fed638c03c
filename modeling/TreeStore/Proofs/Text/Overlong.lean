import TreeStore.Value
import Mathlib.Algebra.Group.Nat.Defs

/-!
# Numbers that are too long to be written

How large an integer has to be for its digits to be too many.
-/

namespace TreeStore

/-- A power of two that has more digits. -/
theorem Digits.limit_le_two_pow : 10 ^ Digits.limit ≤ 2 ^ 14400 := by
  have hlimit : Digits.limit = 43 * 100 := rfl
  have hpower : 14400 = 144 * 100 := rfl
  rw [hlimit, hpower, Nat.pow_mul 10 43 100, Nat.pow_mul 2 144 100]
  exact Nat.pow_le_pow_left (by decide) 100

/-- An integer has too many digits from the power of ten on, whatever its sign. -/
theorem Value.isOverlong_int {n : Int} :
    (Value.int n).isOverlong = decide (10 ^ Digits.limit ≤ n.natAbs) := by
  have hlength : (Digits.decimal n.natAbs).length ≤ Digits.limit ↔ n.natAbs < 10 ^ Digits.limit :=
    Nat.length_toDigits_le_iff (by decide) (by decide)
  rw [Value.isOverlong, decide_eq_decide]
  omega

/-- An integer with too many digits. -/
theorem Value.isOverlong_two_pow : (Value.int (2 ^ 14400 : Nat)).isOverlong = true :=
  isOverlong_int.trans (decide_eq_true Digits.limit_le_two_pow)

end TreeStore
