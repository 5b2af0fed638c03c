import TreeStore.Operation.Listing
import TreeStore.Proofs.Path.Counter
import Mathlib.Data.List.Sort
import Mathlib.Data.String.Basic

/-!
# The order of names

Names are listed in the order of their code points. Decimal digits of a fixed width are in the order
of the numbers that they stand for, so that names which differ in such digits at their end are
listed in the order of these numbers.
-/

namespace TreeStore

namespace Digits

/-- Zeros in front of a number do not change it. -/
@[simp] theorem ofDecimal_padded (width n : Nat) : ofDecimal (padded width n) = n := by
  have hzeros : ∀ k, Nat.ofDigitChars 10 (List.replicate k '0') 0 = 0 := by
    intro k
    induction k with
    | zero => rfl
    | succ k ih => exact ih
  rw [ofDecimal, padded, fill, Nat.ofDigitChars_append, hzeros]
  exact ofDecimal_decimal n

/-- A number below the power of ten fits into the width. -/
theorem length_padded {width n : Nat} (hn : n < Nat.pow 10 width) (hwidth : 0 < width) :
    (padded width n).length = width := by
  have h := (Nat.length_toDigits_le_iff (by decide) hwidth).mpr hn
  rw [padded, length_fill, decimal]
  omega

/-- The first digit of a number counts most. -/
private theorem ofDecimal_cons (c : Char) (cs : List Char) :
    ofDecimal (c :: cs) = 10 ^ cs.length * (c.toNat - '0'.toNat) + ofDecimal cs := by
  rw [ofDecimal, Nat.ofDigitChars_cons, Nat.ofDigitChars_eq_ofDigitChars_zero, Nat.mul_zero,
    Nat.zero_add]
  rfl

private theorem toNat_of_isDigit {c : Char} (h : c.isDigit = true) :
    '0'.toNat ≤ c.toNat ∧ c.toNat ≤ '0'.toNat + 9 := by
  simpa [Char.isDigit, UInt32.le_iff_toNat_le] using h

/-- Digits count for less than one more digit can. -/
private theorem ofDecimal_lt {cs : List Char} (h : ∀ c ∈ cs, c.isDigit = true) :
    ofDecimal cs < 10 ^ cs.length := by
  induction cs with
  | nil => decide
  | cons c cs ih =>
    rw [List.forall_mem_cons] at h
    have hc := (toNat_of_isDigit h.1).2
    have hcs := ih h.2
    have hle : 10 ^ cs.length * (c.toNat - '0'.toNat) ≤ 10 ^ cs.length * 9 :=
      Nat.mul_le_mul_left _ (by omega)
    rw [ofDecimal_cons, List.length_cons, Nat.pow_succ]
    omega

/-- Of two texts of digits of one length, the one for the smaller number comes first. -/
theorem lt_of_ofDecimal_lt {a b : List Char} (hlength : a.length = b.length)
    (ha : ∀ c ∈ a, c.isDigit = true) (hb : ∀ c ∈ b, c.isDigit = true)
    (h : ofDecimal a < ofDecimal b) : a < b := by
  induction a generalizing b with
  | nil =>
    obtain rfl := List.length_eq_zero_iff.mp hlength.symm
    exact absurd h (Nat.lt_irrefl _)
  | cons c a ih =>
    cases b with
    | nil => cases hlength
    | cons d b =>
      have hrest : a.length = b.length := Nat.succ.inj hlength
      rw [List.forall_mem_cons] at ha hb
      rw [ofDecimal_cons, ofDecimal_cons, hrest] at h
      rcases Nat.lt_trichotomy c.toNat d.toNat with hcd | hcd | hcd
      · exact List.cons_lt_cons_iff.mpr (.inl hcd)
      · obtain rfl := Char.toNat_inj.mp hcd
        exact List.cons_lt_cons_self.mpr (ih hrest ha.2 hb.2 (by omega))
      · -- A larger first digit outweighs all the others.
        have hvb := ofDecimal_lt hb.2
        have hd := (toNat_of_isDigit hb.1).1
        have hle : 10 ^ b.length * (d.toNat - '0'.toNat + 1) ≤
            10 ^ b.length * (c.toNat - '0'.toNat) := Nat.mul_le_mul_left _ (by omega)
        rw [Nat.mul_add] at hle
        omega

/-- Within the width, the digits of numbers are in the order of the numbers. -/
theorem padded_lt_padded {width a b : Nat} (hwidth : 0 < width) (hab : a < b)
    (hb : b < Nat.pow 10 width) : padded width a < padded width b := by
  refine lt_of_ofDecimal_lt ?_ (isCounter_padded width a).isDigit (isCounter_padded width b).isDigit
    (by simpa using hab)
  rw [length_padded (hab.trans hb) hwidth, length_padded hb hwidth]

end Digits

namespace Sorting

private theorem insertBy_eq {α : Type} (le : α → α → Bool) (x : α) (xs : List α) :
    insertBy le x xs = xs.orderedInsert (fun a b => le a b = true) x := by
  induction xs with
  | nil => rfl
  | cons y ys ih => rw [insertBy, List.orderedInsert_cons, ih]

/-- Sorting by insertion is the library's. -/
theorem sortBy_eq {α : Type} (le : α → α → Bool) (xs : List α) :
    sortBy le xs = xs.insertionSort fun a b => le a b = true := by
  induction xs with
  | nil => rfl
  | cons x xs ih => rw [sortBy, ih, insertBy_eq, List.insertionSort_cons]

/-- Sorting puts the entries in order, if they have one. -/
theorem pairwise_sortBy {α : Type} {le : α → α → Bool}
    (total : ∀ a b, le a b = true ∨ le b a = true)
    (trans : ∀ a b c, le a b = true → le b c = true → le a c = true) (xs : List α) :
    (sortBy le xs).Pairwise fun a b => le a b = true := by
  have : Std.Total fun a b => le a b = true := ⟨total⟩
  have : IsTrans α fun a b => le a b = true := ⟨trans⟩
  rw [sortBy_eq]
  exact List.pairwise_insertionSort _ xs

/-- Texts are compared by the order on them. -/
theorem textLe_eq_true {a b : String} : textLe a b = true ↔ a ≤ b := by
  rw [textLe, Bool.not_eq_true', decide_eq_false_iff_not, not_lt]

/-- Texts are sorted by the order on them. -/
theorem sortTexts_eq (xs : List String) : sortTexts xs = xs.insertionSort (· ≤ ·) := by
  rw [sortTexts, sortBy_eq]
  simp only [textLe_eq_true]

/-- Sorted texts are in order. -/
theorem sortedLE_sortTexts (xs : List String) : (sortTexts xs).SortedLE := by
  rw [sortTexts_eq]
  exact List.sortedLE_insertionSort

/-- Sorting neither adds nor drops a text. -/
theorem mem_sortTexts {x : String} {xs : List String} : x ∈ sortTexts xs ↔ x ∈ xs :=
  (sortBy_perm _ _).mem_iff

/-- The order in which texts are given makes no difference. -/
theorem sortTexts_eq_of_perm {xs ys : List String} (h : xs.Perm ys) : sortTexts xs = sortTexts ys :=
  List.Perm.eq_of_sortedLE (sortedLE_sortTexts xs) (sortedLE_sortTexts ys)
    ((sortBy_perm _ _).trans (h.trans (sortBy_perm _ _).symm))

/-- Some of the texts, if they are in order, are found in this order among all. -/
theorem sublist_sortTexts {xs ys : List String} (hsub : xs ⊆ ys) (h : xs.Pairwise (· < ·)) :
    xs.Sublist (sortTexts ys) := by
  have hperm : xs.Subperm (sortTexts ys) :=
    List.subperm_of_subset (h.imp ne_of_lt) fun x hx => mem_sortTexts.mpr (hsub hx)
  exact List.sublist_of_subperm_of_sortedLE hperm (h.imp le_of_lt).sortedLE (sortedLE_sortTexts ys)

end Sorting

namespace Value

private theorem insertSorted?_str (x : String) (xs : List String) :
    insertSorted? (.str x) (xs.map .str) =
      some ((Sorting.insertBy Sorting.textLe x xs).map .str) := by
  induction xs with
  | nil => rfl
  | cons y ys ih =>
    simp only [List.map_cons, insertSorted?, before?, Sorting.insertBy, Sorting.textLe, ih]
    by_cases h : y < x <;> simp [h]

/-- Texts among values are sorted like texts. -/
theorem sort?_str (xs : List String) :
    sort? (xs.map .str) = some ((Sorting.sortTexts xs).map .str) := by
  rw [Sorting.sortTexts]
  induction xs with
  | nil => rfl
  | cons x xs ih =>
    rw [List.map_cons, sort?, ih, Sorting.sortBy]
    exact insertSorted?_str x _

end Value

/-- An ordered listing puts names in order. -/
theorem Listing.ordered_list (names : List String) :
    Listing.ordered (.list (names.map .str)) =
      .ok (.list ((Sorting.sortTexts names).map .str)) := by
  rw [Listing.ordered, Value.members?, Option.bind_some, Value.sort?_str]

end TreeStore
