/-!
# Stable sorting

Insertion sort by a given order. Entries that the order does not tell apart keep their places, and
the result holds the same entries as the input.
-/

namespace TreeStore.Sorting

/-- Put an entry in front of the first one that it may precede. -/
def insertBy {α : Type} (le : α → α → Bool) (x : α) : List α → List α
  | [] => [x]
  | y :: ys => if le x y then x :: y :: ys else y :: insertBy le x ys

/-- The entries in order; equal ones stay in the order of the input. -/
def sortBy {α : Type} (le : α → α → Bool) : List α → List α
  | [] => []
  | x :: xs => insertBy le x (sortBy le xs)

/-- The order of texts by the code points of their characters. -/
def textLe (a b : String) : Bool := !decide (b < a)

/-- Texts in the order of their code points. -/
def sortTexts (xs : List String) : List String := sortBy textLe xs

/-- Insertion loses nothing and adds the entry once. -/
theorem insertBy_perm {α : Type} (le : α → α → Bool) (x : α) (xs : List α) :
    (insertBy le x xs).Perm (x :: xs) := by
  induction xs with
  | nil => exact .refl _
  | cons y ys ih =>
    rw [insertBy]
    split
    · exact .refl _
    · exact (ih.cons y).trans (.swap x y ys)

/-- Sorting rearranges the entries. -/
theorem sortBy_perm {α : Type} (le : α → α → Bool) (xs : List α) : (sortBy le xs).Perm xs := by
  induction xs with
  | nil => exact .refl _
  | cons x xs ih => exact (insertBy_perm le x _).trans (ih.cons x)

end TreeStore.Sorting
