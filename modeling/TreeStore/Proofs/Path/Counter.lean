import TreeStore.Memory
import TreeStore.Proofs.Path.Ancestry

/-!
# Paths with a counter behind them

A counter is appended to a requested path, which may end with a separator. The result is a valid
path with the same parent as the requested one: the counter only makes the last name longer, or is
the name itself.
-/

namespace TreeStore

/-- A counter has digits and nothing else. -/
structure Digits.IsCounter (d : List Char) : Prop where
  /-- It has digits. -/
  ne_nil : d ≠ []
  /-- It has nothing else. -/
  isDigit : ∀ c ∈ d, c.isDigit = true

/-- Padded digits are a counter. -/
theorem Digits.isCounter_padded (width n : Nat) : IsCounter (padded width n) where
  ne_nil := by simp [padded, fill, decimal]
  isDigit := by
    intro c hc
    simp only [padded, fill, decimal, List.mem_append, List.mem_replicate] at hc
    rcases hc with ⟨-, rfl⟩ | hc
    · decide
    · exact Nat.isDigit_of_mem_toDigits (by decide) (by decide) hc

namespace Path

private theorem digit_allowed {c : Char} (h : c.isDigit = true) :
    c.toNat ≠ 0 ∧ isForbidden c = false := by
  simp only [Char.isDigit, Bool.and_eq_true, decide_eq_true_eq, ge_iff_le,
    UInt32.le_iff_toNat_le] at h
  have hl : 48 ≤ c.toNat := h.1
  have hu : c.toNat ≤ 57 := h.2
  simp only [isForbidden, Bool.or_eq_false_iff, Bool.and_eq_false_iff, decide_eq_false_iff_not]
  omega

/-- No counter holds a separator. -/
theorem separator_not_mem_counter {d : List Char} (hd : Digits.IsCounter d) : separator ∉ d := by
  intro h
  exact absurd (hd.isDigit _ h) (by decide)

/-- A counter is a name, also behind other allowed characters. -/
theorem isSegment_append_counter {s d : List Char} (hs : separator ∉ s)
    (ha : ∀ c ∈ s, c.toNat ≠ 0 ∧ isForbidden c = false) (hd : Digits.IsCounter d) :
    IsSegment (s ++ d) := by
  have hdot : '.' ∉ d := fun h => absurd (hd.isDigit _ h) (by decide)
  obtain ⟨c, d', rfl⟩ := List.exists_cons_of_ne_nil hd.ne_nil
  have hc : c ∈ s ++ c :: d' := by simp
  have hne : c ≠ '.' := fun h => hdot (by simp [h])
  refine ⟨by simp, ?_, ?_, ?_, ?_⟩
  · rw [List.mem_append, not_or]
    exact ⟨hs, separator_not_mem_counter hd⟩
  · intro x hx
    rcases List.mem_append.mp hx with hx | hx
    · exact ha x hx
    · exact digit_allowed (hd.isDigit x hx)
  · intro he
    rw [he, List.mem_singleton] at hc
    exact hne hc
  · intro he
    simp only [he, List.mem_cons, List.not_mem_nil, or_false, or_self] at hc
    exact hne hc

private theorem isSegment_counter {d : List Char} (hd : Digits.IsCounter d) : IsSegment d := by
  simpa using isSegment_append_counter (s := []) (by simp) (by simp) hd

/-- An accepted request with a counter behind it is a valid path. -/
theorem isValid_append_counter {p : String} (hp : fault p true = none) {d : List Char}
    (hd : Digits.IsCounter d) : IsValid (p ++ String.ofList d) := by
  obtain ⟨segs, hs, he⟩ := fault?_open_eq_none_iff.mp hp
  have hall : ∀ (init : List (List Char)) (l : List Char), (∀ s ∈ init, IsSegment s) →
      IsSegment l → ∀ s ∈ init ++ [l], IsSegment s := by
    intro init l hinit hl s hmem
    rcases List.mem_append.mp hmem with h | h
    · exact hinit s h
    · rwa [List.mem_singleton.mp h]
  rw [← String.ofList_toList (s := p), ← String.ofList_append]
  rcases he with he | ⟨hne, he⟩
  · rcases List.eq_nil_or_concat segs with rfl | ⟨init, l, rfl⟩
    · exact isValid_iff.mpr ⟨[d], by simpa using isSegment_counter hd, by simp [he, spell, chain]⟩
    · rw [List.concat_eq_append] at hs he
      have hl := hs l (by simp)
      refine isValid_iff.mpr ⟨init ++ [l ++ d], hall init _ (fun s h => hs s (by simp [h]))
        (isSegment_append_counter hl.not_mem hl.allowed hd), ?_⟩
      rw [he, spell_concat, spell_concat, List.append_assoc, List.cons_append]
  · refine isValid_iff.mpr ⟨segs ++ [d], hall segs d hs (isSegment_counter hd), ?_⟩
    rw [he, spell_concat, spell_of_ne_nil hne, List.append_assoc]
    rfl

/-- Around its last separator, a text that has one falls into two parts. -/
theorem exists_last_separator {p : List Char} (h : separator ∈ p) :
    ∃ a l, p = a ++ separator :: l ∧ separator ∉ l := by
  obtain ⟨l, a, he, hl⟩ := List.eq_append_cons_of_mem (List.mem_reverse.mpr h)
  refine ⟨a.reverse, l.reverse, ?_, by simpa using hl⟩
  rw [← List.reverse_reverse p, he]
  simp

/-- A path without a fault holds a separator. -/
theorem separator_mem_of_fault {p : String} {isOpen : Bool} (h : fault p isOpen = none) :
    separator ∈ p.toList := by
  rw [fault] at h
  cases hp : p.toList with
  | nil => simp [hp, fault?] at h
  | cons c cs =>
    by_cases hc : c = separator
    · simp [hc]
    · simp [hp, fault?, hc] at h

/-- A counter does not move a node below another one. -/
theorem parent_append_counter {p : String} {isOpen : Bool} (hp : fault p isOpen = none)
    {d : List Char} (hd : Digits.IsCounter d) : parent (p ++ String.ofList d) = parent p := by
  obtain ⟨a, l, he, hl⟩ := exists_last_separator (separator_mem_of_fault hp)
  have hld : separator ∉ l ++ d := by
    rw [List.mem_append, not_or]
    exact ⟨hl, separator_not_mem_counter hd⟩
  rw [parent, parent, String.toList_append, String.toList_ofList, he, List.append_assoc,
    List.cons_append, parentChars_append a hld, parentChars_append a hl]

/-- A counter ends up at the end of the last name. -/
theorem leaf_append_counter {p : String} {isOpen : Bool} (hp : fault p isOpen = none)
    {d : List Char} (hd : Digits.IsCounter d) :
    leaf (p ++ String.ofList d) = leaf p ++ String.ofList d := by
  obtain ⟨a, l, he, hl⟩ := exists_last_separator (separator_mem_of_fault hp)
  have hld : separator ∉ l ++ d := by
    rw [List.mem_append, not_or]
    exact ⟨hl, separator_not_mem_counter hd⟩
  rw [leaf, leaf, String.toList_append, String.toList_ofList, he, List.append_assoc,
    List.cons_append, leafChars_append a hld, leafChars_append a hl, String.ofList_append]

end Path

namespace Memory

/-- A numbered path is valid if its beginning has no fault. -/
theorem isValid_numbered {p : String} (hp : Path.fault p true = none) (n : Nat) :
    Path.IsValid (numbered p n) :=
  Path.isValid_append_counter hp (Digits.isCounter_padded _ n)

/-- The parent of a numbered path is the one of its beginning. -/
theorem parent_numbered {p : String} {isOpen : Bool} (hp : Path.fault p isOpen = none) (n : Nat) :
    Path.parent (numbered p n) = Path.parent p :=
  Path.parent_append_counter hp (Digits.isCounter_padded _ n)

/-- A numbered path is not the root. -/
theorem numbered_ne_root {p : String} {isOpen : Bool} (hp : Path.fault p isOpen = none) (n : Nat) :
    numbered p n ≠ Path.root := by
  intro he
  have h := congrArg Path.leaf he
  rw [numbered, Path.leaf_append_counter hp (Digits.isCounter_padded _ n)] at h
  have hl := congrArg String.toList (h.trans Path.leaf_root)
  simp [(Digits.isCounter_padded counterWidth n).ne_nil] at hl

end Memory

end TreeStore
