import TreeStore.Proofs.Path.Ancestry

/-!
# Walks along a path

A walk has one position in the text of a path and moves it from separator to separator. Upwards it
visits the paths that lead from the top to the given one in reverse; downwards from one of them it
visits those that follow.
-/

namespace TreeStore.Path

variable {p : List Char} {position found : Nat}

/-- The beginnings of a text that end in front of a separator before a position, but not at the very
front; the shortest comes first. -/
def cuts (p : List Char) (position : Nat) : List (List Char) :=
  ((List.range position).filter fun i => i ≠ 0 ∧ p[i]? = some separator).map p.take

/-- There is nothing to cut off in front of the second character. -/
theorem cuts_one (p : List Char) : cuts p 1 = [] := by
  simp [cuts, List.range_succ]

/-- A separator adds what stands in front of it. -/
theorem cuts_succ_of_separator (hpos : position ≠ 0) (h : p[position]? = some separator) :
    cuts p (position + 1) = cuts p position ++ [p.take position] := by
  simp [cuts, List.range_succ, List.filter_append, hpos, h]

/-- Any other character adds nothing. -/
theorem cuts_succ_of_ne (h : p[position]? ≠ some separator) :
    cuts p (position + 1) = cuts p position := by
  simp [cuts, List.range_succ, List.filter_append, h]

/-- Where there is no separator for a while, nothing is added. -/
theorem cuts_eq_of_free {stop : Nat} (hle : position ≤ stop)
    (h : ∀ i, position ≤ i → i < stop → p[i]? ≠ some separator) :
    cuts p stop = cuts p position := by
  induction stop, hle using Nat.le_induction with
  | base => rfl
  | succ stop hle ih =>
    rw [cuts_succ_of_ne (h stop hle (Nat.lt_succ_self stop))]
    exact ih fun i hi hstop => h i hi (Nat.lt_succ_of_lt hstop)

/-- Without a separator in front of a position there is nothing to cut off. -/
theorem cuts_of_lastSeparator?_eq_none (h : lastSeparator? p position = none) :
    cuts p position = [] := by
  induction position with
  | zero => rfl
  | succ n ih =>
    rw [lastSeparator?] at h
    split at h
    · cases h
    · rw [cuts_succ_of_ne ‹_›, ih h]

/-- The last separator in front of a position ends the longest cut. -/
theorem cuts_of_lastSeparator? (h : lastSeparator? p position = some found) (hfound : found ≠ 0) :
    cuts p position = cuts p found ++ [p.take found] := by
  induction position with
  | zero => cases h
  | succ n ih =>
    rw [lastSeparator?] at h
    split at h
    · obtain rfl := Option.some.inj h
      exact cuts_succ_of_separator hfound ‹_›
    · rw [cuts_succ_of_ne ‹_›, ih h]

/-- A separator at the very front ends no cut. -/
theorem cuts_of_lastSeparator?_eq_zero (h : lastSeparator? p position = some 0) :
    cuts p position = [] := by
  induction position with
  | zero => cases h
  | succ n ih =>
    rw [lastSeparator?] at h
    split at h
    · obtain rfl := Option.some.inj h
      exact cuts_one p
    · rw [cuts_succ_of_ne ‹_›, ih h]

/-- A walk upwards visits what is in front of its position and then the cuts, the longest first. -/
theorem upwardChars_eq (hpos : position ≠ 0) :
    upwardChars p position = p.take position :: (cuts p position).reverse := by
  induction position using Nat.strong_induction_on with
  | h position ih =>
    rw [upwardChars, if_neg hpos]
    congr 1
    split
    · rename_i hnone
      rw [cuts_of_lastSeparator?_eq_none hnone, List.reverse_nil]
    · rename_i found hfound
      by_cases hzero : found = 0
      · subst hzero
        rw [cuts_of_lastSeparator?_eq_zero hfound, upwardChars, if_pos rfl, List.reverse_nil]
      · rw [ih found (lastSeparator?_lt hfound) hzero, cuts_of_lastSeparator? hfound hzero,
          List.reverse_append, List.reverse_singleton, List.singleton_append]

/-- Behind a position where a separator is found, none stands before it. -/
theorem free_of_nextSeparator? (h : nextSeparator? p position = some found) :
    p[found]? = some separator ∧
      ∀ i, position ≤ i → i < found → p[i]? ≠ some separator := by
  obtain ⟨offset, hoffset, rfl⟩ := Option.map_eq_some_iff.mp h
  obtain ⟨hlt, hsep, hbefore⟩ := List.findIdx?_eq_some_iff_getElem.mp hoffset
  refine ⟨?_, fun i hi hlt' hi' => ?_⟩
  · rw [← List.getElem?_drop, List.getElem?_eq_getElem hlt]
    exact congrArg some (of_decide_eq_true hsep)
  · obtain ⟨j, rfl⟩ := Nat.exists_eq_add_of_le hi
    have hj : j < offset := Nat.lt_of_add_lt_add_left hlt'
    have hjsep := hbefore j hj
    rw [← List.getElem?_drop, List.getElem?_eq_getElem (hj.trans hlt)] at hi'
    simp [Option.some.inj hi'] at hjsep

/-- If no separator is found, there is none from the position on. -/
theorem free_of_nextSeparator?_eq_none (h : nextSeparator? p position = none) (i : Nat)
    (hi : position ≤ i) : p[i]? ≠ some separator := by
  intro hsep
  obtain ⟨j, rfl⟩ := Nat.exists_eq_add_of_le hi
  have hnone := List.findIdx?_eq_none_iff.mp (Option.map_eq_none_iff.mp h)
  rw [← List.getElem?_drop] at hsep
  simpa using hnone separator (List.mem_of_getElem? hsep)

/-- Before a walk downwards come the cuts up to its position, and it visits the others; the whole
text is visited last if it is wanted. -/
theorem cuts_append_downwardChars (whole : Bool) (h : position < p.length) :
    cuts p (position + 1) ++ downwardChars p whole position =
      cuts p p.length ++ if whole then [p] else [] := by
  induction hleft : p.length - position using Nat.strong_induction_on generalizing position with
  | h left ih =>
    rw [downwardChars, if_pos h]
    split
    · rename_i hnone
      have hfree := free_of_nextSeparator?_eq_none hnone
      rw [cuts_eq_of_free h fun i hi _ => hfree i hi]
    · rename_i found hfound
      have hle := le_of_nextSeparator? hfound
      obtain ⟨hsep, hfree⟩ := free_of_nextSeparator? hfound
      obtain ⟨hlt, -⟩ := List.getElem?_eq_some_iff.mp hsep
      have hcuts : cuts p (found + 1) = cuts p (position + 1) ++ [p.take found] := by
        rw [cuts_succ_of_separator (by omega) hsep, cuts_eq_of_free hle hfree]
      rw [← ih (p.length - found) (by omega) hlt rfl, hcuts, List.append_assoc,
        List.singleton_append]

private theorem cuts_append_go (seen rest : List Char) (hseen : seen ≠ []) :
    cuts (seen.reverse ++ rest) seen.length ++ prefixChars.go seen rest =
      cuts (seen.reverse ++ rest) (seen.reverse ++ rest).length ++ [seen.reverse ++ rest] := by
  induction rest generalizing seen with
  | nil => simp [prefixChars.go]
  | cons c rest ih =>
    have hstep := ih (c :: seen) (List.cons_ne_nil c seen)
    have hget : (seen.reverse ++ c :: rest)[seen.length]? = some c := by simp
    have htake : (seen.reverse ++ c :: rest).take seen.length = seen.reverse := by simp
    rw [List.reverse_cons, List.append_assoc, List.singleton_append, List.length_cons] at hstep
    rw [prefixChars.go]
    by_cases hc : c = separator
    · rw [if_pos hc, ← hstep, cuts_succ_of_separator (by simpa using hseen) (by rw [hget, hc]),
        htake, List.append_assoc, List.singleton_append]
    · rw [if_neg hc, ← hstep, cuts_succ_of_ne (by simpa [hget] using hc)]

/-- The beginnings of a text are its cuts and the text itself. -/
theorem prefixChars_eq (hp : p ≠ []) : prefixChars p = cuts p p.length ++ [p] := by
  obtain ⟨c, cs, rfl⟩ := List.exists_cons_of_ne_nil hp
  have hgo := cuts_append_go [c] cs (List.cons_ne_nil c [])
  rw [List.reverse_singleton, List.singleton_append, List.length_singleton, cuts_one,
    List.nil_append] at hgo
  exact hgo

/-- A walk upwards from the end of a path visits the paths that lead to it in reverse. -/
@[simp] theorem upwards_eq (p : String) : upwards p = (prefixes p).reverse := by
  by_cases hp : p.toList = []
  · rw [upwards, prefixes, hp, List.length_nil, upwardChars, if_pos rfl]
    rfl
  · rw [upwards, prefixes, ← List.map_reverse, prefixChars_eq hp, List.reverse_append,
      List.reverse_singleton, List.singleton_append,
      upwardChars_eq (by simpa using hp), List.take_length]

/-- A walk upwards begins with the path itself. -/
theorem exists_upwards {p : String} (hp : p ≠ "") : ∃ above, upwards p = p :: above := by
  have hchars : p.toList ≠ [] := by simpa using hp
  rw [upwards_eq, prefixes, prefixChars_eq hchars, List.map_append, List.map_singleton,
    String.ofList_toList, List.reverse_append]
  exact ⟨_, rfl⟩

/-- A walk downwards that does not want the whole path leaves out no more than that. -/
theorem downwards_false (p : String) (position : Nat) :
    downwards p false position = (downwards p true position).dropLast := by
  rw [downwards, downwards, ← List.map_dropLast]
  congr 1
  by_cases h : position < p.toList.length
  · have hall := cuts_append_downwardChars true h
    have hproper := cuts_append_downwardChars false h
    rw [if_pos rfl] at hall
    rw [if_neg Bool.false_ne_true, List.append_nil] at hproper
    rw [← hproper, List.append_assoc] at hall
    rw [List.append_cancel_left hall, List.dropLast_concat]
  · rw [downwardChars, if_neg h, downwardChars, if_neg h, List.dropLast_nil]

/-- What comes before a walk downwards and what it visits make up the paths that lead to a path. -/
theorem cuts_append_downwards {p : String} {position : Nat} (h : position < p.toList.length) :
    (cuts p.toList (position + 1)).map String.ofList ++ downwards p true position = prefixes p := by
  have hp : p.toList ≠ [] := List.ne_nil_of_length_pos (Nat.zero_lt_of_lt h)
  rw [downwards, ← List.map_append, cuts_append_downwardChars true h, if_pos rfl,
    ← prefixChars_eq hp, prefixes]

/-- A walk downwards from the front visits all of the paths that lead to a path. -/
theorem downwards_zero {p : String} (hp : IsValid p) : downwards p true 0 = prefixes p := by
  obtain ⟨segs, hs, rfl⟩ := isValid_iff.mp hp
  have hlength : 0 < (String.ofList (spell segs)).toList.length := by
    rw [String.toList_ofList]
    cases segs <;> simp [spell, chain]
  have hwalk := cuts_append_downwards hlength
  rwa [Nat.zero_add, cuts_one, List.map_nil, List.nil_append] at hwalk

/-- Each of the paths that lead to a path comes right before the walk downwards from it. -/
theorem exists_append_downwards {p q : String} (h : q ∈ prefixes p) :
    ∃ above, prefixes p = above ++ q :: downwards p true q.toList.length := by
  rw [prefixes] at h
  obtain ⟨cut, hcut, rfl⟩ := List.mem_map.mp h
  have hp : p.toList ≠ [] := by
    intro hnil
    rw [hnil] at hcut
    cases hcut
  rw [String.toList_ofList]
  rw [prefixChars_eq hp] at hcut
  rcases List.mem_append.mp hcut with hmem | hmem
  · obtain ⟨i, hi, rfl⟩ := List.mem_map.mp hmem
    obtain ⟨hlt, hsep⟩ := List.mem_filter.mp hi
    rw [List.mem_range] at hlt
    obtain ⟨hzero, hsep⟩ := of_decide_eq_true hsep
    refine ⟨(cuts p.toList i).map String.ofList, ?_⟩
    rw [List.length_take_of_le hlt.le, ← cuts_append_downwards hlt,
      cuts_succ_of_separator hzero hsep, List.map_append, List.map_singleton, List.append_assoc,
      List.singleton_append]
  · obtain rfl := List.mem_singleton.mp hmem
    refine ⟨(cuts p.toList p.toList.length).map String.ofList, ?_⟩
    rw [prefixes, prefixChars_eq hp, downwards, downwardChars, if_neg (Nat.lt_irrefl _),
      List.map_append, List.map_singleton, List.map_nil]

/-- A walk downwards from one of the paths that lead to a path visits those that follow. -/
theorem downwards_of_append {p q : String} (hp : IsValid p) {above below : List String}
    (h : prefixes p = above ++ q :: below) : downwards p true q.toList.length = below := by
  have hmem : q ∈ prefixes p := h ▸ List.mem_append_right above List.mem_cons_self
  obtain ⟨front, hfront⟩ := exists_append_downwards hmem
  have hnodup := nodup_prefixes hp
  rw [h] at hnodup hfront
  obtain ⟨-, hbelow, hdisjoint⟩ := List.nodup_append.mp hnodup
  have hafter : q ∉ below := (List.nodup_cons.mp hbelow).1
  have hbefore : q ∉ above := fun hq => hdisjoint q hq q List.mem_cons_self rfl
  exact ((List.append_cons_inj_of_notMem hbefore hafter).mp hfront).2.2.symm

/-- The position at which the last of some paths ends, the front if there are none. -/
def endOfLast (above : List String) : Nat := (above.getLast?.map (·.toList.length)).getD 0

/-- A walk downwards from where a walk upwards stopped visits the paths that were passed. -/
theorem downwards_endOfLast {p : String} (hp : IsValid p) {above below : List String}
    (h : prefixes p = above ++ below) : downwards p true (endOfLast above) = below := by
  rcases List.eq_nil_or_concat above with rfl | ⟨above, q, rfl⟩
  · exact (downwards_zero hp).trans h
  · rw [List.concat_eq_append] at h ⊢
    rw [endOfLast, List.getLast?_concat]
    rw [List.append_assoc, List.singleton_append] at h
    exact downwards_of_append hp h

end TreeStore.Path
