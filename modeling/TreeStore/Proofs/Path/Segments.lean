import TreeStore.Path
import Mathlib.Data.List.Basic
import Mathlib.Data.List.TakeWhile

/-!
# The spelling of a path

A path without a fault is the spelling of exactly one list of segments, and every list of segments
has such a spelling: the checks, which scan characters, accept the spelled lists and nothing else.
Taking a path apart, joining and listing the paths above one are then operations on the list of
segments.
-/

namespace TreeStore.Path

/-- A name that may stand between two separators. -/
structure IsSegment (s : List Char) : Prop where
  /-- It has characters. -/
  ne_nil : s ≠ []
  /-- It holds no separator. -/
  not_mem : separator ∉ s
  /-- None of its characters is refused. -/
  allowed : ∀ c ∈ s, c.toNat ≠ 0 ∧ isForbidden c = false
  /-- It does not say "here". -/
  ne_here : s ≠ ['.']
  /-- It does not say "one up". -/
  ne_up : s ≠ ['.', '.']

/-- Segments one after the other, with a separator in front of each. -/
def chain (segs : List (List Char)) : List Char := segs.flatMap (separator :: ·)

/-- The spelling of a list of segments: their chain, or the root if there are none. -/
def spell (segs : List (List Char)) : List Char := if segs = [] then [separator] else chain segs

@[simp] theorem chain_nil : chain [] = [] := rfl

@[simp] theorem chain_cons (s : List Char) (segs : List (List Char)) :
    chain (s :: segs) = separator :: (s ++ chain segs) := by simp [chain]

@[simp] theorem chain_append (segs segs' : List (List Char)) :
    chain (segs ++ segs') = chain segs ++ chain segs' := by simp [chain]

@[simp] theorem chain_eq_nil {segs : List (List Char)} : chain segs = [] ↔ segs = [] := by
  cases segs <;> simp

@[simp] theorem spell_nil : spell [] = [separator] := rfl

/-- Some segments are spelled as their chain. -/
theorem spell_of_ne_nil {segs : List (List Char)} (h : segs ≠ []) : spell segs = chain segs :=
  if_neg h

/-- The last segment is spelled behind a separator. -/
theorem spell_concat (segs : List (List Char)) (s : List Char) :
    spell (segs ++ [s]) = chain segs ++ separator :: s := by
  rw [spell_of_ne_nil (by simp)]
  simp

/-- Every text has a piece. -/
theorem pieces_ne_nil (cs : List Char) : pieces cs ≠ [] := by
  cases cs with
  | nil => simp [pieces]
  | cons c cs =>
    rw [pieces]
    split
    · simp
    · split <;> simp

/-- A separator ends the pieces before it and begins those behind it. -/
theorem pieces_append_separator (a b : List Char) :
    pieces (a ++ separator :: b) = pieces a ++ pieces b := by
  induction a with
  | nil => simp [pieces]
  | cons c a ih =>
    by_cases hc : c = separator
    · simp [pieces, hc, ih]
    · simp only [List.cons_append, pieces, hc, ite_false, ih]
      cases hp : pieces a with
      | nil => exact absurd hp (pieces_ne_nil a)
      | cons p ps => rfl

/-- A text without separators is its only piece. -/
theorem pieces_of_not_mem {s : List Char} (h : separator ∉ s) : pieces s = [s] := by
  induction s with
  | nil => rfl
  | cons c s ih =>
    simp only [List.mem_cons, not_or] at h
    simp [pieces, Ne.symm h.1, ih h.2]

/-- The pieces of a chain are its segments, with nothing in front of the first separator. -/
theorem pieces_append_chain {s : List Char} {segs : List (List Char)} (hs : separator ∉ s)
    (h : ∀ t ∈ segs, separator ∉ t) : pieces (s ++ chain segs) = s :: segs := by
  induction segs generalizing s with
  | nil => simpa using pieces_of_not_mem hs
  | cons t segs ih =>
    rw [chain_cons, pieces_append_separator, pieces_of_not_mem hs,
      ih (h t List.mem_cons_self) fun u hu => h u (List.mem_cons_of_mem t hu)]
    rfl

/-- Nothing is lost by taking a text apart at its separators. -/
theorem chain_pieces (cs : List Char) : chain (pieces cs) = separator :: cs := by
  induction cs with
  | nil => rfl
  | cons c cs ih =>
    by_cases hc : c = separator
    · simp [pieces, hc, ih]
    · simp only [pieces, hc, ite_false]
      cases hp : pieces cs with
      | nil => exact absurd hp (pieces_ne_nil cs)
      | cons p ps =>
        rw [hp, chain_cons] at ih
        simpa using ih

/-- No piece holds a separator. -/
theorem not_mem_of_mem_pieces {cs p : List Char} (h : p ∈ pieces cs) : separator ∉ p := by
  induction cs generalizing p with
  | nil =>
    rw [pieces, List.mem_singleton] at h
    simp [h]
  | cons c cs ih =>
    by_cases hc : c = separator
    · simp only [pieces, hc, ite_true, List.mem_cons] at h
      rcases h with rfl | h
      · simp
      · exact ih h
    · simp only [pieces, hc, ite_false] at h
      cases hp : pieces cs with
      | nil => exact absurd hp (pieces_ne_nil cs)
      | cons q ps =>
        simp only [hp, List.mem_cons] at h
        rcases h with rfl | h
        · simp only [List.mem_cons, not_or]
          exact ⟨Ne.symm hc, ih (by simp [hp])⟩
        · exact ih (by simp [hp, h])

/-- A text that ends with a separator has an empty piece at its end. -/
theorem pieces_of_endsOpen {cs : List Char} (h : endsOpen cs = true) :
    ∃ a, cs = a ++ [separator] ∧ pieces cs = pieces a ++ [[]] := by
  simp only [endsOpen, decide_eq_true_eq] at h
  obtain ⟨a, rfl⟩ := List.getLast?_eq_some_iff.mp h
  exact ⟨a, rfl, by rw [pieces_append_separator]; rfl⟩

/-- A segment is free of faults unless it is empty or stands for another place. -/
theorem segmentFault?_eq_none {s : List Char} :
    segmentFault? s = none ↔ s ≠ [] ∧ s ≠ ['.'] ∧ s ≠ ['.', '.'] := by
  unfold segmentFault?
  split
  · simp_all
  · split
    · simp_all
      tauto
    · simp_all

/-- All characters and all segments are checked. -/
theorem tailFault?_eq_none {p : List Char} {segs : List (List Char)} :
    tailFault? p segs = none ↔
      (∀ c ∈ p, c.toNat ≠ 0 ∧ isForbidden c = false) ∧ ∀ s ∈ segs, segmentFault? s = none := by
  unfold tailFault?
  cases hn : p.findIdx? (·.toNat = 0) with
  | some i =>
    obtain ⟨hi, hc, -⟩ := List.findIdx?_eq_some_iff_getElem.mp hn
    simp only [reduceCtorEq, false_iff, not_and_or]
    exact .inl fun h => (h _ (List.getElem_mem hi)).1 (by simpa using hc)
  | none =>
    simp only [List.findIdx?_eq_none_iff, decide_eq_false_iff_not] at hn
    cases hf : p.findIdx? isForbidden with
    | some i =>
      obtain ⟨hi, hc, -⟩ := List.findIdx?_eq_some_iff_getElem.mp hf
      simp only [reduceCtorEq, false_iff, not_and_or]
      exact .inl fun h => by simp [(h _ (List.getElem_mem hi)).2] at hc
    | none =>
      simp only [List.findIdx?_eq_none_iff] at hf
      simp only [List.findSome?_eq_none_iff]
      exact ⟨fun h => ⟨fun c hc => ⟨hn c hc, hf c hc⟩, h⟩, fun h => h.2⟩

/-- The separator is among the characters that a path may hold. -/
private theorem separator_allowed : separator.toNat ≠ 0 ∧ isForbidden separator = false := by decide

/-- Characters of a chain are separators or belong to a segment. -/
theorem mem_chain {segs : List (List Char)} {c : Char} (h : c ∈ chain segs) :
    c = separator ∨ ∃ s ∈ segs, c ∈ s := by
  simp only [chain, List.mem_flatMap, List.mem_cons] at h
  obtain ⟨s, hs, rfl | hc⟩ := h
  · exact .inl rfl
  · exact .inr ⟨s, hs, hc⟩

/-- The characters of each segment are in the chain. -/
theorem mem_chain_of_mem {segs : List (List Char)} {s : List Char} {c : Char} (hs : s ∈ segs)
    (hc : c ∈ s) : c ∈ chain segs := by
  simp only [chain, List.mem_flatMap, List.mem_cons]
  exact ⟨s, hs, .inr hc⟩

/-- The scans accept a chain exactly if its members are segments. -/
theorem tailFault?_chain {segs : List (List Char)} (h : ∀ s ∈ segs, separator ∉ s) :
    tailFault? (chain segs) segs = none ↔ ∀ s ∈ segs, IsSegment s := by
  rw [tailFault?_eq_none]
  constructor
  · rintro ⟨hc, hs⟩ s hmem
    obtain ⟨hne, hhere, hup⟩ := segmentFault?_eq_none.mp (hs s hmem)
    exact ⟨hne, h s hmem, fun c hcs => hc c (mem_chain_of_mem hmem hcs), hhere, hup⟩
  · intro hs
    refine ⟨fun c hc => ?_, fun s hmem => ?_⟩
    · rcases mem_chain hc with rfl | ⟨s, hmem, hcs⟩
      · exact separator_allowed
      · exact (hs s hmem).allowed c hcs
    · exact segmentFault?_eq_none.mpr ⟨(hs s hmem).ne_nil, (hs s hmem).ne_here, (hs s hmem).ne_up⟩

/-- A text behind a chain of segments ends with a separator only if nothing of it is a segment. -/
private theorem not_endsOpen {s : List Char} {segs : List (List Char)} (hs : IsSegment s)
    (h : ∀ t ∈ segs, IsSegment t) : endsOpen (s ++ chain segs) = false := by
  rw [Bool.eq_false_iff]
  intro ho
  obtain ⟨a, -, hp⟩ := pieces_of_endsOpen ho
  rw [pieces_append_chain hs.not_mem fun t ht => (h t ht).not_mem] at hp
  have hmem : [] ∈ s :: segs := by rw [hp]; simp
  rcases List.mem_cons.mp hmem with he | he
  · exact hs.ne_nil he.symm
  · exact (h [] he).ne_nil rfl

/-- A path has no fault exactly if it is the spelling of a list of segments. -/
theorem fault?_eq_none_iff {p : List Char} :
    fault? false p = none ↔ ∃ segs, (∀ s ∈ segs, IsSegment s) ∧ p = spell segs := by
  constructor
  · intro h
    cases p with
    | nil => simp [fault?] at h
    | cons c cs =>
      simp only [fault?] at h
      split at h
      · simp at h
      rename_i hc
      obtain rfl : c = separator := by simpa using hc
      split at h
      · rename_i he
        exact ⟨[], by simp, by simp [he]⟩
      split at h
      · simp at h
      rw [← chain_pieces cs, tailFault?_chain fun s hs => not_mem_of_mem_pieces hs] at h
      exact ⟨pieces cs, h, by rw [spell_of_ne_nil (pieces_ne_nil cs), chain_pieces]⟩
  · rintro ⟨segs, hs, rfl⟩
    cases segs with
    | nil => rfl
    | cons s segs =>
      have hseg := hs s List.mem_cons_self
      have hrest : ∀ t ∈ segs, IsSegment t := fun t ht => hs t (List.mem_cons_of_mem s ht)
      rw [spell_of_ne_nil (by simp), chain_cons, fault?, if_neg (by simp),
        if_neg (by simp [hseg.ne_nil]), if_neg (by simp [not_endsOpen hseg hrest]),
        pieces_append_chain hseg.not_mem fun t ht => (hrest t ht).not_mem, ← chain_cons]
      exact (tailFault?_chain fun t ht => (hs t ht).not_mem).mpr hs

/-- Where no separator is left open at the end, a counter to follow makes no difference. -/
theorem fault?_open_of_not_endsOpen {c : Char} {cs : List Char} (h : endsOpen cs = false) :
    fault? true (c :: cs) = fault? false (c :: cs) := by
  simp [fault?, h]

/-- An open end is passed over, and the pieces in front of it are checked. -/
theorem fault?_open_append_separator (a : List Char) :
    fault? true (separator :: (a ++ [separator])) = none ↔ ∀ s ∈ pieces a, IsSegment s := by
  have hp : pieces (a ++ [separator]) = pieces a ++ [[]] := pieces_append_separator a []
  have ho : endsOpen (a ++ [separator]) = true := by simp [endsOpen]
  have hend : tailFault? (separator :: (a ++ [separator])) (pieces a) = none ↔
      tailFault? (separator :: a) (pieces a) = none := by
    simp only [tailFault?_eq_none, ← List.cons_append, List.forall_mem_append]
    simp [separator_allowed]
  have hf : fault? true (separator :: (a ++ [separator])) =
      tailFault? (separator :: (a ++ [separator])) (pieces a) := by
    simp [fault?, ho, hp]
  rw [hf, hend, ← chain_pieces a, tailFault?_chain fun s hs => not_mem_of_mem_pieces hs]

/-- A path that a counter may follow has no fault exactly if it is the spelling of a list of
segments, or of a nonempty one with a separator at its end. -/
theorem fault?_open_eq_none_iff {p : List Char} :
    fault? true p = none ↔ ∃ segs, (∀ s ∈ segs, IsSegment s) ∧
      (p = spell segs ∨ segs ≠ [] ∧ p = spell segs ++ [separator]) := by
  constructor
  · intro h
    cases p with
    | nil => simp [fault?] at h
    | cons c cs =>
      by_cases ho : endsOpen cs = true
      · obtain ⟨a, rfl, -⟩ := pieces_of_endsOpen ho
        obtain rfl : c = separator := by
          by_contra hc
          simp [fault?, hc] at h
        refine ⟨pieces a, (fault?_open_append_separator a).mp h, .inr ⟨pieces_ne_nil a, ?_⟩⟩
        rw [spell_of_ne_nil (pieces_ne_nil a), chain_pieces, List.cons_append]
      · rw [fault?_open_of_not_endsOpen (by simpa using ho), fault?_eq_none_iff] at h
        obtain ⟨segs, hs, he⟩ := h
        exact ⟨segs, hs, .inl he⟩
  · rintro ⟨segs, hs, rfl | ⟨hne, rfl⟩⟩
    · cases segs with
      | nil => rfl
      | cons s segs =>
        have hclosed := fault?_eq_none_iff.mpr ⟨s :: segs, hs, rfl⟩
        have ho := not_endsOpen (hs s List.mem_cons_self)
          fun t ht => hs t (List.mem_cons_of_mem s ht)
        rw [spell_of_ne_nil (by simp), chain_cons] at hclosed ⊢
        rwa [fault?_open_of_not_endsOpen ho]
    · obtain ⟨s, segs, rfl⟩ := List.exists_cons_of_ne_nil hne
      rw [spell_of_ne_nil hne, chain_cons, List.cons_append, fault?_open_append_separator,
        pieces_append_chain (hs s List.mem_cons_self).not_mem
          fun t ht => (hs t (List.mem_cons_of_mem s ht)).not_mem]
      exact hs

/-- The segments of a spelling are the ones that it spells. -/
theorem segmentChars_spell {segs : List (List Char)} (h : ∀ s ∈ segs, IsSegment s) :
    segmentChars (spell segs) = segs := by
  cases segs with
  | nil => rfl
  | cons s segs =>
    have hp : pieces (chain (s :: segs)) = [] :: s :: segs :=
      pieces_append_chain (s := []) (by simp) fun t ht => (h t ht).not_mem
    rw [segmentChars, spell_of_ne_nil (by simp), hp, List.filter_cons_of_neg (by simp),
      List.filter_eq_self]
    intro t ht
    simpa using (h t ht).ne_nil

/-- What stands behind the last separator. -/
theorem leafChars_append (a : List Char) {l : List Char} (hl : separator ∉ l) :
    leafChars (a ++ separator :: l) = l := by
  have hr : ∀ c ∈ l.reverse, decide (c ≠ separator) = true := by
    intro c hc
    simpa using fun he : c = separator => hl (he ▸ List.mem_reverse.mp hc)
  rw [leafChars, List.reverse_append, List.reverse_cons, List.append_assoc,
    List.takeWhile_append_of_pos hr]
  simp

/-- What stands before the last separator, or the root if nothing does. -/
theorem parentChars_append (a : List Char) {l : List Char} (hl : separator ∉ l) :
    parentChars (a ++ separator :: l) = if a = [] then [separator] else a := by
  have hr : ∀ c ∈ l.reverse, decide (c ≠ separator) = true := by
    intro c hc
    simpa using fun he : c = separator => hl (he ▸ List.mem_reverse.mp hc)
  rw [parentChars, List.reverse_append, List.reverse_cons, List.append_assoc,
    List.dropWhile_append_of_pos hr]
  cases a with
  | nil => simp
  | cons c a => simp

/-- The leaf of a spelled path is its last segment. -/
theorem leafChars_spell_concat (segs : List (List Char)) {s : List Char} (h : IsSegment s) :
    leafChars (spell (segs ++ [s])) = s := by
  rw [spell_concat, leafChars_append _ h.not_mem]

/-- The parent of a spelled path is spelled by all segments but the last. -/
theorem parentChars_spell_concat (segs : List (List Char)) {s : List Char} (h : IsSegment s) :
    parentChars (spell (segs ++ [s])) = spell segs := by
  rw [spell_concat, parentChars_append _ h.not_mem, spell]
  simp

/-- Nothing is stripped from a text with other characters at its ends. -/
theorem strip_eq_self {p : List Char} (hh : p.head? ≠ some separator)
    (hl : p.getLast? ≠ some separator) : strip p = p := by
  have hd : ∀ q : List Char, q.head? ≠ some separator → q.dropWhile (· = separator) = q := by
    intro q hq
    cases q with
    | nil => rfl
    | cons c q => rw [List.dropWhile_cons_of_neg (by simpa using hq)]
  rw [strip, hd p hh, hd p.reverse (by rwa [List.head?_reverse]), List.reverse_reverse]

/-- A separator in front is stripped. -/
theorem strip_separator_cons (p : List Char) : strip (separator :: p) = strip p := by
  simp [strip]

/-- Nothing is left of a text of separators, and of no other one. -/
theorem strip_eq_nil_iff {p : List Char} : strip p = [] ↔ ∀ c ∈ p, c = separator := by
  constructor
  · intro h
    rw [strip, List.reverse_eq_nil_iff, List.dropWhile_eq_nil_iff] at h
    have hnil : p.dropWhile (· = separator) = [] := by
      by_contra hne
      have hhead := h _ (List.mem_reverse.mpr (List.head_mem hne))
      have hnot := List.head_dropWhile_not (· = separator) hne
      rw [hhead] at hnot
      cases hnot
    simpa using hnil
  · intro h
    have hnil : p.dropWhile (· = separator) = [] := by simpa using h
    rw [strip, hnil]
    rfl

/-- A proper segment has nothing to strip. -/
theorem IsSegment.strip_eq {s : List Char} (h : IsSegment s) : strip s = s :=
  strip_eq_self (fun he => h.not_mem (List.mem_of_head? he))
    fun he => h.not_mem (List.mem_of_getLast? he)

/-- A spelling without the separator that it starts with. -/
theorem strip_spell_cons {s : List Char} {segs : List (List Char)} (hs : IsSegment s)
    (h : ∀ t ∈ segs, IsSegment t) : strip (spell (s :: segs)) = s ++ chain segs := by
  rw [spell_of_ne_nil (by simp), chain_cons, strip_separator_cons]
  obtain ⟨c, s', rfl⟩ := List.exists_cons_of_ne_nil hs.ne_nil
  refine strip_eq_self ?_ ?_
  · simpa using fun he : c = separator => hs.not_mem (by simp [he])
  · simpa [endsOpen] using not_endsOpen hs h

/-- Joining a segment to a spelling spells the longer list. -/
theorem joinChars_spell {segs : List (List Char)} {s : List Char} (h : ∀ t ∈ segs, IsSegment t)
    (hs : IsSegment s) : joinChars [spell segs, s] = spell (segs ++ [s]) := by
  cases segs with
  | nil =>
    have hr : strip [separator] = [] := by decide
    rw [spell_nil, joinChars, List.map_cons, hr, List.map_singleton, hs.strip_eq,
      List.filter_cons_of_neg (by simp), List.filter_cons_of_pos (by simp [hs.ne_nil]),
      spell_concat]
    simp [List.intercalate]
  | cons t segs =>
    have ht := h t List.mem_cons_self
    rw [joinChars, List.map_cons, strip_spell_cons ht fun u hu => h u (List.mem_cons_of_mem t hu),
      List.map_singleton, hs.strip_eq, List.filter_eq_self.mpr (by simp [ht.ne_nil, hs.ne_nil]),
      spell_concat]
    simp [List.intercalate]

/-- Without another separator the rest of the path is the last prefix. -/
private theorem go_of_not_mem (seen : List Char) {l : List Char} (hl : separator ∉ l) :
    prefixChars.go seen l = [seen.reverse ++ l] := by
  induction l generalizing seen with
  | nil => simp [prefixChars.go]
  | cons c l ih =>
    simp only [List.mem_cons, not_or] at hl
    simp [prefixChars.go, Ne.symm hl.1, ih _ hl.2]

/-- The last segment of a path makes its last prefix. -/
private theorem go_append (seen a : List Char) {l : List Char} (hl : separator ∉ l) :
    prefixChars.go seen (a ++ separator :: l) =
      prefixChars.go seen a ++ [seen.reverse ++ (a ++ separator :: l)] := by
  induction a generalizing seen with
  | nil => simp [prefixChars.go, go_of_not_mem _ hl]
  | cons c a ih => by_cases hc : c = separator <;> simp [prefixChars.go, hc, ih]

/-- The path of a single segment is the only one that ends in front of none of its separators. -/
theorem prefixChars_spell_singleton {s : List Char} (hs : IsSegment s) :
    prefixChars (spell [s]) = [spell [s]] := by
  rw [spell_of_ne_nil (by simp), chain_cons, chain_nil, List.append_nil, prefixChars,
    go_of_not_mem _ hs.not_mem]
  simp

/-- The last of the paths above a path is the path itself; the others are those above the path
without its last segment. -/
theorem prefixChars_spell_concat {segs : List (List Char)} (hne : segs ≠ []) {s : List Char}
    (hs : IsSegment s) :
    prefixChars (spell (segs ++ [s])) = prefixChars (spell segs) ++ [spell (segs ++ [s])] := by
  obtain ⟨t, segs, rfl⟩ := List.exists_cons_of_ne_nil hne
  rw [spell_concat, spell_of_ne_nil hne, chain_cons, List.cons_append, prefixChars, prefixChars,
    go_append _ _ hs.not_mem]
  simp

end TreeStore.Path
