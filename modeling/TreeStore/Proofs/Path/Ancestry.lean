import TreeStore.Failure
import TreeStore.Proofs.Path.Segments
import Mathlib.Data.List.Induction

/-!
# The tree of paths

Valid paths form a tree: the root is one, and every other one is its parent joined with its leaf.
The order of this tree compares whole segments, so that a path lies above another one exactly if its
segments begin the other's.
-/

namespace TreeStore.Path

/-- A path without a fault. -/
structure IsValid (p : String) : Prop where
  /-- The checks find nothing. -/
  fault : fault p false = none

/-- A text that may name a node below another one. -/
def IsName (s : String) : Prop := IsSegment s.toList

instance (p : String) : Decidable (IsValid p) :=
  decidable_of_iff (fault p false = none) ⟨.mk, fun h => h.fault⟩

/-- A path is accepted exactly if it has no fault, and it is handed on as it is. -/
theorem validate_eq_ok_iff {p q : String} {isOpen : Bool} :
    validate p isOpen = .ok q ↔ fault p isOpen = none ∧ q = p := by
  simp only [validate, checked]
  cases fault p isOpen with
  | none => simp [eq_comm]
  | some f => simp

/-- A path is refused exactly for its fault. -/
theorem validate_eq_error_iff {p : String} {isOpen : Bool} {problem : Problem} :
    validate p isOpen = .error problem ↔
      ∃ f, fault p isOpen = some f ∧ problem = .invalidPath (.str p) f := by
  simp only [validate, checked]
  cases fault p isOpen with
  | none => simp
  | some f => simp [eq_comm]

/-- A valid path passes the check as it is. -/
theorem IsValid.validate {p : String} (h : IsValid p) : validate p false = .ok p :=
  validate_eq_ok_iff.mpr ⟨h.fault, rfl⟩

/-- The valid paths are those that proper segments spell. -/
theorem isValid_iff {p : String} :
    IsValid p ↔ ∃ segs, (∀ s ∈ segs, IsSegment s) ∧ p = String.ofList (spell segs) := by
  constructor
  · rintro ⟨h⟩
    obtain ⟨segs, hs, he⟩ := fault?_eq_none_iff.mp h
    exact ⟨segs, hs, by rw [← he, String.ofList_toList]⟩
  · rintro ⟨segs, hs, rfl⟩
    exact ⟨fault?_eq_none_iff.mpr ⟨segs, hs, String.toList_ofList⟩⟩

/-- A valid path may be requested. -/
theorem IsValid.request {p : String} (h : IsValid p) : Path.fault p true = none := by
  obtain ⟨segs, hs, he⟩ := fault?_eq_none_iff.mp h.fault
  exact fault?_open_eq_none_iff.mpr ⟨segs, hs, .inl he⟩

/-- The root is valid. -/
theorem isValid_root : IsValid root := by decide

/-- A name behind a path is spelled as its last segment. -/
private theorem join_ofList_spell {segs : List (List Char)} {s : String}
    (h : ∀ t ∈ segs, IsSegment t) (hs : IsName s) :
    join [String.ofList (spell segs), s] = String.ofList (spell (segs ++ [s.toList])) := by
  simp [join, joinChars_spell h hs]

/-- A child of a valid path is valid. -/
theorem IsValid.join {q s : String} (hq : IsValid q) (hs : IsName s) : IsValid (join [q, s]) := by
  obtain ⟨segs, h, rfl⟩ := isValid_iff.mp hq
  rw [join_ofList_spell h hs, isValid_iff]
  refine ⟨_, ?_, rfl⟩
  intro t ht
  rcases List.mem_append.mp ht with ht | ht
  · exact h t ht
  · rw [List.mem_singleton.mp ht]
    exact hs

/-- The parent of a child is the node that it is a child of. -/
theorem parent_join {q s : String} (hq : IsValid q) (hs : IsName s) : parent (join [q, s]) = q := by
  obtain ⟨segs, h, rfl⟩ := isValid_iff.mp hq
  simp [join_ofList_spell h hs, parent, parentChars_spell_concat segs hs]

/-- The leaf of a child is its name. -/
theorem leaf_join {q s : String} (hq : IsValid q) (hs : IsName s) : leaf (join [q, s]) = s := by
  obtain ⟨segs, h, rfl⟩ := isValid_iff.mp hq
  simp [join_ofList_spell h hs, leaf, leafChars_spell_concat segs hs]

/-- The segments of a child are those of its parent and its name. -/
theorem segments_join {q s : String} (hq : IsValid q) (hs : IsName s) :
    segments (join [q, s]) = segments q ++ [s] := by
  obtain ⟨segs, h, rfl⟩ := isValid_iff.mp hq
  have hall : ∀ t ∈ segs ++ [s.toList], IsSegment t := by
    intro t ht
    rcases List.mem_append.mp ht with ht | ht
    · exact h t ht
    · rw [List.mem_singleton.mp ht]
      exact hs
  simp [join_ofList_spell h hs, segments, segmentChars_spell h, segmentChars_spell hall]

@[simp] theorem segments_root : segments root = [] := by
  rw [segments]
  decide

@[simp] theorem parent_root : parent root = root := by
  rw [parent]
  decide

@[simp] theorem leaf_root : leaf root = "" := by
  rw [leaf]
  decide

@[simp] theorem prefixes_root : prefixes root = [root] := by
  rw [prefixes]
  decide

/-- No child is the root. -/
theorem join_ne_root {q s : String} (hq : IsValid q) (hs : IsName s) : join [q, s] ≠ root := by
  intro he
  have h := segments_join hq hs
  rw [he, segments_root] at h
  simp at h

/-- No valid path is empty. -/
theorem IsValid.ne_empty {p : String} (h : IsValid p) : p ≠ "" := by
  rintro rfl
  exact absurd h (by decide)

/-- No name is empty. -/
theorem IsName.ne_empty {s : String} (h : IsName s) : s ≠ "" := by
  rintro rfl
  exact h.ne_nil rfl

/-- A valid path and a name are joined as they are, since neither counts as false. -/
theorem joinValues_str {q s : String} (hq : IsValid q) (hs : IsName s) :
    joinValues [.str q, .str s] = .ok (join [q, s]) := by
  have hq' : (Value.str q).truthy = true := by simpa [Value.truthy] using hq.ne_empty
  have hs' : (Value.str s).truthy = true := by simpa [Value.truthy] using hs.ne_empty
  rw [joinValues, List.filter_cons_of_pos hq', List.filter_cons_of_pos hs', List.filter_nil]
  rfl

/-- A valid path is the root or a child of a valid path. -/
theorem IsValid.eq_root_or_join {p : String} (h : IsValid p) :
    p = root ∨ ∃ q s, IsValid q ∧ IsName s ∧ p = Path.join [q, s] := by
  obtain ⟨segs, hs, rfl⟩ := isValid_iff.mp h
  rcases List.eq_nil_or_concat segs with rfl | ⟨init, l, rfl⟩
  · exact .inl (by decide)
  · rw [List.concat_eq_append] at hs ⊢
    have hinit : ∀ t ∈ init, IsSegment t := fun t ht => hs t (List.mem_append_left _ ht)
    have hl : IsName (String.ofList l) := by
      simpa [IsName] using hs l (by simp)
    refine .inr ⟨String.ofList (spell init), String.ofList l, isValid_iff.mpr ⟨init, hinit, rfl⟩,
      hl, ?_⟩
    rw [join_ofList_spell hinit hl, String.toList_ofList]

/-- What holds of the root, and of each child of a path that it holds of, holds of all valid paths.
-/
@[elab_as_elim]
theorem IsValid.induction {motive : ∀ p, IsValid p → Prop} (atRoot : motive root isValid_root)
    (atChild : ∀ q s (hq : IsValid q) (hs : IsName s), motive q hq →
      motive (Path.join [q, s]) (hq.join hs)) {p : String} (h : IsValid p) : motive p h := by
  obtain ⟨segs, hs, rfl⟩ := isValid_iff.mp h
  induction segs using List.reverseRecOn with
  | nil => exact atRoot
  | append_singleton init l ih =>
    have hinit : ∀ t ∈ init, IsSegment t := fun t ht => hs t (List.mem_append_left _ ht)
    have hl : IsName (String.ofList l) := by
      simpa [IsName] using hs l (by simp)
    have hvalid : IsValid (String.ofList (spell init)) := isValid_iff.mpr ⟨init, hinit, rfl⟩
    have hchild := atChild _ _ hvalid hl (ih hinit hvalid)
    simpa only [join_ofList_spell hinit hl, String.toList_ofList] using hchild

/-- The parent of a valid path is valid. -/
theorem IsValid.parent {p : String} (h : IsValid p) : IsValid (parent p) := by
  rcases h.eq_root_or_join with rfl | ⟨q, s, hq, hs, rfl⟩
  · rwa [parent_root]
  · rw [parent_join hq hs]
    exact hq

/-- The leaf of a valid path other than the root is a name. -/
theorem IsValid.leaf {p : String} (h : IsValid p) (hne : p ≠ root) : IsName (leaf p) := by
  rcases h.eq_root_or_join with rfl | ⟨q, s, hq, hs, rfl⟩
  · exact absurd rfl hne
  · rwa [leaf_join hq hs]

/-- A path below the root is its parent joined with its leaf. -/
theorem join_parent_leaf {p : String} (h : IsValid p) (hne : p ≠ root) :
    join [parent p, leaf p] = p := by
  rcases h.eq_root_or_join with rfl | ⟨q, s, hq, hs, rfl⟩
  · exact absurd rfl hne
  · rw [parent_join hq hs, leaf_join hq hs]

/-- The segments of a path are those of its parent and its leaf. -/
theorem segments_eq_parent_leaf {p : String} (h : IsValid p) (hne : p ≠ root) :
    segments p = segments (parent p) ++ [leaf p] := by
  conv_lhs => rw [← join_parent_leaf h hne]
  exact segments_join h.parent (h.leaf hne)

/-- Only the root is its own parent. -/
theorem parent_ne_self {p : String} (h : IsValid p) (hne : p ≠ root) : parent p ≠ p := by
  intro he
  have hs := segments_eq_parent_leaf h hne
  rw [he] at hs
  simp at hs

/-- A valid path is known by its segments. -/
theorem segments_inj {p q : String} (hp : IsValid p) (hq : IsValid q) :
    segments p = segments q ↔ p = q := by
  constructor
  · obtain ⟨ps, hps, rfl⟩ := isValid_iff.mp hp
    obtain ⟨qs, hqs, rfl⟩ := isValid_iff.mp hq
    simp only [segments, String.toList_ofList, segmentChars_spell hps, segmentChars_spell hqs]
    intro h
    rw [List.map_injective_iff.mpr (fun _ _ => String.ofList_injective) h]
  · rintro rfl
    rfl

/-- The valid path `a` is `p` or an ancestor of it. -/
structure IsAbove (a p : String) : Prop where
  /-- It is a valid path. -/
  valid : IsValid a
  /-- Its segments begin the other's. -/
  segments : segments a <+: segments p

/-- A valid path is at or above itself. -/
theorem IsValid.isAbove {p : String} (h : IsValid p) : IsAbove p p := ⟨h, List.prefix_rfl⟩

/-- Paths above a path above another one are above that. -/
theorem IsAbove.trans {a b p : String} (h : IsAbove a b) (h' : IsAbove b p) : IsAbove a p :=
  ⟨h.valid, h.segments.trans h'.segments⟩

/-- Of two nodes above the same one, one lies above the other. -/
theorem IsAbove.total {a b p : String} (h : IsAbove a p) (h' : IsAbove b p) :
    IsAbove a b ∨ IsAbove b a :=
  (List.prefix_or_prefix_of_prefix h.segments h'.segments).imp (.mk h.valid) (.mk h'.valid)

/-- The root is at or above all paths. -/
theorem isAbove_root (p : String) : IsAbove root p := ⟨isValid_root, by simp⟩

/-- Nothing else is at or above the root. -/
theorem isAbove_root_iff {a : String} : IsAbove a root ↔ a = root := by
  constructor
  · rintro ⟨ha, hs⟩
    rw [segments_root, List.prefix_nil] at hs
    exact (segments_inj ha isValid_root).mp (by simpa using hs)
  · rintro rfl
    exact isValid_root.isAbove

/-- A child has itself above it, and what its parent has. -/
theorem isAbove_join_iff {a q s : String} (hq : IsValid q) (hs : IsName s) :
    IsAbove a (join [q, s]) ↔ a = join [q, s] ∨ IsAbove a q := by
  constructor
  · rintro ⟨ha, h⟩
    rw [segments_join hq hs, List.prefix_concat_iff, ← List.concat_eq_append,
      List.concat_eq_append, ← segments_join hq hs] at h
    rcases h with h | h
    · exact .inl ((segments_inj ha (hq.join hs)).mp h)
    · exact .inr ⟨ha, h⟩
  · rintro (rfl | h)
    · exact (hq.join hs).isAbove
    · refine h.trans ⟨hq, ?_⟩
      rw [segments_join hq hs]
      exact List.prefix_append _ _

/-- A path is above its children. -/
theorem isAbove_join {q s : String} (hq : IsValid q) (hs : IsName s) : IsAbove q (join [q, s]) :=
  (isAbove_join_iff hq hs).mpr (.inr hq.isAbove)

/-- The parent of a path is at or above it. -/
theorem parent_isAbove {p : String} (hp : IsValid p) : IsAbove (parent p) p := by
  rcases hp.eq_root_or_join with rfl | ⟨q, s, hq, hs, rfl⟩
  · rw [parent_root]
    exact hp.isAbove
  · rw [parent_join hq hs]
    exact isAbove_join hq hs

/-- What lies above a node, and is not the node, lies above its parent. -/
theorem IsAbove.parent {a p : String} (h : IsAbove a p) (hp : IsValid p) (hne : p ≠ a) :
    IsAbove a (parent p) := by
  obtain rfl | ⟨q, s, hq, hs, rfl⟩ := hp.eq_root_or_join
  · exact absurd (isAbove_root_iff.mp h).symm hne
  · rw [parent_join hq hs]
    exact ((isAbove_join_iff hq hs).mp h).resolve_left (Ne.symm hne)

/-- No node lies above its own parent. -/
theorem not_isAbove_of_join {q s : String} (hq : IsValid q) (hs : IsName s) :
    ¬ IsAbove (join [q, s]) q := by
  intro h
  have hl := h.segments.length_le
  rw [segments_join hq hs, List.length_append, List.length_singleton] at hl
  omega

/-- A path other than the root is not at or above its parent. -/
theorem not_isAbove_parent {p : String} (hp : IsValid p) (hne : p ≠ root) :
    ¬ IsAbove p (parent p) := by
  have h := not_isAbove_of_join hp.parent (hp.leaf hne)
  rwa [join_parent_leaf hp hne] at h

/-- From a path to one below it leads a child of the upper one. -/
theorem IsAbove.exists_child {a p : String} (h : IsAbove a p) (hp : IsValid p) (hne : a ≠ p) :
    ∃ s, IsName s ∧ IsAbove (join [a, s]) p := by
  induction hp using IsValid.induction with
  | atRoot => exact absurd (isAbove_root_iff.mp h) hne
  | atChild q s hq hs ih =>
    rcases (isAbove_join_iff hq hs).mp h with rfl | hup
    · exact absurd rfl hne
    · by_cases he : a = q
      · subst he
        exact ⟨s, hs, (hq.join hs).isAbove⟩
      · obtain ⟨t, ht, hbelow⟩ := ih hup he
        exact ⟨t, ht, hbelow.trans (isAbove_join hq hs)⟩

/-- The beginnings of a child are those of its parent, of which the root has none, and the child. -/
theorem prefixes_join {q s : String} (hq : IsValid q) (hs : IsName s) :
    prefixes (join [q, s]) = (if q = root then [] else prefixes q) ++ [join [q, s]] := by
  obtain ⟨segs, h, rfl⟩ := isValid_iff.mp hq
  have hroot : String.ofList (spell segs) = root ↔ segs = [] := by
    constructor
    · intro he
      have hl := congrArg segments he
      rw [segments_root, segments, String.toList_ofList, segmentChars_spell h] at hl
      simpa using hl
    · rintro rfl
      decide
  rw [join_ofList_spell h hs, prefixes, String.toList_ofList]
  by_cases hsegs : segs = []
  · rw [if_pos (hroot.mpr hsegs), hsegs, List.nil_append, prefixChars_spell_singleton hs]
    simp
  · rw [if_neg (mt hroot.mp hsegs), prefixChars_spell_concat hsegs hs, prefixes,
      String.toList_ofList]
    simp

/-- Below the root, the beginnings of a path are the nodes above it other than the root. -/
theorem mem_prefixes_iff {a p : String} (hp : IsValid p) (hne : p ≠ root) :
    a ∈ prefixes p ↔ a ≠ root ∧ IsAbove a p := by
  induction hp using IsValid.induction with
  | atRoot => exact absurd rfl hne
  | atChild q s hq hs ih =>
    have hup : a ∈ (if q = root then [] else prefixes q) ↔ a ≠ root ∧ IsAbove a q := by
      by_cases hroot : q = root
      · rw [if_pos hroot, hroot, isAbove_root_iff]
        simp
      · rw [if_neg hroot]
        exact ih hroot
    rw [prefixes_join hq hs, List.mem_append, List.mem_singleton, hup, isAbove_join_iff hq hs]
    constructor
    · rintro (⟨ha, h⟩ | rfl)
      · exact ⟨ha, .inr h⟩
      · exact ⟨join_ne_root hq hs, .inl rfl⟩
    · rintro ⟨ha, rfl | h⟩
      · exact .inr rfl
      · exact .inl ⟨ha, h⟩

/-- All beginnings of a path lie above it. -/
theorem isAbove_of_mem_prefixes {a p : String} (hp : IsValid p) (h : a ∈ prefixes p) :
    IsAbove a p := by
  by_cases hne : p = root
  · rw [hne, prefixes_root, List.mem_singleton] at h
    rw [h, hne]
    exact isValid_root.isAbove
  · exact ((mem_prefixes_iff hp hne).mp h).2

/-- No path is listed twice. -/
theorem nodup_prefixes {p : String} (hp : IsValid p) : (prefixes p).Nodup := by
  induction hp using IsValid.induction with
  | atRoot => simp
  | atChild q s hq hs ih =>
    rw [prefixes_join hq hs, List.nodup_append]
    refine ⟨?_, by simp, ?_⟩
    · split
      · exact List.nodup_nil
      · exact ih
    · rintro a ha b hb rfl
      rw [List.mem_singleton] at hb
      split at ha
      · cases ha
      · have hup := isAbove_of_mem_prefixes hq ha
        rw [hb] at hup
        exact not_isAbove_of_join hq hs hup

/-- There always is a path to start from. -/
theorem prefixes_ne_nil {p : String} (hp : IsValid p) : prefixes p ≠ [] := by
  obtain rfl | ⟨q, s, hq, hs, rfl⟩ := hp.eq_root_or_join
  · simp
  · rw [prefixes_join hq hs]
    simp

/-- Without its last member, which is the path itself, the list holds the proper ancestors. -/
theorem mem_dropLast_prefixes_iff {a p : String} (hp : IsValid p) (hne : p ≠ root) :
    a ∈ (prefixes p).dropLast ↔ a ≠ root ∧ IsAbove a p ∧ a ≠ p := by
  obtain rfl | ⟨q, s, hq, hs, rfl⟩ := hp.eq_root_or_join
  · exact absurd rfl hne
  rw [isAbove_join_iff hq hs, prefixes_join hq hs, List.dropLast_concat]
  by_cases hroot : q = root
  · rw [if_pos hroot, hroot, isAbove_root_iff]
    constructor
    · intro h
      simp at h
    · rintro ⟨ha, he | he, hj⟩
      · exact absurd he hj
      · exact absurd he ha
  · rw [if_neg hroot, mem_prefixes_iff hq hroot]
    constructor
    · rintro ⟨ha, hup⟩
      refine ⟨ha, .inr hup, ?_⟩
      rintro rfl
      exact not_isAbove_of_join hq hs hup
    · rintro ⟨ha, he | hup, hj⟩
      · exact absurd he hj
      · exact ⟨ha, hup⟩

/-- The list up to one of its members is the list of that member. -/
theorem prefixes_of_append {p q : String} (hp : IsValid p) {a b : List String}
    (h : prefixes p = a ++ q :: b) : prefixes q = a ++ [q] := by
  induction hp using IsValid.induction generalizing b with
  | atRoot =>
    rw [prefixes_root] at h
    cases a with
    | nil =>
      obtain rfl := List.head_eq_of_cons_eq h
      rw [prefixes_root, List.nil_append]
    | cons r a => simp at h
  | atChild r s hr hs ih =>
    rcases List.eq_nil_or_concat b with rfl | ⟨b, l, rfl⟩
    · have hlast := h
      rw [prefixes_join hr hs] at hlast
      obtain rfl := List.head_eq_of_cons_eq (List.append_inj' hlast rfl).2
      exact h
    · rw [prefixes_join hr hs, List.concat_eq_append, ← List.cons_append, ← List.append_assoc] at h
      have hup := (List.append_inj' h rfl).1
      by_cases hroot : r = root
      · rw [if_pos hroot] at hup
        simp at hup
      · rw [if_neg hroot] at hup
        exact ih hup

/-- Each of the listed paths comes behind all the others above it. -/
theorem isAbove_of_prefixes {p q : String} (hp : IsValid p) (hne : p ≠ root) {a b : List String}
    (h : prefixes p = a ++ q :: b) {r : String} : r ∈ a ++ [q] ↔ r ≠ root ∧ IsAbove r q := by
  have hq : q ≠ root ∧ IsAbove q p := by
    rw [← mem_prefixes_iff hp hne, h]
    simp
  rw [← prefixes_of_append hp h, mem_prefixes_iff hq.2.valid hq.1]

end TreeStore.Path
