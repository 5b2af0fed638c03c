import TreeStore.Proofs.Path.Ancestry

/-!
# Joining texts

Each text adds the pieces of its stripped form to a join, independently of the other texts. Neither
the first nor the last of these is empty, so that a join can be taken apart into them again. So a
join is valid exactly if each text, joined alone, is, and then it has the segments of all of them.
Valid paths may thus be appended to each other; below a path the tree of paths is repeated. What the
first segments of a path are joined to are the nodes along it.
-/

namespace TreeStore.Path

/-- The pieces that a text adds to a join. A text of separators adds none. -/
def joinPieces (p : List Char) : List (List Char) := if strip p = [] then [] else pieces (strip p)

/-- A chain of segments has a separator in front of it and one between any two. -/
private theorem chain_eq_intercalate {s : List Char} {segs : List (List Char)} :
    chain (s :: segs) = separator :: [separator].intercalate (s :: segs) := by
  induction segs generalizing s with
  | nil => simp [List.intercalate]
  | cons t segs ih => rw [chain_cons, ih, List.intercalate_cons_cons, List.append_assoc]; rfl

/-- Only pieces of which something is left after stripping add to the chain. -/
private theorem chain_flatMap_joinPieces (ps : List (List Char)) :
    chain (ps.flatMap joinPieces) = chain ((ps.map strip).filter (· ≠ [])) := by
  induction ps with
  | nil => rfl
  | cons p ps ih =>
    rw [List.flatMap_cons, chain_append, ih, List.map_cons]
    by_cases h : strip p = []
    · rw [List.filter_cons_of_neg (by simpa using h), joinPieces, if_pos h, chain_nil,
        List.nil_append]
    · rw [List.filter_cons_of_pos (by simpa using h), joinPieces, if_neg h, chain_pieces,
        chain_cons, List.cons_append]

/-- A join is the spelling of the pieces of its texts. -/
theorem joinChars_eq_spell (ps : List (List Char)) :
    joinChars ps = spell (ps.flatMap joinPieces) := by
  have h := chain_flatMap_joinPieces ps
  rw [joinChars]
  cases hp : (ps.map strip).filter (· ≠ []) with
  | nil =>
    rw [hp, chain_nil, chain_eq_nil] at h
    rw [h]
    rfl
  | cons q qs =>
    rw [hp] at h
    have hne : ps.flatMap joinPieces ≠ [] := by
      intro he
      rw [he] at h
      simp at h
    rw [spell_of_ne_nil hne, h, chain_eq_intercalate]

/-- Pieces with characters in the first one and in the last one. No separator can be stripped from
their chain, other than the one in front. -/
structure Framed (segs : List (List Char)) : Prop where
  /-- No piece holds a separator. -/
  not_mem : ∀ s ∈ segs, separator ∉ s
  /-- The first piece is not empty. -/
  head_ne : segs.head? ≠ some []
  /-- The last piece is not empty. -/
  last_ne : segs.getLast? ≠ some []

/-- No segments at all are framed. -/
theorem framed_nil : Framed [] := ⟨by simp, by simp, by simp⟩

/-- Proper segments are framed. -/
theorem framed_of_isSegment {segs : List (List Char)} (h : ∀ s ∈ segs, IsSegment s) :
    Framed segs where
  not_mem s hs := (h s hs).not_mem
  head_ne he := (h [] (List.mem_of_head? he)).ne_nil rfl
  last_ne he := (h [] (List.mem_of_getLast? he)).ne_nil rfl

/-- Framed segments may be put one after the other. -/
theorem Framed.append {a b : List (List Char)} (ha : Framed a) (hb : Framed b) :
    Framed (a ++ b) := by
  refine ⟨List.forall_mem_append.mpr ⟨ha.not_mem, hb.not_mem⟩, ?_, ?_⟩
  · rw [List.head?_append]
    cases h : a.head? with
    | none => exact hb.head_ne
    | some s => exact fun he => ha.head_ne (h.trans he)
  · rw [List.getLast?_append]
    cases h : b.getLast? with
    | none => exact ha.last_ne
    | some s => exact fun he => hb.last_ne (h.trans he)

/-- A stripped text does not begin with the separator. -/
theorem head?_strip (p : List Char) : (strip p).head? ≠ some separator := by
  intro h
  have hsuffix := List.dropWhile_suffix (l := (p.dropWhile (· = separator)).reverse)
    (· = separator)
  have hprefix : strip p <+: p.dropWhile (· = separator) := by
    rw [strip]
    simpa using List.reverse_prefix.mpr hsuffix
  obtain ⟨rest, hrest⟩ := hprefix
  have hnot := List.head?_dropWhile_not (· = separator) p
  rw [← hrest, List.head?_append, h] at hnot
  simp at hnot

/-- A stripped text does not end with the separator. -/
theorem getLast?_strip (p : List Char) : (strip p).getLast? ≠ some separator := by
  intro h
  rw [strip, List.getLast?_reverse] at h
  have hnot := List.head?_dropWhile_not (· = separator) (p.dropWhile (· = separator)).reverse
  rw [h] at hnot
  simp at hnot

/-- The pieces that a text adds to a join are framed. -/
theorem framed_joinPieces (p : List Char) : Framed (joinPieces p) := by
  unfold joinPieces
  split
  · exact framed_nil
  rename_i hne
  have hchain := chain_pieces (strip p)
  refine ⟨fun s => not_mem_of_mem_pieces, fun h => ?_, fun h => ?_⟩
  · obtain ⟨rest, hrest⟩ := List.head?_eq_some_iff.mp h
    rw [hrest, chain_cons, List.nil_append, List.cons_inj_right] at hchain
    cases rest with
    | nil => exact hne hchain.symm
    | cons s rest => exact head?_strip p (by rw [← hchain, chain_cons, List.head?_cons])
  · obtain ⟨init, hinit⟩ := List.getLast?_eq_some_iff.mp h
    rw [hinit, chain_append, chain_cons, chain_nil, List.append_nil] at hchain
    cases init with
    | nil => exact hne (by simpa using hchain.symm)
    | cons s init =>
      rw [chain_cons, List.cons_append, List.cons_inj_right] at hchain
      exact getLast?_strip p (by rw [← hchain, List.getLast?_concat])

/-- The segments that pieces add are framed. -/
theorem framed_flatMap_joinPieces (ps : List (List Char)) : Framed (ps.flatMap joinPieces) := by
  induction ps with
  | nil => exact framed_nil
  | cons p ps ih => exact (framed_joinPieces p).append ih

/-- A chain ends like its last member. -/
theorem Framed.getLast?_chain {segs : List (List Char)} (h : Framed segs) :
    (chain segs).getLast? ≠ some separator := by
  rcases List.eq_nil_or_concat segs with rfl | ⟨init, l, rfl⟩
  · simp
  rw [List.concat_eq_append] at h ⊢
  have hl : l ≠ [] := fun he => h.last_ne (by simp [he])
  obtain ⟨l, c, rfl⟩ := (List.eq_nil_or_concat l).resolve_left hl
  rw [List.concat_eq_append] at h ⊢
  have hchain : chain (init ++ [l ++ [c]]) = (chain init ++ separator :: l) ++ [c] := by simp
  rw [hchain, List.getLast?_concat]
  intro hc
  exact h.not_mem (l ++ [c]) (by simp) (by simp [Option.some.inj hc])

/-- Behind its first separator a chain is as if it were stripped. -/
theorem Framed.strip_chain {s : List Char} {segs : List (List Char)} (h : Framed (s :: segs)) :
    strip (chain (s :: segs)) = s ++ chain segs := by
  have hs : s ≠ [] := fun he => h.head_ne (by simp [he])
  have hlast := h.getLast?_chain
  rw [chain_cons] at hlast ⊢
  rw [strip_separator_cons]
  obtain ⟨c, s, rfl⟩ := List.exists_cons_of_ne_nil hs
  refine strip_eq_self (fun he => ?_) (fun he => hlast ?_)
  · have hc : c = separator := by simpa using he
    exact h.not_mem _ List.mem_cons_self (by simp [hc])
  · rwa [List.cons_append, List.getLast?_cons_cons]

/-- The spelling of framed pieces adds just these to a join. -/
theorem Framed.joinPieces_spell {segs : List (List Char)} (h : Framed segs) :
    joinPieces (spell segs) = segs := by
  cases segs with
  | nil => decide
  | cons s segs =>
    have hs : s ≠ [] := fun he => h.head_ne (by simp [he])
    rw [joinPieces, spell_of_ne_nil (by simp), h.strip_chain, if_neg (by simp [hs]),
      pieces_append_chain (h.not_mem s List.mem_cons_self)
        fun t ht => h.not_mem t (List.mem_cons_of_mem s ht)]

/-- A spelling starts with one separator, and no other one stands at its ends. -/
theorem Framed.exists_spell {segs : List (List Char)} (h : Framed segs) :
    ∃ rest, spell segs = separator :: rest ∧ rest.head? ≠ some separator ∧
      rest.getLast? ≠ some separator := by
  cases segs with
  | nil => exact ⟨[], rfl, by simp, by simp⟩
  | cons s segs =>
    refine ⟨s ++ chain segs, by rw [spell_of_ne_nil (by simp), chain_cons], ?_⟩
    rw [← h.strip_chain]
    exact ⟨head?_strip _, getLast?_strip _⟩

/-- Framed pieces are known by their spelling. -/
theorem Framed.spell_inj {a b : List (List Char)} (ha : Framed a) (hb : Framed b)
    (h : spell a = spell b) : a = b := by
  rw [← ha.joinPieces_spell, h, hb.joinPieces_spell]

/-- A spelling is accepted exactly if all pieces are segments. -/
theorem Framed.fault?_spell {segs : List (List Char)} (h : Framed segs) :
    fault? false (spell segs) = none ↔ ∀ s ∈ segs, IsSegment s := by
  rw [fault?_eq_none_iff]
  constructor
  · rintro ⟨segs', hsegs, he⟩
    rwa [h.spell_inj (framed_of_isSegment hsegs) he]
  · intro hsegs
    exact ⟨segs, hsegs, rfl⟩

/-- A join is free of faults exactly if all segments that its pieces add are proper. -/
theorem fault?_joinChars (ps : List (List Char)) :
    fault? false (joinChars ps) = none ↔ ∀ p ∈ ps, ∀ s ∈ joinPieces p, IsSegment s := by
  rw [joinChars_eq_spell, (framed_flatMap_joinPieces ps).fault?_spell]
  simp only [List.mem_flatMap, forall_exists_index, and_imp]
  exact ⟨fun h p hp s hs => h s p hp hs, fun h s p hp hs => h p hp s hs⟩

/-- The segments of such a join are those that its pieces add. -/
theorem segmentChars_joinChars {ps : List (List Char)}
    (h : ∀ p ∈ ps, ∀ s ∈ joinPieces p, IsSegment s) :
    segmentChars (joinChars ps) = ps.flatMap joinPieces := by
  rw [joinChars_eq_spell, segmentChars_spell]
  simp only [List.mem_flatMap, forall_exists_index, and_imp]
  exact fun s p hp hs => h p hp s hs

/-- A join spells the segments that its pieces add. -/
theorem toList_join (ps : List String) :
    (join ps).toList = spell (ps.flatMap fun p => joinPieces p.toList) := by
  rw [join, String.toList_ofList, joinChars_eq_spell, List.flatMap_map]

/-- A join is valid exactly if each of its texts, joined alone, is. -/
theorem isValid_join_iff {ps : List String} : IsValid (join ps) ↔ ∀ p ∈ ps, IsValid (join [p]) := by
  have hfault : ∀ qs : List String, IsValid (join qs) ↔
      ∀ q ∈ qs, ∀ s ∈ joinPieces q.toList, IsSegment s := by
    intro qs
    rw [show IsValid (join qs) ↔ fault? false (join qs).toList = none from
      ⟨fun h => h.fault, .mk⟩, join, String.toList_ofList, fault?_joinChars]
    simp
  rw [hfault]
  refine forall₂_congr fun p _ => ?_
  rw [hfault]
  simp

/-- A valid join has the segments of all its texts. -/
theorem segments_join_of_isValid {ps : List String} (h : ∀ p ∈ ps, IsValid (join [p])) :
    segments (join ps) = ps.flatMap fun p => segments (join [p]) := by
  have hseg : ∀ qs : List String, IsValid (join qs) →
      segments (join qs) = qs.flatMap fun q => (joinPieces q.toList).map String.ofList := by
    intro qs hq
    have hall := (fault?_joinChars _).mp (by simpa [join, fault] using hq.fault)
    rw [segments, join, String.toList_ofList, segmentChars_joinChars hall, List.map_flatMap,
      List.flatMap_map]
  rw [hseg ps (isValid_join_iff.mpr h), List.flatMap_def, List.flatMap_def]
  congr 1
  refine List.map_congr_left fun p hp => ?_
  rw [hseg [p] (h p hp), List.flatMap_singleton]

/-- A valid path is its own join. -/
theorem IsValid.join_singleton {p : String} (h : IsValid p) : Path.join [p] = p := by
  obtain ⟨segs, hs, rfl⟩ := isValid_iff.mp h
  rw [Path.join, joinChars_eq_spell, List.map_singleton, List.flatMap_singleton,
    String.toList_ofList, (framed_of_isSegment hs).joinPieces_spell]

/-- Nothing joined is the root. -/
@[simp] theorem join_nil : join [] = root := by
  rw [join]
  rfl

/-- An empty piece adds nothing. -/
theorem join_empty_cons (ps : List String) : join ("" :: ps) = join ps := by
  rw [join, join]
  rfl

/-- Texts are joined as they are. An empty one, which counts as false, makes no difference. -/
theorem joinValues_front (front : String) {p : String} (hp : p ≠ "") :
    joinValues [.str front, .str p] = .ok (join [front, p]) := by
  have hp' : (Value.str p).truthy = true := by simpa [Value.truthy] using hp
  by_cases hf : front = ""
  · have hf' : ¬ (Value.str front).truthy = true := by simp [Value.truthy, hf]
    rw [joinValues, List.filter_cons_of_neg hf', List.filter_cons_of_pos hp', List.filter_nil, hf,
      join_empty_cons]
    rfl
  · have hf' : (Value.str front).truthy = true := by simpa [Value.truthy] using hf
    rw [joinValues, List.filter_cons_of_pos hf', List.filter_cons_of_pos hp', List.filter_nil]
    rfl

/-- Values that are joined to a valid path leave it or lead to a path below it. -/
theorem isAbove_of_joinValues {q p : String} (hq : IsValid q) {child : Value}
    (h : joinValues [.str q, child] = .ok p) (hp : IsValid p) : IsAbove q p := by
  have hq' : (Value.str q).truthy = true := by simpa [Value.truthy] using hq.ne_empty
  rw [joinValues, List.filter_cons_of_pos hq'] at h
  by_cases hc : child.truthy = true
  · rw [List.filter_cons_of_pos hc, List.filter_nil] at h
    cases child with
    | str s =>
      obtain rfl : join [q, s] = p := Except.ok.inj h
      refine ⟨hq, ?_⟩
      rw [segments_join_of_isValid (isValid_join_iff.mp hp), List.flatMap_cons, hq.join_singleton]
      exact List.prefix_append _ _
    | _ => cases h
  · rw [List.filter_cons_of_neg hc, List.filter_nil] at h
    obtain rfl : join [q] = p := Except.ok.inj h
    rw [hq.join_singleton]
    exact hq.isAbove

section Append

variable {top p q : String}

/-- A valid path behind a valid path is valid. -/
theorem IsValid.append (ht : IsValid top) (hp : IsValid p) : IsValid (Path.join [top, p]) := by
  rw [isValid_join_iff]
  simp [ht.join_singleton, ht, hp.join_singleton, hp]

/-- The segments of a path behind a path are those of the one and then those of the other. -/
theorem segments_append (ht : IsValid top) (hp : IsValid p) :
    segments (join [top, p]) = segments top ++ segments p := by
  rw [segments_join_of_isValid (isValid_join_iff.mp (ht.append hp))]
  simp [ht.join_singleton, hp.join_singleton]

/-- Texts that are valid when they are joined may be joined in two groups. -/
theorem join_append {ps qs : List String} (hps : IsValid (join ps)) (hqs : IsValid (join qs)) :
    join (ps ++ qs) = join [join ps, join qs] := by
  have hall : ∀ p ∈ ps ++ qs, IsValid (join [p]) := by
    rw [List.forall_mem_append]
    exact ⟨isValid_join_iff.mp hps, isValid_join_iff.mp hqs⟩
  rw [← segments_inj (isValid_join_iff.mpr hall) (hps.append hqs), segments_append hps hqs,
    segments_join_of_isValid hall, List.flatMap_append,
    ← segments_join_of_isValid (isValid_join_iff.mp hps),
    ← segments_join_of_isValid (isValid_join_iff.mp hqs)]

/-- The root behind a path is that path. -/
theorem append_root (ht : IsValid top) : join [top, root] = top := by
  rw [← segments_inj (ht.append isValid_root) ht, segments_append ht isValid_root, segments_root,
    List.append_nil]

/-- A path behind the root is that path. -/
theorem root_append (hp : IsValid p) : join [root, p] = p := by
  rw [← segments_inj (isValid_root.append hp) hp, segments_append isValid_root hp, segments_root,
    List.nil_append]

/-- It makes no difference whether a name is added before or after the path goes below another one.
-/
theorem append_join (ht : IsValid top) (hp : IsValid p) {s : String} (hs : IsName s) :
    join [top, join [p, s]] = join [join [top, p], s] := by
  have hps := hp.join hs
  rw [← segments_inj (ht.append hps) ((ht.append hp).join hs), segments_append ht hps,
    segments_join hp hs, segments_join (ht.append hp) hs, segments_append ht hp, List.append_assoc]

/-- Different paths behind the same one are different. -/
theorem append_inj (ht : IsValid top) (hp : IsValid p) (hq : IsValid q) :
    join [top, p] = join [top, q] ↔ p = q := by
  rw [← segments_inj (ht.append hp) (ht.append hq), segments_append ht hp, segments_append ht hq,
    List.append_cancel_left_eq, segments_inj hp hq]

/-- Only the root behind the root is the root. -/
theorem append_ne_root (ht : IsValid top) (hp : IsValid p) (hne : p ≠ root) :
    join [top, p] ≠ root := by
  intro he
  have h := segments_append ht hp
  rw [he, segments_root, eq_comm, List.append_eq_nil_iff, ← segments_root,
    segments_inj hp isValid_root] at h
  exact hne h.2

/-- The parent is taken of the path behind. -/
theorem parent_append (ht : IsValid top) (hp : IsValid p) (hne : p ≠ root) :
    parent (join [top, p]) = join [top, parent p] := by
  obtain rfl | ⟨q, s, hq, hs, rfl⟩ := hp.eq_root_or_join
  · exact absurd rfl hne
  · rw [append_join ht hq hs, parent_join (ht.append hq) hs, parent_join hq hs]

/-- The leaf is taken of the path behind. -/
theorem leaf_append (ht : IsValid top) (hp : IsValid p) (hne : p ≠ root) :
    leaf (join [top, p]) = leaf p := by
  obtain rfl | ⟨q, s, hq, hs, rfl⟩ := hp.eq_root_or_join
  · exact absurd rfl hne
  · rw [append_join ht hq hs, leaf_join (ht.append hq) hs, leaf_join hq hs]

/-- Behind the same path two paths lie as they do by themselves. -/
theorem isAbove_append_iff (ht : IsValid top) (hq : IsValid q) (hp : IsValid p) :
    IsAbove (join [top, q]) (join [top, p]) ↔ IsAbove q p := by
  constructor
  · rintro ⟨-, h⟩
    rw [segments_append ht hq, segments_append ht hp, List.prefix_append_right_inj] at h
    exact ⟨hq, h⟩
  · rintro ⟨-, h⟩
    refine ⟨ht.append hq, ?_⟩
    rwa [segments_append ht hq, segments_append ht hp, List.prefix_append_right_inj]

/-- A path lies above those behind it. -/
theorem isAbove_append (ht : IsValid top) (hp : IsValid p) : IsAbove top (join [top, p]) := by
  refine ⟨ht, ?_⟩
  rw [segments_append ht hp]
  exact List.prefix_append _ _

/-- Each path below another one is the latter with a path behind it. -/
theorem IsAbove.exists_append (h : IsAbove top q) (hq : IsValid q) :
    ∃ p, IsValid p ∧ q = join [top, p] := by
  induction hq using IsValid.induction with
  | atRoot =>
    obtain rfl := isAbove_root_iff.mp h
    exact ⟨root, isValid_root, (append_root isValid_root).symm⟩
  | atChild q s hq hs ih =>
    rcases (isAbove_join_iff hq hs).mp h with rfl | hup
    · exact ⟨root, isValid_root, (append_root h.valid).symm⟩
    · obtain ⟨p, hp, rfl⟩ := ih hup
      exact ⟨join [p, s], hp.join hs, (append_join h.valid hp hs).symm⟩

end Append

/-- A proper segment adds itself. -/
theorem joinPieces_of_isSegment {s : List Char} (h : IsSegment s) : joinPieces s = [s] := by
  rw [joinPieces, h.strip_eq, if_neg h.ne_nil, pieces_of_not_mem h.not_mem]

/-- A join of names is the spelling of these. -/
theorem join_names {names : List String} (h : ∀ s ∈ names, IsName s) :
    join names = String.ofList (spell (names.map String.toList)) := by
  have hpieces : (names.flatMap fun s => joinPieces s.toList) = names.map String.toList := by
    rw [List.map_eq_flatMap]
    exact List.flatMap_congr fun s hs => joinPieces_of_isSegment (h s hs)
  rw [← String.toList_inj, toList_join, hpieces, String.toList_ofList]

/-- The segments of a path are joined to the path. -/
theorem IsValid.join_segments {p : String} (h : IsValid p) : Path.join (segments p) = p := by
  obtain ⟨segs, hs, rfl⟩ := isValid_iff.mp h
  have hnames : ∀ s ∈ segs.map String.ofList, IsName s := by
    simpa [IsName, List.forall_mem_map] using hs
  rw [segments, String.toList_ofList, segmentChars_spell hs, join_names hnames, List.map_map]
  simp [Function.comp_def]

/-- The paths that the first segments of a path make up, from the topmost node below the root down
to the path itself; the root has itself alone. -/
def lineage (p : String) : List String :=
  if p = root then [root]
  else (List.range (segments p).length).map fun i => join ((segments p).take (i + 1))

/-- The root alone leads to the root. -/
theorem lineage_root : lineage root = [root] := if_pos rfl

/-- To any other path lead those that its first segments spell. -/
theorem lineage_of_ne_root {p : String} (h : p ≠ root) :
    lineage p = (List.range (segments p).length).map fun i => join ((segments p).take (i + 1)) :=
  if_neg h

/-- To a child lead the paths to its parent and then its own. -/
theorem lineage_join {q s : String} (hq : IsValid q) (hs : IsName s) :
    lineage (join [q, s]) = (if q = root then [] else lineage q) ++ [join [q, s]] := by
  have hsegments := segments_join hq hs
  have hshort : ∀ i ∈ List.range (segments q).length,
      join ((segments (join [q, s])).take (i + 1)) = join ((segments q).take (i + 1)) := by
    intro i hi
    rw [hsegments, List.take_append_of_le_length (List.mem_range.mp hi)]
  have hall : (segments (join [q, s])).take ((segments q).length + 1) = segments (join [q, s]) := by
    rw [hsegments, List.take_of_length_le (by simp)]
  have hupper : (List.range (segments q).length).map (fun i => join ((segments q).take (i + 1))) =
      if q = root then [] else lineage q := by
    split
    · rename_i hroot
      rw [hroot, segments_root]
      rfl
    · rename_i hroot
      rw [lineage_of_ne_root hroot]
  rw [lineage_of_ne_root (join_ne_root hq hs), hsegments, List.length_append, List.length_singleton,
    List.range_succ, List.map_append, ← hsegments, List.map_congr_left hshort, hupper,
    List.map_singleton, hall, (hq.join hs).join_segments]

/-- The beginnings of a path are its first segments, joined. -/
theorem IsValid.prefixes_eq_lineage {p : String} (h : IsValid p) : prefixes p = lineage p := by
  induction h using IsValid.induction with
  | atRoot => rw [prefixes_root, lineage_root]
  | atChild q s hq hs ih => rw [prefixes_join hq hs, lineage_join hq hs, ih]

end TreeStore.Path
