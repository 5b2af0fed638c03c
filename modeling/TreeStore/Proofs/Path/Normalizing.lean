import TreeStore.Proofs.Path.Joining
import Mathlib.Data.List.ReduceOption
import Mathlib.Logic.Function.Iterate

/-!
# Joins in normal form

A join is known by the pieces of its texts, and adds just these to another join, so that texts may
be joined in any grouping. A valid path and the list of its names are two forms of one thing: taking
a path apart and joining names undo each other. A namespace in front of valid paths repeats the tree
of paths below it.
-/

namespace TreeStore.Path

section Texts

variable {ps qs : List String}

theorem framed_join (ps : List String) : Framed (ps.flatMap fun p => joinPieces p.toList) := by
  have h := framed_flatMap_joinPieces (ps.map String.toList)
  rwa [List.flatMap_map] at h

/-- A join adds the pieces of its texts to another one. -/
theorem joinPieces_join (ps : List String) :
    joinPieces (join ps).toList = ps.flatMap fun p => joinPieces p.toList := by
  rw [toList_join, (framed_join ps).joinPieces_spell]

/-- Joins are the same exactly if the pieces of their texts are. -/
theorem join_eq_join_iff : join ps = join qs ↔
    (ps.flatMap fun p => joinPieces p.toList) = qs.flatMap fun q => joinPieces q.toList := by
  constructor
  · intro h
    rw [← joinPieces_join, ← joinPieces_join, h]
  · intro h
    rw [← String.toList_inj, toList_join, toList_join, h]

theorem joinPieces_eq_nil_iff {p : List Char} : joinPieces p = [] ↔ ∀ c ∈ p, c = separator := by
  rw [← strip_eq_nil_iff, joinPieces]
  split
  · simp [*]
  · simp [*, pieces_ne_nil]

theorem joinPieces_empty : joinPieces "".toList = [] := rfl

theorem join_filter_ne_empty (ps : List String) : join (ps.filter (· ≠ "")) = join ps := by
  rw [join_eq_join_iff]
  induction ps with
  | nil => rfl
  | cons p ps ih =>
    by_cases hp : p = ""
    · rw [List.filter_cons_of_neg (by simp [hp]), List.flatMap_cons, ih, hp, joinPieces_empty,
        List.nil_append]
    · rw [List.filter_cons_of_pos (by simp [hp]), List.flatMap_cons, List.flatMap_cons, ih]

/-- A join is accepted exactly if each of its texts, without the separators at its ends and with one
in front, is accepted. -/
theorem isValid_join_iff_strip : IsValid (join ps) ↔ ∀ p ∈ ps, strip p.toList ≠ [] →
    IsValid (String.ofList (separator :: strip p.toList)) := by
  rw [isValid_join_iff]
  refine forall₂_congr fun p _ => ?_
  by_cases h : strip p.toList = []
  · have hroot : join [p] = root := by
      rw [← join_nil, join_eq_join_iff]
      simp [joinPieces, h]
    simp [h, hroot, isValid_root]
  · have hstripped : join [p] = String.ofList (separator :: strip p.toList) := by
      simp [join, joinChars, h, List.intercalate]
    simp [h, hstripped]

end Texts

/-- What a piece of a join is given as: a text, or nothing if it is missing. -/
def pieceValue : Option String → Value
  | none => .null
  | some s => .str s

/-- Missing pieces are left out of a join. -/
theorem joinValues_pieces (xs : List (Option String)) :
    joinValues (xs.map pieceValue) = .ok (join xs.reduceOption) := by
  have htruthy : (xs.map pieceValue).filter Value.truthy =
      (xs.reduceOption.filter (· ≠ "")).map Value.str := by
    induction xs with
    | nil => rfl
    | cons x xs ih =>
      cases x with
      | none => exact ih
      | some s =>
        rw [List.map_cons, List.reduceOption_cons_of_some]
        by_cases hs : s = ""
        · rw [List.filter_cons_of_neg (by simp [pieceValue, Value.truthy, hs]), ih,
            List.filter_cons_of_neg (by simp [hs])]
        · rw [List.filter_cons_of_pos (by simp [pieceValue, Value.truthy, hs]), ih,
            List.filter_cons_of_pos (by simp [hs]), List.map_cons, pieceValue]
  have htexts (ps : List String) : ps.mapM (m := Except Problem) (fun s => .ok s) = .ok ps :=
    (List.mapM_pure (m := Except Problem) (l := ps) (f := id)).trans (by rw [List.map_id]; rfl)
  rw [joinValues, htruthy, List.mapM_map, ← join_filter_ne_empty]
  exact congrArg (· >>= fun ps => .ok (join ps)) (htexts _)

theorem validate_eq_self_iff {p : String} : validate p false = .ok p ↔ IsValid p :=
  ⟨fun h => ⟨(validate_eq_ok_iff.mp h).1⟩, IsValid.validate⟩

/-- Texts are joined as they are. -/
theorem joinValues_texts (ps : List String) : joinValues (ps.map .str) = .ok (join ps) := by
  have hpieces : ps.map Value.str = (ps.map some).map pieceValue := by
    rw [List.map_map]
    rfl
  rw [hpieces, joinValues_pieces]
  simp [List.reduceOption]

instance (s : List Char) : Decidable (IsSegment s) :=
  decidable_of_iff (s ≠ [] ∧ separator ∉ s ∧
      (s.all fun c => c.toNat != 0 && !isForbidden c) = true ∧ s ≠ ['.'] ∧ s ≠ ['.', '.'])
    ⟨fun ⟨hne, hmem, hallowed, hhere, hup⟩ => ⟨hne, hmem, by simpa using hallowed, hhere, hup⟩,
      fun h => ⟨h.ne_nil, h.not_mem, by simpa using h.allowed, h.ne_here, h.ne_up⟩⟩

instance (s : String) : Decidable (IsName s) := inferInstanceAs (Decidable (IsSegment s.toList))

theorem IsValid.isName_of_mem_segments {p s : String} (h : IsValid p) (hs : s ∈ segments p) :
    IsName s := by
  obtain ⟨segs, hsegs, rfl⟩ := isValid_iff.mp h
  rw [segments, String.toList_ofList, segmentChars_spell hsegs, List.mem_map] at hs
  obtain ⟨t, ht, rfl⟩ := hs
  rw [IsName, String.toList_ofList]
  exact hsegs t ht

theorem isValid_join_names {names : List String} (h : ∀ s ∈ names, IsName s) :
    IsValid (join names) :=
  isValid_iff.mpr ⟨names.map String.toList, List.forall_mem_map.mpr h, join_names h⟩

theorem segments_join_names {names : List String} (h : ∀ s ∈ names, IsName s) :
    segments (join names) = names := by
  rw [join_names h, segments, String.toList_ofList, segmentChars_spell (List.forall_mem_map.mpr h),
    List.map_map]
  simp [Function.comp_def]

/-- A valid path is split into its segments. -/
theorem split_of_validate {p : String} (h : validate p false = .ok p) :
    split (.str p) = .ok (segments p) :=
  congrArg (segments <$> ·) h

/-- The last name of a valid path is its leaf. -/
theorem node_of_validate {p : String} (h : validate p false = .ok p) :
    Path.node (.str p) = .ok (leaf p) :=
  congrArg (leaf <$> ·) h

/-- A valid path falls into its parent and its leaf. -/
theorem parentAndNode_of_validate {p : String} (h : validate p false = .ok p) :
    parentAndNode (.str p) = .ok (parent p, leaf p) := by
  rw [parentAndNode, show checked (.str p) false = .ok p from h]
  rfl

/-- Taking a path apart and joining names undo each other: the segments of a valid path are names
that are joined to the path, and names are joined to a valid path of which they are the segments. -/
theorem splitting_undoes_joining :
    (∀ p, validate p false = .ok p → ∃ names, split (.str p) = .ok names ∧
      (∀ s ∈ names, IsName s) ∧ joinValues (names.map .str) = .ok p) ∧
    (∀ names, (∀ s ∈ names, IsName s) → ∃ p, joinValues (names.map .str) = .ok p ∧
      validate p false = .ok p ∧ split (.str p) = .ok names) := by
  refine ⟨fun p hp => ?_, fun names hnames => ?_⟩
  · have hvalid := validate_eq_self_iff.mp hp
    refine ⟨segments p, split_of_validate hp, fun s => hvalid.isName_of_mem_segments, ?_⟩
    rw [joinValues_texts, hvalid.join_segments]
  · have hp := validate_eq_self_iff.mpr (isValid_join_names hnames)
    refine ⟨join names, joinValues_texts names, hp, ?_⟩
    rw [split_of_validate hp, segments_join_names hnames]

/-- The path of three levels has three names, and is joined from them. -/
theorem splitting_undoes_joining_three :
    (∃ names, split (.str "/one/two/three") = .ok names ∧
      (∀ s ∈ names, IsName s) ∧ joinValues (names.map .str) = .ok "/one/two/three") ∧
    ∃ p, joinValues (["one", "two", "three"].map .str) = .ok p ∧ validate p false = .ok p ∧
      split (.str p) = .ok ["one", "two", "three"] := by
  have hp : validate "/one/two/three" false = .ok "/one/two/three" :=
    validate_eq_self_iff.mpr (by decide)
  have hnames : ∀ s ∈ ["one", "two", "three"], IsName s := by decide
  exact ⟨splitting_undoes_joining.1 _ hp, splitting_undoes_joining.2 _ hnames⟩

/-- A join of joins is one join of all the pieces, and of these the missing ones and those of
separators make no difference. It is its own join; it starts with one separator and, unless it is
the root, does not end with one; and it is accepted exactly if each of its pieces that is more than
separators would be accepted alone, without the separators at its ends and with one in front. -/
theorem joining_normalises (xs ys : List (Option String)) :
    ∃ front back whole,
      joinValues (xs.map pieceValue) = .ok front ∧
      joinValues (ys.map pieceValue) = .ok back ∧
      joinValues ((xs ++ ys).map pieceValue) = .ok whole ∧
      joinValues ((some front :: ys).map pieceValue) = .ok whole ∧
      joinValues ((xs ++ [some back]).map pieceValue) = .ok whole ∧
      joinValues ([some front].map pieceValue) = .ok front ∧
      (∀ x, (∀ s, x = some s → ∀ c ∈ s.toList, c = separator) →
        joinValues ((xs ++ x :: ys).map pieceValue) = .ok whole) ∧
      (∃ rest, front.toList = separator :: rest ∧ rest.head? ≠ some separator) ∧
      (front.toList.getLast? = some separator → front = root) ∧
      (validate front false = .ok front ↔ ∀ s, some s ∈ xs → strip s.toList ≠ [] →
        let alone := String.ofList (separator :: strip s.toList)
        validate alone false = .ok alone) := by
  simp only [joinValues_pieces, List.reduceOption_append, Except.ok.injEq]
  refine ⟨_, _, _, rfl, rfl, rfl, ?_, ?_, ?_, fun x hx => ?_, ?_, fun hlast => ?_, ?_⟩
  · rw [List.reduceOption_cons_of_some, join_eq_join_iff, List.flatMap_cons, joinPieces_join,
      List.flatMap_append]
  · simp [join_eq_join_iff, joinPieces_join, List.reduceOption_cons_of_some]
  · simp [join_eq_join_iff, joinPieces_join]
  · cases x with
    | none => rfl
    | some s =>
      have hs : joinPieces s.toList = [] := joinPieces_eq_nil_iff.mpr (hx s rfl)
      rw [List.reduceOption_cons_of_some, join_eq_join_iff]
      simp [hs]
  · obtain ⟨rest, hrest, hhead, -⟩ := (framed_join xs.reduceOption).exists_spell
    exact ⟨rest, by rw [toList_join, hrest], hhead⟩
  · obtain ⟨rest, hrest, -, hend⟩ := (framed_join xs.reduceOption).exists_spell
    rw [toList_join, hrest] at hlast
    cases rest with
    | nil =>
      rw [← String.toList_inj, toList_join, hrest]
      rfl
    | cons c rest => exact absurd (by rwa [List.getLast?_cons_cons] at hlast) hend
  · simp only [validate_eq_self_iff, isValid_join_iff_strip, List.reduceOption_mem_iff]

/-- What lies above a path is reached from it by going to the parent again and again. -/
theorem isAbove_iff_parents {a p : String} (hp : IsValid p) :
    IsAbove a p ↔ ∃ steps, parent^[steps] p = a := by
  constructor
  · intro h
    induction hp using IsValid.induction with
    | atRoot => exact ⟨0, (isAbove_root_iff.mp h).symm⟩
    | atChild q s hq hs ih =>
      rcases (isAbove_join_iff hq hs).mp h with rfl | hup
      · exact ⟨0, rfl⟩
      · obtain ⟨steps, hsteps⟩ := ih hup
        exact ⟨steps + 1, by rw [Function.iterate_succ_apply, parent_join hq hs, hsteps]⟩
  · rintro ⟨steps, rfl⟩
    induction steps generalizing p with
    | zero => exact hp.isAbove
    | succ steps ih =>
      rw [Function.iterate_succ_apply]
      exact (ih hp.parent).trans (parent_isAbove hp)

/-- A namespace that is a valid path is put in front of a valid path. -/
theorem inNamespace_valid {top p : String} (hp : IsValid p) :
    inNamespace (.str top) (.str p) false = .ok (join [top, p]) := by
  have hchecked : checked (.str p) false = .ok p := hp.validate
  rw [inNamespace, hchecked]
  exact joinValues_texts [top, p]

/-- A namespace embeds the tree of paths: what it makes of valid paths is valid, with its own
segments in front of theirs; it keeps different paths apart; a path lies above another one, where
the parents of that one lead, exactly if it does so in the namespace; and a namespace within another
one is the namespace that the two are joined to. -/
theorem namespace_embeds (outer : String) {top inner p q : String} (htop : IsValid top)
    (hinner : IsValid inner) (hp : IsValid p) (hq : IsValid q) :
    ∃ p' q', inNamespace (.str top) (.str p) false = .ok p' ∧
      inNamespace (.str top) (.str q) false = .ok q' ∧
      validate p' false = .ok p' ∧ segments p' = segments top ++ segments p ∧
      (p' = q' → p = q) ∧
      (IsAbove p q ↔ IsAbove p' q') ∧ (IsAbove p q ↔ ∃ steps, parent^[steps] q = p) ∧
      ∃ below joined both, inNamespace (.str inner) (.str p) false = .ok below ∧
        joinValues [.str outer, .str inner] = .ok joined ∧
        inNamespace (.str outer) (.str below) false = .ok both ∧
        inNamespace (.str joined) (.str p) false = .ok both := by
  refine ⟨_, _, inNamespace_valid hp, inNamespace_valid hq, (htop.append hp).validate,
    segments_append htop hp, (append_inj htop hp hq).mp, (isAbove_append_iff htop hp hq).symm,
    isAbove_iff_parents hq, ?_⟩
  refine ⟨_, _, _, inNamespace_valid hp, joinValues_texts [outer, inner],
    inNamespace_valid (hinner.append hp), ?_⟩
  rw [inNamespace_valid hp, Except.ok.injEq, join_eq_join_iff]
  simp [joinPieces_join]

/-- A name that begins another one is not above it, in a namespace neither; and the root as a
namespace within another one changes nothing. -/
theorem namespace_embeds_siblings :
    ∃ p' q', inNamespace (.str "/app") (.str "/a") false = .ok p' ∧
      inNamespace (.str "/app") (.str "/ab") false = .ok q' ∧ p' ≠ q' ∧ ¬ IsAbove p' q' ∧
      ∃ below both, inNamespace (.str "/") (.str "/a") false = .ok below ∧
        inNamespace (.str "/app") (.str below) false = .ok both ∧ both = p' := by
  have hnot : ¬ IsAbove "/a" "/ab" := fun h => absurd h.segments (by decide +kernel)
  obtain ⟨p', q', hp', hq', -, -, hinjective, habove, -, below, joined, both, hbelow, hjoined,
    hboth, hsame⟩ := namespace_embeds "/app" (by decide : IsValid "/app") (by decide : IsValid "/")
      (by decide : IsValid "/a") (by decide : IsValid "/ab")
  have hjoin : join ["/app", "/"] = "/app" := by decide +kernel
  obtain rfl : joined = "/app" :=
    (Except.ok.inj (hjoined.symm.trans (joinValues_texts ["/app", "/"]))).trans hjoin
  exact ⟨p', q', hp', hq', mt hinjective (by decide), mt habove.mpr hnot, below, both, hbelow,
    hboth, Except.ok.inj (hsame.symm.trans hp')⟩

end TreeStore.Path
