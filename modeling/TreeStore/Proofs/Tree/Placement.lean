import TreeStore.Proofs.Store.Requests
import TreeStore.Proofs.Store.Rerooting
import TreeStore.Proofs.Tree.Demand

/-!
# Sequential nodes below a namespace

A request for a sequential node names a directory and the beginning of a name, which may be missing;
then the request ends with a separator. A namespace in front of a request keeps the directory and
the beginning of the name in their places. But a separator at the end is lost on the way, so that
what was the directory becomes the beginning of the name: the node ends up beside the directory.
-/

namespace TreeStore

namespace Path

/-- Stripping takes a separator off the end. -/
theorem strip_append_separator (p : List Char) : strip (p ++ [separator]) = strip p := by
  rw [strip, strip, List.dropWhile_append]
  split
  · rename_i h
    rw [List.isEmpty_iff.mp h]
    rfl
  · simp

/-- A join does not show whether its last text ends with a separator. -/
theorem join_append_separator (top p : String) :
    join [top, p ++ String.ofList [separator]] = join [top, p] := by
  rw [join, join]
  simp only [joinChars, List.map_cons, List.map_nil, String.toList_append, String.toList_ofList,
    strip_append_separator]

/-- What stands in front of the last separator of a request is its directory. A request without the
beginning of a name joins like its directory, and any other one is a valid path. -/
theorem request_cases {q : String} (hq : fault q true = none) :
    (IsValid q ∧ q ≠ root ∧ leaf q ≠ "") ∨
      leaf q = "" ∧ IsValid (parent q) ∧ (parent q = root ↔ q = root) ∧
        ∀ top, join [top, q] = join [top, parent q] := by
  obtain ⟨segs, hs, he | ⟨hne, he⟩⟩ := fault?_open_eq_none_iff.mp hq
  · have hv : IsValid q := isValid_iff.mpr ⟨segs, hs, by rw [← he, String.ofList_toList]⟩
    by_cases hroot : q = root
    · refine .inr ⟨by rw [hroot, leaf_root], hv.parent, ?_, fun top => ?_⟩
      · rw [hroot, parent_root]
      · rw [hroot, parent_root]
    · exact .inl ⟨hv, hroot, (hv.leaf hroot).ne_empty⟩
  · have hspell : spell segs ≠ [] := by
      rw [spell_of_ne_nil hne]
      exact fun h => hne (chain_eq_nil.mp h)
    have hparent : parent q = String.ofList (spell segs) := by
      rw [parent, he, parentChars_append _ (by simp), if_neg hspell]
    have hv : IsValid (parent q) := isValid_iff.mpr ⟨segs, hs, hparent⟩
    have hsep : q = parent q ++ String.ofList [separator] := by
      rw [hparent, ← String.ofList_append, ← he, String.ofList_toList]
    have hup : parent q ≠ root := by
      rw [← (segments_inj hv isValid_root).ne, segments_root, hparent, segments,
        String.toList_ofList, segmentChars_spell hs]
      simpa using hne
    have hroot : q ≠ root := by
      rintro rfl
      exact hup parent_root
    refine .inr ⟨?_, hv, iff_of_false hup hroot, fun top => ?_⟩
    · rw [leaf, he, leafChars_append _ (by simp)]
    · conv_lhs => rw [hsep]
      exact join_append_separator top _

end Path

namespace Memory

variable {m : Memory} {path front : String} {data : List UInt8} {acl : List Acl} {mode : CreateMode}

/-- Whether a creation succeeds, and with which path, can be computed. -/
theorem create_eq_ok {given : String} (h : (m.create path data acl mode).2.toOption = some given) :
    (m.create path data acl mode).2 = .ok given := by
  cases he : (m.create path data acl mode).2 with
  | error problem =>
    rw [he] at h
    cases h
  | ok other =>
    rw [he] at h
    rw [Option.some.inj h]

/-- A creation that succeeded was accepted, and its path was free. -/
theorem accepts_of_create {given : String} (h : (m.create path data acl mode).2 = .ok given) :
    ∃ parent, m.Accepts path mode parent ∧ given = chosenPath path mode parent ∧
      m.has given = false ∧ (m.create path data acl mode).1.has given = true := by
  obtain ⟨problem, -, he⟩ | ⟨parent, ha, ⟨-, he⟩ | ⟨hfree, he⟩⟩ := m.create_cases path data acl mode
  · rw [he] at h
    cases h
  · rw [he] at h
    cases h
  · rw [he] at h ⊢
    obtain rfl := Except.ok.inj h
    refine ⟨parent, ha, rfl, hfree, ?_⟩
    rw [has_attach, decide_eq_true rfl, Bool.true_or]

/-- A counter becomes part of the last name. -/
theorem segments_numbered (hp : Path.fault path true = none) (n : Nat) :
    Path.segments (numbered path n) = Path.segments (Path.parent path) ++
      [Path.leaf path ++ String.ofList (Digits.padded counterWidth n)] := by
  rw [Path.segments_eq_parent_leaf (isValid_numbered hp n) (numbered_ne_root hp n),
    parent_numbered hp, numbered, Path.leaf_append_counter hp (Digits.isCounter_padded _ n)]

/-- A counter goes to the end of a path, whatever is put in front of that. -/
theorem append_numbered (hfront : Path.IsValid front) (hp : Path.IsValid path)
    (hne : path ≠ Path.root) (n : Nat) :
    Path.join [front, numbered path n] = numbered (Path.join [front, path]) n := by
  have hnumbered := isValid_numbered hp.request n
  have hfull := (hfront.append hp).request
  rw [← Path.segments_inj (hfront.append hnumbered) (isValid_numbered hfull n),
    Path.segments_append hfront hnumbered, segments_numbered hp.request, segments_numbered hfull,
    Path.parent_append hfront hp hne, Path.leaf_append hfront hp hne,
    Path.segments_append hfront hp.parent, List.append_assoc]

/-- A node is not above the one that has a counter behind the same name. -/
theorem not_isAbove_numbered (hp : Path.IsValid path) (hne : path ≠ Path.root) (n : Nat) :
    ¬ Path.IsAbove path (numbered path n) := by
  intro h
  have hother : numbered path n ≠ path := by
    intro he
    have hlist := congrArg String.toList he
    simp [numbered, (Digits.isCounter_padded counterWidth n).ne_nil] at hlist
  have hup := h.parent (isValid_numbered hp.request n) hother
  rw [parent_numbered hp.request] at hup
  exact Path.not_isAbove_parent hp hne hup

/-- A sequential creation on the store below a node gives out the same name as the one at the longer
path. -/
theorem create_rerooted (hfront : Path.IsValid front) (hp : Path.IsValid path)
    (hne : path ≠ Path.root) (hmode : mode.isSequential = true) {given : String}
    (h : (m.create (Path.join [front, path]) data acl mode).2 = .ok given) :
    ∃ given', ((m.rerooted front).create path data acl mode).2 = .ok given' ∧
      Path.IsValid given' ∧ given = Path.join [front, given'] := by
  obtain ⟨parent, ha, hgiven, hfree, -⟩ := accepts_of_create h
  rw [chosenPath, if_pos hmode, ← append_numbered hfront hp hne] at hgiven
  have hvalid := isValid_numbered hp.request parent.sequence
  have ha' : (m.rerooted front).Accepts path mode parent := by
    refine ⟨by rw [hmode, hp.request], ha.container, ha.opened, ?_⟩
    rw [find?_rerooted hfront hp.parent, ← Path.parent_append hfront hp hne, ha.parent]
  refine ⟨numbered path parent.sequence, ?_, hvalid, hgiven⟩
  rw [create_of_accepts ha', chosenPath, if_pos hmode, place, has_counting,
    has_rerooted hfront hvalid, ← hgiven, hfree]
  rfl

end Memory

namespace Tree

variable {front q : String} {mode : CreateMode}

/-- Where a sequential node ends up if its path went through a tree with a namespace. If the request
has the beginning of a name, the node is a child of the directory, at the very path that the request
leads to on the store below the namespace. If it ends with a separator, the node is a sibling of the
directory instead, whose name it has in front of its counter; so a request of nothing but a
separator leads out of the namespace, and no other one does. -/
theorem sequential_placement (t : Tree) (m : Memory) (hfront : Path.IsValid front)
    (hne : front ≠ Path.root) (hq : Path.fault q true = none) (hmode : mode.isSequential = true)
    (data : List UInt8) (acl : List Acl) :
    ∃ full directory,
      (t.below (some front)).fixPath (.str q) true = .ok full ∧
      (t.below (some front)).fixPath (.str (Path.parent q)) false = .ok directory ∧
      ∀ given, (m.create full data acl mode).2 = .ok given →
        (m.create full data acl mode).1.has given = true ∧ m.has given = false ∧
        (Path.leaf q ≠ "" → Path.parent given = directory ∧
          ∃ given', ((m.rerooted front).create q data acl mode).2 = .ok given' ∧
            given = Path.join [front, given']) ∧
        (Path.leaf q = "" → Path.parent given = Path.parent directory ∧
          ∃ n, given = Memory.numbered directory n) ∧
        (Path.IsAbove front given ↔ q ≠ Path.root) := by
  have hparent : Path.IsValid (Path.parent q) := by
    obtain ⟨hv, -, -⟩ | ⟨-, hv, -⟩ := Path.request_cases hq
    · exact hv.parent
    · exact hv
  refine ⟨_, _, fixPath_below hq, fixPath_below hparent.fault, fun given hcreate => ?_⟩
  rw [Option.elim_some] at hcreate ⊢
  rw [Option.elim_some]
  obtain ⟨parent, ha, hgiven, hfree, hhas⟩ := Memory.accepts_of_create hcreate
  have hfault := ha.fault
  rw [hmode] at hfault
  rw [Memory.chosenPath, if_pos hmode] at hgiven
  have habove := Memory.parent_numbered hfault parent.sequence
  rw [← hgiven] at habove
  refine ⟨hhas, hfree, ?_⟩
  obtain ⟨hv, hroot, hleaf⟩ | ⟨hleaf, -, hroot, hjoin⟩ := Path.request_cases hq
  · obtain ⟨given', hcreate', hvalid, hgiven'⟩ :=
      Memory.create_rerooted hfront hv hroot hmode hcreate
    rw [Path.parent_append hfront hv hroot] at habove
    refine ⟨fun _ => ⟨habove, given', hcreate', hgiven'⟩, fun he => absurd he hleaf,
      iff_of_true ?_ hroot⟩
    rw [hgiven']
    exact Path.isAbove_append hfront hvalid
  · rw [hjoin] at habove hgiven hfault
    refine ⟨fun he => absurd hleaf he, fun _ => ⟨habove, parent.sequence, hgiven⟩, ?_⟩
    rw [ne_eq, ← hroot, hgiven]
    by_cases hup : Path.parent q = Path.root
    · rw [hup, Path.append_root hfront]
      exact iff_of_false (Memory.not_isAbove_numbered hfront hne _) (not_not_intro rfl)
    · rw [← Memory.append_numbered hfront hparent hup]
      exact iff_of_true (Path.isAbove_append hfront (Memory.isValid_numbered hparent.request _)) hup

/-- A job is put into a queue. -/
theorem sequential_placement_job :
    let m := ({} : Memory).run [.call (.create "/app" [] [] .persistent),
      .call (.create "/app/q" [] [] .persistent)]
    let t := ({} : Tree).below (some "/app")
    ∃ full given given', t.fixPath (.str "/q/job-") true = .ok full ∧
      (m.create full [] [] .persistentSequential).2 = .ok given ∧ Path.parent given = "/app/q" ∧
      ((m.rerooted "/app").create "/q/job-" [] [] .persistentSequential).2 = .ok given' ∧
      given = Path.join ["/app", given'] := by
  intro m t
  have hq : Path.fault "/q/job-" true = none := by decide
  have hmode : CreateMode.persistentSequential.isSequential = true := rfl
  have hleaf : Path.leaf "/q/job-" ≠ "" := by decide +kernel
  obtain ⟨full, directory, hfull, hdirectory, hplaced⟩ :=
    sequential_placement {} m (by decide : Path.IsValid "/app") (by decide) hq hmode [] []
  obtain rfl : full = "/app/q/job-" := by
    have hjoin : Path.join ["/app", "/q/job-"] = "/app/q/job-" := by decide +kernel
    rw [fixPath_below hq] at hfull
    exact (Except.ok.inj hfull).symm.trans hjoin
  have hcreate : (m.create "/app/q/job-" [] [] .persistentSequential).2 =
      .ok "/app/q/job-0000000000" := Memory.create_eq_ok (by decide +kernel)
  obtain ⟨-, -, hbegun, -⟩ := hplaced _ hcreate
  obtain ⟨-, given', hcreate', hgiven⟩ := hbegun hleaf
  exact ⟨_, _, given', hfull, hcreate, by decide +kernel, hcreate', hgiven⟩

/-- A request that ends with a separator: the node ends up beside the directory. -/
theorem sequential_placement_separator :
    let m := ({} : Memory).run [.call (.create "/app" [] [] .persistent),
      .call (.create "/app/q" [] [] .persistent)]
    let t := ({} : Tree).below (some "/app")
    m.Reachable ∧ m.closed = false ∧ m.has "/app/q" = true ∧ Path.fault "/q/" true = none ∧
      Path.parent "/q/" = "/q" ∧ t.fixPath (.str "/q") false = .ok "/app/q" ∧
      ∃ full given, t.fixPath (.str "/q/") true = .ok full ∧
        (m.create full [] [] .persistentSequential).2 = .ok given ∧
        Path.parent given ≠ "/app/q" := by
  intro m t
  have hfix : ∀ (p : String) (isOpen : Bool), Path.fault p isOpen = none →
      t.fixPath (.str p) isOpen = .ok (Path.join ["/app", p]) := fun p isOpen => fixPath_below
  have hjoin : Path.join ["/app", "/q"] = "/app/q" ∧ Path.join ["/app", "/q/"] = "/app/q" := by
    decide +kernel
  have hcreate : (m.create "/app/q" [] [] .persistentSequential).2 = .ok "/app/q0000000000" :=
    Memory.create_eq_ok (by decide +kernel)
  refine ⟨⟨true, _, rfl⟩, by decide +kernel, by decide +kernel, by decide, by decide +kernel, ?_,
    "/app/q", "/app/q0000000000", ?_, hcreate, by decide +kernel⟩
  · rw [hfix "/q" false (by decide), hjoin.1]
  · rw [hfix "/q/" true (by decide), hjoin.2]

end Tree

end TreeStore
