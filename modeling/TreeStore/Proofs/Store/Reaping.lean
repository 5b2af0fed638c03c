import TreeStore.Proofs.Store.Root
import TreeStore.Proofs.Text.Order

/-!
# Reaping

A sweep visits every node once, the deeper ones first, and takes away those that are spent when
their turn comes. That is enough for whole subtrees of containers to go in one sweep: a node goes
exactly if it and all nodes below it are containers that have had a child. What is left is as it
was, but for the names of the children that went, and another sweep finds nothing to take away.
-/

namespace TreeStore

namespace Path

/-- There is one separator for each segment. -/
private theorem count_chain {segs : List (List Char)} (h : ∀ s ∈ segs, IsSegment s) :
    (chain segs).count separator = segs.length := by
  induction segs with
  | nil => rfl
  | cons s segs ih =>
    obtain ⟨hs, hrest⟩ := List.forall_mem_cons.mp h
    rw [chain_cons, List.count_cons_self, List.count_append, List.count_eq_zero.mpr hs.not_mem,
      Nat.zero_add, ih hrest, List.length_cons]

/-- Below the root there are as many separators as segments. -/
theorem depth_eq_length {p : String} (hp : IsValid p) (hne : p ≠ root) :
    depth p = (segments p).length := by
  obtain ⟨segs, hs, rfl⟩ := isValid_iff.mp hp
  have hsegs : segs ≠ [] := by
    rintro rfl
    exact hne (by decide)
  rw [depth, segments, String.toList_ofList, segmentChars_spell hs, List.length_map,
    spell_of_ne_nil hsegs, count_chain hs]

/-- A node other than the root lies no deeper than those below it, and higher than all others. -/
theorem depth_lt_of_isAbove {a p : String} (h : IsAbove a p) (hp : IsValid p) (hroot : a ≠ root)
    (hne : p ≠ a) : depth a < depth p := by
  have hproot : p ≠ root := by
    rintro rfl
    exact hroot (isAbove_root_iff.mp h)
  rw [depth_eq_length h.valid hroot, depth_eq_length hp hproot]
  refine Nat.lt_of_le_of_ne h.segments.length_le fun he => hne ?_
  exact ((segments_inj h.valid hp).mp (h.segments.eq_of_length he)).symm

end Path

/-- A spent node has no children. -/
theorem Node.isSpent_iff {n : Node} : n.isSpent = true ↔
    n.mode.isContainer = true ∧ n.hadChildren = true ∧ n.children = [] := by
  simp [Node.isSpent, and_assoc]

/-- A node without those of its children that are gone. -/
def Node.without (path : String) (gone : List String) (n : Node) : Node :=
  { n with children := n.children.filter fun name => Path.join [path, name] ∉ gone }

@[simp] theorem Node.without_nil (path : String) (n : Node) : n.without path [] = n := by
  simp [Node.without]

namespace Memory

variable {m : Memory} {p q : String} {paths : List String}

/-- Every node of a store but the root comes behind all nodes below it. -/
structure Upward (paths : List String) : Prop where
  /-- No path is listed twice. -/
  nodup : paths.Nodup
  /-- What comes later does not lie below. -/
  ordered : paths.Pairwise fun a b => Path.IsAbove a b → a = Path.root

/-- What is left of an upward order is one. -/
theorem Upward.tail {path : String} (h : Upward (path :: paths)) : Upward paths :=
  ⟨h.nodup.of_cons, h.ordered.of_cons⟩

/-- The order of a sweep. -/
theorem Consistent.upward_deepestFirst (h : m.Consistent) : Upward m.deepestFirst := by
  have hperm : m.deepestFirst.Perm m.keys := Sorting.sortBy_perm _ _
  have hnodup : m.deepestFirst.Nodup := hperm.nodup_iff.mpr h.nodup
  have hsorted : m.deepestFirst.Pairwise fun a b => Path.depth b ≤ Path.depth a := by
    refine (Sorting.pairwise_sortBy ?_ ?_ _).imp of_decide_eq_true
    · intro a b
      simpa only [decide_eq_true_eq] using Nat.le_total _ _
    · intro a b c hab hbc
      simp only [decide_eq_true_eq] at hab hbc ⊢
      exact hbc.trans hab
  refine ⟨hnodup, (hsorted.and hnodup).imp_of_mem ?_⟩
  rintro a b - hb ⟨hle, hne⟩ habove
  by_contra hroot
  have hvalid := h.valid b (mem_keys.mp (hperm.mem_iff.mp hb))
  exact absurd (Path.depth_lt_of_isAbove habove hvalid hroot (Ne.symm hne)) (Nat.not_lt.mpr hle)

/-- Unlinking one more node takes its name from its parent's children and from nowhere else. -/
theorem Consistent.find?_unlink_without (h : m.Consistent) (hp : m.has p = true)
    (hroot : p ≠ Path.root) (gone : List String) :
    ((m.unlink p).1.find? q).map (Node.without q gone) =
      if q = p then none else (m.find? q).map (Node.without q (p :: gone)) := by
  have hvalid := h.valid p hp
  rw [find?_unlink]
  by_cases hq : q = p
  · rw [if_pos hq, if_pos hq]
    rfl
  rw [if_neg hq, if_neg hq]
  cases hn : m.find? q with
  | none => simp
  | some n =>
    have hqvalid := h.valid q (has_of_find? hn)
    have hname : ∀ name ∈ n.children, Path.IsName name := fun name hmem =>
      ((h.mem_children_iff hn).mp hmem).1
    by_cases habove : q = Path.parent p
    · subst habove
      have hleaf : ∀ name ∈ n.children,
          Path.join [Path.parent p, name] = p ↔ name = Path.leaf p := by
        intro name hmem
        constructor
        · exact fun he =>
            (Path.leaf_join hqvalid (hname name hmem)).symm.trans (congrArg Path.leaf he)
        · rintro rfl
          exact Path.join_parent_leaf hvalid hroot
      rw [if_pos rfl, Option.map_some, Option.map_some, Option.map_some, Node.without,
        Node.disown, Node.without, (h.children_nodup _ n hn).erase_eq_filter, List.filter_filter]
      congr 2
      refine List.filter_congr fun name hmem => ?_
      rw [Bool.eq_iff_iff]
      simp only [Bool.and_eq_true, decide_eq_true_eq, bne_iff_ne, List.mem_cons, not_or, ne_eq,
        hleaf name hmem]
      exact and_comm
    · have hjoin : ∀ name ∈ n.children, Path.join [q, name] ≠ p := by
        rintro name hmem rfl
        exact habove (Path.parent_join hqvalid (hname name hmem)).symm
      rw [if_neg habove, Option.map_some, Option.map_some, Node.without, Node.without]
      congr 2
      refine List.filter_congr fun name hmem => ?_
      simp [hjoin name hmem]

/-- A node that is spent when its turn comes goes. -/
theorem sweep_cons_of_spent {path : String} {node : Node} (hn : m.find? path = some node)
    (hspent : node.isSpent = true) (rest : List String) :
    m.sweep (path :: rest) = (((m.unlink path).1.sweep rest).1,
      path :: ((m.unlink path).1.sweep rest).2) := by
  simp only [sweep, hn, if_pos hspent]

/-- A node that is not spent when its turn comes stays. -/
theorem sweep_cons_of_not_spent {path : String}
    (h : ¬ ∃ node, m.find? path = some node ∧ node.isSpent = true) (rest : List String) :
    m.sweep (path :: rest) = m.sweep rest := by
  rw [sweep]
  split
  · rename_i node hn
    rw [if_neg fun hspent => h ⟨node, hn, hspent⟩]
  · rfl

/-- A sweep removes some of the paths, in the order in which they are listed. -/
theorem sublist_sweep : (m.sweep paths).2.Sublist paths := by
  induction paths generalizing m with
  | nil => exact .slnil
  | cons path rest ih =>
    by_cases hgoes : ∃ node, m.find? path = some node ∧ node.isSpent = true
    · obtain ⟨node, hn, hspent⟩ := hgoes
      rw [sweep_cons_of_spent hn hspent]
      exact ih.cons_cons path
    · rw [sweep_cons_of_not_spent hgoes]
      exact ih.cons path

/-- If a sweep removes nothing, it changes nothing. -/
theorem sweep_eq_self (h : (m.sweep paths).2 = []) : m.sweep paths = (m, []) := by
  induction paths generalizing m with
  | nil => rfl
  | cons path rest ih =>
    by_cases hgoes : ∃ node, m.find? path = some node ∧ node.isSpent = true
    · obtain ⟨node, hn, hspent⟩ := hgoes
      rw [sweep_cons_of_spent hn hspent] at h
      cases h
    · rw [sweep_cons_of_not_spent hgoes] at h ⊢
      exact ih h

/-- The root is no container, so that no sweep takes it away. -/
def KeepsRoot (m : Memory) : Prop :=
  ∀ n, m.find? Path.root = some n → n.mode.isContainer = false

/-- The root is none of the containers. -/
theorem KeepsRoot.ne_root {n : Node} (h : m.KeepsRoot) (hn : m.find? p = some n)
    (hcontainer : n.mode.isContainer = true) : p ≠ Path.root := by
  rintro rfl
  rw [h n hn] at hcontainer
  cases hcontainer

/-- Unlinking a node does not make the root a container. -/
theorem KeepsRoot.unlink (h : m.KeepsRoot) : (m.unlink p).1.KeepsRoot := by
  intro n' hn'
  obtain ⟨n, hn, ha⟩ := agrees_unlink hn'
  rw [ha.mode]
  exact h n hn

/-- A sweep does not make the root a container. -/
theorem KeepsRoot.sweep (h : m.KeepsRoot) : (m.sweep paths).1.KeepsRoot := by
  intro n' hn'
  obtain ⟨n, hn, ha⟩ := agrees_sweep hn'
  rw [ha.mode]
  exact h n hn

/-- A sweep goes on from where the sweep of the first paths left the store. -/
theorem sweep_append (before after : List String) :
    (m.sweep (before ++ after)).1 = ((m.sweep before).1.sweep after).1 := by
  induction before generalizing m with
  | nil => rfl
  | cons path rest ih =>
    rw [List.cons_append]
    by_cases hgoes : ∃ node, m.find? path = some node ∧ node.isSpent = true
    · obtain ⟨node, hn, hspent⟩ := hgoes
      rw [sweep_cons_of_spent hn hspent, sweep_cons_of_spent hn hspent]
      exact ih
    · rw [sweep_cons_of_not_spent hgoes, sweep_cons_of_not_spent hgoes]
      exact ih

/-- Every node that a sweep leaves is as it was, up to the names of the children that are gone. -/
theorem Consistent.find?_sweep (h : m.Consistent) (hroot : m.KeepsRoot) :
    (m.sweep paths).1.find? q =
      if q ∈ (m.sweep paths).2 then none
      else (m.find? q).map (Node.without q (m.sweep paths).2) := by
  induction paths generalizing m with
  | nil => cases hn : m.find? q <;> simp [Memory.sweep, hn]
  | cons path rest ih =>
    by_cases hgoes : ∃ node, m.find? path = some node ∧ node.isSpent = true
    · obtain ⟨node, hn, hspent⟩ := hgoes
      obtain ⟨hcontainer, -, hchildren⟩ := Node.isSpent_iff.mp hspent
      rw [sweep_cons_of_spent hn hspent]
      dsimp only
      rw [ih (h.unlink hn hchildren) hroot.unlink,
        h.find?_unlink_without (has_of_find? hn) (hroot.ne_root hn hcontainer)]
      by_cases hq : q = path <;> simp [hq]
    · rw [sweep_cons_of_not_spent hgoes]
      exact ih h hroot

/-- When the turn of a node comes, it is there, and if it is spent, it is unlinked without an error.
So a sweep has nothing to fail over. -/
theorem Consistent.exists_of_sweep (h : m.Consistent) (hroot : m.KeepsRoot) (hp : m.has p = true)
    {before after : List String} (hnodup : (before ++ p :: after).Nodup) :
    let reached := (m.sweep before).1
    ∃ node, reached.find? p = some node ∧
      (node.isSpent = true → (reached.unlink p).2 = .ok ()) := by
  intro reached
  obtain ⟨n, hn⟩ := has_iff.mp hp
  have hbefore : p ∉ before := fun hmem =>
    (List.nodup_append.mp hnodup).2.2 p hmem p List.mem_cons_self rfl
  have hkept : p ∉ (m.sweep before).2 := fun hmem => hbefore (sublist_sweep.subset hmem)
  have hfind : reached.find? p = some (n.without p (m.sweep before).2) := by
    rw [h.find?_sweep hroot, if_neg hkept, hn, Option.map_some]
  refine ⟨_, hfind, fun hspent => ?_⟩
  have hne := hroot.sweep.ne_root hfind (Node.isSpent_iff.mp hspent).1
  exact congrArg Prod.snd ((h.sweep before).unlink_eq_ok (has_of_find? hfind) hne)

/-- A node goes if it and all nodes below it are among the given ones and are containers that have
had a child. -/
structure Doomed (m : Memory) (paths : List String) (p : String) : Prop where
  /-- The node is there. -/
  here : m.has p = true
  /-- The nodes at and below the path go. -/
  below : ∀ q n, Path.IsAbove p q → m.find? q = some n →
    q ∈ paths ∧ n.mode.isContainer = true ∧ n.hadChildren = true

/-- A node that a sweep dooms is doomed by a larger one. -/
theorem Doomed.mono {paths' : List String} (h : m.Doomed paths p) (hsub : paths ⊆ paths') :
    m.Doomed paths' p :=
  ⟨h.here, fun q n habove hn => (h.below q n habove hn).imp_left fun hq => hsub hq⟩

/-- Only a node that is swept over is doomed. -/
theorem Doomed.mem (h : m.Doomed paths p) (hm : m.Consistent) : p ∈ paths := by
  obtain ⟨n, hn⟩ := has_iff.mp h.here
  exact (h.below p n (hm.valid p h.here).isAbove hn).1

/-- When its turn comes, a node at or below one that goes has no children left. -/
theorem Doomed.isSpent {path : String} {rest : List String} {node : Node}
    (h : m.Doomed (path :: rest) p) (hm : m.Consistent) (hroot : m.KeepsRoot)
    (hup : Upward (path :: rest)) (habove : Path.IsAbove p path) (hn : m.find? path = some node) :
    node.isSpent = true := by
  obtain ⟨-, hcontainer, hhad⟩ := h.below path node habove hn
  have hvalid := hm.valid path (has_of_find? hn)
  have hchildless : ∀ name, name ∉ node.children := by
    intro name hmem
    obtain ⟨hname, hhas⟩ := (hm.mem_children_iff hn).mp hmem
    have hbelow := Path.isAbove_join hvalid hname
    obtain ⟨child, hchild⟩ := has_iff.mp hhas
    obtain he | hrest := List.mem_cons.mp (h.below _ child (habove.trans hbelow) hchild).1
    · refine Path.not_isAbove_of_join hvalid hname ?_
      rw [he]
      exact hvalid.isAbove
    · exact hroot.ne_root hn hcontainer (List.rel_of_pairwise_cons hup.ordered hrest hbelow)
  exact Node.isSpent_iff.mpr ⟨hcontainer, hhad, List.eq_nil_iff_forall_not_mem.mpr hchildless⟩

/-- The other nodes keep their modes and whether they have had a child. -/
theorem find?_unlink_of_ne {n : Node} (hq : q ≠ p) (hn : m.find? q = some n) :
    ∃ n', (m.unlink p).1.find? q = some n' ∧ n'.mode = n.mode ∧
      n'.hadChildren = n.hadChildren := by
  rw [find?_unlink, if_neg hq, hn]
  split
  · exact ⟨_, rfl, rfl, rfl⟩
  · exact ⟨n, rfl, rfl, rfl⟩

/-- A spent node goes, and so does what would go without it. -/
theorem Consistent.doomed_unlink_iff {path : String} {rest : List String} {node : Node}
    (h : m.Consistent) (hn : m.find? path = some node) (hspent : node.isSpent = true) :
    (p = path ∨ (m.unlink path).1.Doomed rest p) ↔ m.Doomed (path :: rest) p := by
  obtain ⟨hcontainer, hhad, hchildren⟩ := Node.isSpent_iff.mp hspent
  have hhas : ∀ r, (m.unlink path).1.has r = true ↔ r ≠ path ∧ m.has r = true := by
    simp [has_unlink]
  constructor
  · rintro (rfl | hd)
    · refine ⟨has_of_find? hn, fun q n habove hq => ?_⟩
      have hchildless : ∀ name, Path.IsName name → m.has (Path.join [p, name]) = false := by
        intro name hname
        rw [← Bool.not_eq_true]
        intro hchild
        have hmem := (h.mem_children_iff hn).mpr ⟨hname, hchild⟩
        rw [hchildren] at hmem
        cases hmem
      obtain rfl := h.eq_of_isAbove hchildless (has_of_find? hq) habove
      obtain rfl := Option.some.inj (hn.symm.trans hq)
      exact ⟨List.mem_cons_self, hcontainer, hhad⟩
    · refine ⟨((hhas p).mp hd.here).2, fun q n habove hq => ?_⟩
      by_cases hne : q = path
      · subst hne
        obtain rfl := Option.some.inj (hn.symm.trans hq)
        exact ⟨List.mem_cons_self, hcontainer, hhad⟩
      · obtain ⟨n', hn', hmode, hhad'⟩ := find?_unlink_of_ne hne hq
        obtain ⟨hmem, hgoes⟩ := hd.below q n' habove hn'
        rw [hmode, hhad'] at hgoes
        exact ⟨List.mem_cons_of_mem path hmem, hgoes⟩
  · intro hd
    refine or_iff_not_imp_left.mpr fun hne => ⟨(hhas p).mpr ⟨hne, hd.here⟩, ?_⟩
    intro q n' habove hn'
    obtain ⟨hq, hhas'⟩ := (hhas q).mp (has_of_find? hn')
    obtain ⟨n, hold⟩ := has_iff.mp hhas'
    obtain ⟨n'', hn'', hmode, hhad'⟩ := find?_unlink_of_ne hq hold
    obtain rfl := Option.some.inj (hn'.symm.trans hn'')
    obtain ⟨hmem, hgoes⟩ := hd.below q n habove hold
    rw [hmode, hhad']
    exact ⟨(List.mem_cons.mp hmem).resolve_left hq, hgoes⟩

/-- A sweep that visits every node behind those below it removes exactly the nodes that are to go.
-/
theorem Consistent.mem_sweep_iff (h : m.Consistent) (hroot : m.KeepsRoot) (hup : Upward paths) :
    p ∈ (m.sweep paths).2 ↔ m.Doomed paths p := by
  induction paths generalizing m with
  | nil => exact iff_of_false List.not_mem_nil fun hd => List.not_mem_nil (hd.mem h)
  | cons path rest ih =>
    by_cases hgoes : ∃ node, m.find? path = some node ∧ node.isSpent = true
    · obtain ⟨node, hn, hspent⟩ := hgoes
      have hchildren := (Node.isSpent_iff.mp hspent).2.2
      rw [sweep_cons_of_spent hn hspent, List.mem_cons,
        ih (h.unlink hn hchildren) hroot.unlink hup.tail, h.doomed_unlink_iff hn hspent]
    · rw [sweep_cons_of_not_spent hgoes, ih h hroot hup.tail]
      refine ⟨fun hd => hd.mono (List.subset_cons_self path rest), fun hd => ⟨hd.here, ?_⟩⟩
      intro q n habove hn
      obtain ⟨hmem, hcontainer⟩ := hd.below q n habove hn
      obtain rfl | hmem := List.mem_cons.mp hmem
      · exact absurd ⟨n, hn, hd.isSpent h hroot hup habove hn⟩ hgoes
      · exact ⟨hmem, hcontainer⟩

/-- At one moment of a run a node had a child, and since then it has been there all the time. -/
def HadChild (m : Memory) (requests : List Request) (p : String) : Prop :=
  ∃ before since, requests = before ++ since ∧
    (∃ q, (m.run before).has q = true ∧ q ≠ Path.root ∧ Path.parent q = p) ∧
    ∀ part, part <+: since → (m.run (before ++ part)).has p = true

variable {requests : List Request} {request : Request}

/-- A node that has had a child is there. -/
theorem HadChild.has (h : m.HadChild requests p) : (m.run requests).has p = true := by
  obtain ⟨before, since, rfl, -, hstays⟩ := h
  exact hstays since List.prefix_rfl

/-- A node that is there after one more request has had a child if it has one now, or had had one
before. -/
theorem hadChild_concat (hp : (m.run (requests ++ [request])).has p = true) :
    m.HadChild (requests ++ [request]) p ↔ m.HadChild requests p ∨
      ∃ q, (m.run (requests ++ [request])).has q = true ∧ q ≠ Path.root ∧ Path.parent q = p := by
  constructor
  · rintro ⟨before, since, he, hchild, hstays⟩
    obtain rfl | ⟨since, last, rfl⟩ := List.eq_nil_or_concat' since
    · rw [List.append_nil] at he
      exact .inr (he ▸ hchild)
    · rw [← List.append_assoc] at he
      obtain ⟨rfl, -⟩ := List.append_inj' he rfl
      exact .inl ⟨before, since, rfl, hchild, fun part hpart =>
        hstays part (hpart.trans (List.prefix_append since [last]))⟩
  · rintro (⟨before, since, rfl, hchild, hstays⟩ | hchild)
    · refine ⟨before, since ++ [request], by rw [List.append_assoc], hchild, fun part hpart => ?_⟩
      obtain rfl | hpart := List.prefix_concat_iff.mp hpart
      · rwa [← List.append_assoc]
      · exact hstays part hpart
    · refine ⟨requests ++ [request], [], (List.append_nil _).symm, hchild, fun part hpart => ?_⟩
      rwa [List.prefix_nil.mp hpart, List.append_nil]

/-- A node lists children exactly if some node has it for its parent. -/
theorem Consistent.children_ne_nil_iff (h : m.Consistent) {n : Node} (hn : m.find? p = some n) :
    n.children ≠ [] ↔ ∃ q, m.has q = true ∧ q ≠ Path.root ∧ Path.parent q = p := by
  constructor
  · intro hne
    obtain ⟨name, hmem⟩ := List.exists_mem_of_ne_nil _ hne
    obtain ⟨q, hq, hroot, hparent, -⟩ := (h.mem_children p n hn name).mp hmem
    exact ⟨q, hq, hroot, hparent⟩
  · rintro ⟨q, hq, hroot, hparent⟩
    exact List.ne_nil_of_mem ((h.mem_children p n hn _).mpr ⟨q, hq, hroot, hparent, rfl⟩)

/-- The root is no container in any store that some requests lead to. -/
theorem Reachable.keepsRoot (h : m.Reachable) : m.KeepsRoot := by
  intro n hn
  rw [mode_root h hn]
  rfl

/-- A creation below a node gives it a child, and others it leaves as they are. -/
private theorem hadChildren_create {path : String} {data : List UInt8} {acl : List Acl}
    {mode : CreateMode} {n n' : Node} (hn : m.find? p = some n)
    (hn' : (m.create path data acl mode).1.find? p = some n') :
    n'.hadChildren = n.hadChildren ∨ n'.children ≠ [] := by
  have hcounting : ∃ counted, (m.counting path mode).find? p = some counted ∧
      counted.hadChildren = n.hadChildren := by
    rw [counting]
    split
    · rw [find?_modify, hn]
      split <;> exact ⟨_, rfl, rfl⟩
    · exact ⟨n, hn, rfl⟩
  obtain ⟨counted, hcounted, hhad⟩ := hcounting
  obtain ⟨problem, -, he⟩ | ⟨parent, ha, ⟨-, he⟩ | ⟨hfree, he⟩⟩ := create_cases m path data acl mode
  · rw [he, hn] at hn'
    obtain rfl := Option.some.inj hn'
    exact .inl rfl
  · rw [he, hcounted] at hn'
    obtain rfl := Option.some.inj hn'
    exact .inl hhad
  · obtain ⟨hvalid, hroot, hparent⟩ := ha.chosenPath hfree
    have hne := Path.parent_ne_self hvalid hroot
    rw [hparent] at hne
    rw [he, find?_attach (by rw [has_counting, hfree]) hne, hcounted] at hn'
    split at hn'
    · rename_i hp
      rw [← hp, has_of_find? hn] at hfree
      cases hfree
    · split at hn' <;> obtain rfl := Option.some.inj hn'
      · exact .inr (List.ne_nil_of_mem (Node.mem_children_adopt.mpr (.inr rfl)))
      · exact .inl hhad

/-- What a request adds to the record of a node is that it has a child now. -/
theorem hadChildren_after (hm : m.Reachable) {n n' : Node} (hn : m.find? p = some n)
    (hn' : (m.after request).find? p = some n') :
    n'.hadChildren = true ↔ n.hadChildren = true ∨ n'.children ≠ [] := by
  have hkept : n'.hadChildren = n.hadChildren ∨ n'.children ≠ [] := by
    have hsame (he : m.find? p = some n') : n'.hadChildren = n.hadChildren := by
      rw [Option.some.inj (hn.symm.trans he)]
    cases request with
    | call call =>
      cases call with
      | probe path => exact .inl (hsame hn')
      | children path => exact .inl (hsame hn')
      | capability => exact .inl (hsame hn')
      | create path data acl mode => exact hadChildren_create hn hn'
      | delete path version =>
        rw [after_delete] at hn'
        obtain ⟨problem, -, he⟩ | ⟨node, -, -, -, -, -, he⟩ := delete_cases m path version
        · rw [he] at hn'
          exact .inl (hsame hn')
        · rw [he] at hn'
          have hne : p ≠ path := by
            rintro rfl
            simpa [has_unlink] using has_of_find? hn'
          obtain ⟨kept, hkept, -, hhad⟩ := find?_unlink_of_ne hne hn
          obtain rfl := Option.some.inj (hkept.symm.trans hn')
          exact .inl hhad
    | setData path data version =>
      rw [after_setData] at hn'
      obtain ⟨problem, -, he⟩ | ⟨node, -, -, -, he⟩ := setData_cases m path data version
      · rw [he] at hn'
        exact .inl (hsame hn')
      · rw [he, find?_modify, hn] at hn'
        split at hn' <;> obtain rfl := Option.some.inj hn' <;> exact .inl rfl
    | reap =>
      rw [after_reap] at hn'
      split at hn'
      · exact .inl (hsame hn')
      · rw [hm.consistent.find?_sweep hm.keepsRoot, hn] at hn'
        split at hn'
        · cases hn'
        · obtain rfl := Option.some.inj hn'
          exact .inl rfl
    | close => exact .inl (hsame hn')
  constructor
  · intro h
    obtain he | hne := hkept
    · exact .inl (he.symm.trans h)
    · exact .inr hne
  · rintro (h | h)
    · obtain he | hne := hkept
      · exact he.trans h
      · exact (hm.after request).consistent.hadChildren p n' hn' hne
    · exact (hm.after request).consistent.hadChildren p n' hn' h

/-- The record of a node says whether it has had a child since it was created. -/
theorem hadChildren_iff (containers : Bool) {requests : List Request} {n : Node}
    (hn : (({ containers } : Memory).run requests).find? p = some n) :
    n.hadChildren = true ↔ ({ containers } : Memory).HadChild requests p := by
  induction requests using List.reverseRecOn generalizing n with
  | nil =>
    have he : (⟨[], [], .persistent, 0, [], 0, false⟩ : Node) = n ∧ p = Path.root := by
      have hroot : p = Path.root := by simpa [run, keys] using mem_keys.mpr (has_of_find? hn)
      subst hroot
      exact ⟨by simpa [run, find?] using hn, rfl⟩
    obtain ⟨rfl, rfl⟩ := he
    refine iff_of_false Bool.false_ne_true ?_
    rintro ⟨before, since, he, ⟨q, hq, hroot, -⟩, -⟩
    obtain ⟨rfl, rfl⟩ := List.append_eq_nil_iff.mp he.symm
    exact hroot (by simpa [run, keys] using mem_keys.mpr hq)
  | append_singleton requests request ih =>
    have hm : (({ containers } : Memory).run requests).Reachable := ⟨containers, requests, rfl⟩
    rw [hadChild_concat (has_of_find? hn)]
    rw [run_append] at hn ⊢
    replace hn : ((({ containers } : Memory).run requests).after request).find? p = some n := hn
    refine Iff.trans ?_ (or_congr_right ((hm.after request).consistent.children_ne_nil_iff hn))
    cases hold : (({ containers } : Memory).run requests).find? p with
    | some old => rw [hadChildren_after hm hold hn, ih hold]
    | none =>
      have hnew : ¬ ({ containers } : Memory).HadChild requests p := by
        intro hhad
        have hhas := hhad.has
        rw [find?_eq_none_iff.mp hold] at hhas
        cases hhas
      obtain ⟨old, ho, -⟩ | ⟨-, -, old, -, ho, -⟩ | ⟨path, data, acl, mode, -, -, -, -, rfl⟩ :=
        find?_after_cases hn
      · rw [hold] at ho
        cases ho
      · rw [hold] at ho
        cases ho
      · simp [hnew]

/-- The nodes that are to go from the whole store. -/
theorem doomed_deepestFirst_iff : m.Doomed m.deepestFirst p ↔ m.has p = true ∧
    ∀ q n, Path.IsAbove p q → m.find? q = some n →
      n.mode.isContainer = true ∧ n.hadChildren = true := by
  have hmem : ∀ q, q ∈ m.deepestFirst ↔ m.has q = true := fun q =>
    (Sorting.sortBy_perm _ _).mem_iff.trans mem_keys
  constructor
  · rintro ⟨hp, hbelow⟩
    exact ⟨hp, fun q n habove hn => (hbelow q n habove hn).2⟩
  · rintro ⟨hp, hbelow⟩
    exact ⟨hp, fun q n habove hn => ⟨(hmem q).mpr (has_of_find? hn), hbelow q n habove hn⟩⟩

/-- In what is left by a sweep over all nodes there is nothing to go. -/
theorem not_doomed_sweep (h : m.Consistent) (hroot : m.KeepsRoot) :
    ¬ (m.sweep m.deepestFirst).1.Doomed (m.sweep m.deepestFirst).1.deepestFirst p := by
  intro hd
  have hgone : ∀ q, q ∈ (m.sweep m.deepestFirst).2 ↔ m.Doomed m.deepestFirst q := fun q =>
    h.mem_sweep_iff hroot h.upward_deepestFirst
  obtain ⟨hp, hbelow⟩ := doomed_deepestFirst_iff.mp hd
  obtain ⟨n', hn'⟩ := has_iff.mp hp
  rw [h.find?_sweep hroot] at hn'
  split at hn'
  · cases hn'
  rename_i hkept
  obtain ⟨n, hn, -⟩ := Option.map_eq_some_iff.mp hn'
  refine hkept ((hgone p).mpr (doomed_deepestFirst_iff.mpr ⟨has_of_find? hn, ?_⟩))
  intro q n habove hn
  by_cases hq : q ∈ (m.sweep m.deepestFirst).2
  · obtain ⟨hhas, hgoes⟩ := doomed_deepestFirst_iff.mp ((hgone q).mp hq)
    exact hgoes q n (h.valid q hhas).isAbove hn
  · refine hbelow q (n.without q (m.sweep m.deepestFirst).2) habove ?_
    rw [h.find?_sweep hroot, if_neg hq, hn]
    rfl

/-- Only what a sweep removes is missing afterwards. -/
theorem Consistent.has_sweep_eq_false_iff (h : m.Consistent) (hroot : m.KeepsRoot)
    (hp : m.has p = true) : (m.sweep paths).1.has p = false ↔ p ∈ (m.sweep paths).2 := by
  obtain ⟨n, hn⟩ := has_iff.mp hp
  rw [has, h.find?_sweep hroot, hn]
  split
  · rename_i hgone
    exact iff_of_true rfl hgone
  · rename_i hkept
    exact iff_of_false Bool.noConfusion hkept

/-- A sweep of all nodes finds each of them and unlinks the spent ones, in every state that requests
lead to. -/
theorem Reachable.exists_of_sweep (hm : m.Reachable) {before after : List String}
    (h : m.deepestFirst = before ++ p :: after) :
    (m.sweep m.deepestFirst).1 = ((m.sweep before).1.sweep (p :: after)).1 ∧
    ∃ node, (m.sweep before).1.find? p = some node ∧
      (node.isSpent = true → ((m.sweep before).1.unlink p).2 = .ok ()) := by
  have hmem : p ∈ m.deepestFirst := h ▸ List.mem_append_right before List.mem_cons_self
  have hp : m.has p = true := mem_keys.mp ((Sorting.sortBy_perm _ _).mem_iff.mp hmem)
  have hnodup := hm.consistent.upward_deepestFirst.nodup
  rw [h] at hnodup ⊢
  exact ⟨sweep_append before _, hm.consistent.exists_of_sweep hm.keepsRoot hp hnodup⟩

/-- The answer of an open store to the request to remove spent containers. -/
theorem handle_reap (ho : m.closed = false) : m.handle .reap =
    ((m.sweep m.deepestFirst).1, .ok (.list ((m.sweep m.deepestFirst).2.map .str))) := by
  simp only [handle, reap, ho, Bool.false_eq_true, ite_false]
  rfl

/-- Once the spent containers are gone, the same request changes nothing. -/
theorem handle_reap_again (hm : m.Reachable) (ho : m.closed = false) :
    (m.after .reap).handle .reap = (m.after .reap, .ok (.list [])) := by
  have hm' := hm.after .reap
  have ho' : (m.after .reap).closed = false := (closed_after Request.noConfusion).trans ho
  have hafter : m.after .reap = (m.sweep m.deepestFirst).1 := congrArg Prod.fst (handle_reap ho)
  have hnothing : ((m.after .reap).sweep (m.after .reap).deepestFirst).2 = [] := by
    refine List.eq_nil_iff_forall_not_mem.mpr fun p hp => ?_
    rw [hm'.consistent.mem_sweep_iff hm'.keepsRoot hm'.consistent.upward_deepestFirst, hafter] at hp
    exact not_doomed_sweep hm.consistent hm.keepsRoot hp
  rw [handle_reap ho', sweep_eq_self hnothing]
  rfl

/-- Along every run of a store whose session lasts, a request to remove spent containers removes a
node exactly if it and all nodes below it are containers that have had a child since they were
created. The answer is the removed paths, each once and before those above it. All other nodes are
as they were, but for the names of the children that went, and the same request once more removes
nothing. -/
theorem reap_exact (containers : Bool) (requests : List Request)
    (ho : (({ containers } : Memory).run requests).closed = false) :
    let m := ({ containers } : Memory).run requests
    let m' := m.after .reap
    ∃ removed : List String, (m.handle .reap).2 = .ok (.list (removed.map .str)) ∧
      (∀ p, m.has p = true → (m'.has p = false ↔
        ∀ q n, Path.IsAbove p q → m.find? q = some n →
          n.mode.isContainer = true ∧ ({ containers } : Memory).HadChild requests q)) ∧
      (∀ p, p ∈ removed ↔ m.has p = true ∧ m'.has p = false) ∧
      removed.Nodup ∧ removed.Pairwise (fun a b => ¬ Path.IsAbove a b) ∧
      (∀ p, m'.find? p = if p ∈ removed then none else (m.find? p).map (Node.without p removed)) ∧
      m'.containers = m.containers ∧ m'.closed = m.closed ∧
      m'.handle .reap = (m', .ok (.list [])) := by
  intro m m'
  have hm : m.Reachable := ⟨containers, requests, rfl⟩
  have hc := hm.consistent
  have hroot := hm.keepsRoot
  have hup := hc.upward_deepestFirst
  have hafter : m' = (m.sweep m.deepestFirst).1 := congrArg Prod.fst (handle_reap ho)
  have hgone : ∀ p, p ∈ (m.sweep m.deepestFirst).2 ↔ m.has p = true ∧
      ∀ q n, Path.IsAbove p q → m.find? q = some n →
        n.mode.isContainer = true ∧ ({ containers } : Memory).HadChild requests q := by
    intro p
    rw [hc.mem_sweep_iff hroot hup, doomed_deepestFirst_iff]
    refine and_congr_right fun _ => forall₄_congr fun q n _ hn => and_congr_right fun _ => ?_
    exact hadChildren_iff containers hn
  have hmissing : ∀ p, m.has p = true → (m'.has p = false ↔ p ∈ (m.sweep m.deepestFirst).2) := by
    intro p hp
    rw [hafter, hc.has_sweep_eq_false_iff hroot hp]
  refine ⟨(m.sweep m.deepestFirst).2, congrArg Prod.snd (handle_reap ho), ?_, ?_, ?_, ?_, ?_,
    containers_after .reap, closed_after Request.noConfusion, handle_reap_again hm ho⟩
  · exact fun p hp => (hmissing p hp).trans ((hgone p).trans (and_iff_right hp))
  · intro p
    constructor
    · intro hremoved
      have hp := ((hgone p).mp hremoved).1
      exact ⟨hp, (hmissing p hp).mpr hremoved⟩
    · exact fun ⟨hp, hlost⟩ => (hmissing p hp).mp hlost
  · exact hup.nodup.sublist sublist_sweep
  · refine (hup.ordered.sublist sublist_sweep).imp_of_mem ?_
    intro a b ha _ himp habove
    obtain ⟨hhas, hgoes⟩ := (hgone a).mp ha
    obtain ⟨n, hn⟩ := has_iff.mp hhas
    exact hroot.ne_root hn (hgoes a n (hc.valid a hhas).isAbove hn).1 (himp habove)
  · intro p
    rw [hafter, hc.find?_sweep hroot]

/-- A container goes together with the one below it that has lost its only child, and one that still
has a child stays. -/
theorem reap_exact_nested :
    let requests : List Request := [.call (.create "/a" [] [] .container),
      .call (.create "/a/b-" [] [] .containerSequential),
      .call (.create "/a/b-0000000000/c" [] [] .persistent),
      .call (.delete "/a/b-0000000000/c" anyVersion),
      .call (.create "/d" [] [] .container), .call (.create "/d/e" [] [] .persistent)]
    let m := ({} : Memory).run requests
    m.closed = false ∧ (m.after .reap).has "/d" = true ∧
      ∃ removed : List String, (m.handle .reap).2 = .ok (.list (removed.map .str)) ∧
        "/a/b-0000000000" ∈ removed ∧ "/a" ∈ removed ∧ "/d" ∉ removed ∧
        ({} : Memory).HadChild requests "/a/b-0000000000" ∧
        (m.after .reap).handle .reap = (m.after .reap, .ok (.list [])) := by
  intro requests m
  have ho : m.closed = false := by decide +kernel
  have hd : (m.after .reap).has "/d" = true := by decide +kernel
  obtain ⟨removed, hanswer, hgoes, hmem, -, -, -, -, -, hagain⟩ := reap_exact true requests ho
  refine ⟨ho, hd, removed, hanswer, ?_, ?_, ?_, ?_, hagain⟩
  · exact (hmem _).mpr ⟨by decide +kernel, by decide +kernel⟩
  · exact (hmem _).mpr ⟨by decide +kernel, by decide +kernel⟩
  · intro hremoved
    exact absurd (((hmem _).mp hremoved).2.symm.trans hd) Bool.noConfusion
  · have hb : Path.IsValid "/a/b-0000000000" := by decide
    obtain ⟨n, hn⟩ := has_iff.mp (show m.has "/a/b-0000000000" = true by decide +kernel)
    exact ((hgoes _ (has_of_find? hn)).mp (by decide +kernel) _ n hb.isAbove hn).2

end Memory

end TreeStore
