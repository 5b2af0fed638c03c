import TreeStore.Proofs.Store.Requests
import TreeStore.Proofs.Workspace.Service
import Mathlib.Data.Finset.Sort
import Mathlib.Data.String.Basic

/-!
# Trees of directories

What the service of a workspace with nothing but directories is expected to do: it answers requests
from a tree of directories, which creations and deletions change. Such a tree can be held by a store
in memory without containers, and every tree is held by some.
-/

namespace TreeStore

/-- A finite tree of directories, given by their paths. -/
structure DirectoryTree where
  /-- The paths of the directories. -/
  paths : Finset String
  /-- The paths are valid. -/
  valid : ∀ p ∈ paths, Path.IsValid p
  /-- The root is there. -/
  root : Path.root ∈ paths
  /-- With each directory there is the one above it. -/
  parent : ∀ p ∈ paths, Path.parent p ∈ paths

namespace DirectoryTree

variable {tree : DirectoryTree} {p q : String}

/-- The paths of the directories right below another. -/
def children (tree : DirectoryTree) (p : String) : Finset String :=
  tree.paths.filter fun q => q ≠ Path.root ∧ Path.parent q = p

/-- The children of a directory are those that have it for their parent. -/
theorem mem_children :
    q ∈ tree.children p ↔ q ∈ tree.paths ∧ q ≠ Path.root ∧ Path.parent q = p := by
  rw [children, Finset.mem_filter]

/-- All directories above one that is there are there, too. -/
theorem mem_of_isAbove (hq : q ∈ tree.paths) (h : Path.IsAbove p q) : p ∈ tree.paths := by
  have hv := tree.valid q hq
  induction hv using Path.IsValid.induction with
  | atRoot =>
    rw [Path.isAbove_root_iff.mp h]
    exact hq
  | atChild q s hqv hs ih =>
    rcases (Path.isAbove_join_iff hqv hs).mp h with rfl | h
    · exact hq
    · have hparent := tree.parent _ hq
      rw [Path.parent_join hqv hs] at hparent
      exact ih hparent h

/-- The tree with a directory and those above it. -/
def made (tree : DirectoryTree) (p : String) (hp : Path.IsValid p) : DirectoryTree where
  paths := tree.paths ∪ (Path.prefixes p).toFinset
  valid q hq := by
    rcases Finset.mem_union.mp hq with hq | hq
    · exact tree.valid q hq
    · exact (Path.isAbove_of_mem_prefixes hp (List.mem_toFinset.mp hq)).valid
  root := Finset.mem_union_left _ tree.root
  parent q hq := by
    rw [Finset.mem_union, List.mem_toFinset] at hq ⊢
    by_cases hparent : Path.parent q = Path.root
    · rw [hparent]
      exact .inl tree.root
    · refine hq.imp (tree.parent q) fun hq => ?_
      have hqp := Path.isAbove_of_mem_prefixes hp hq
      have hne : p ≠ Path.root := by
        rintro rfl
        rw [Path.isAbove_root_iff.mp hqp, Path.parent_root] at hparent
        exact hparent rfl
      exact (Path.mem_prefixes_iff hp hne).mpr
        ⟨hparent, (Path.parent_isAbove hqp.valid).trans hqp⟩

/-- Directories are made along the whole path. -/
theorem mem_made (hp : Path.IsValid p) :
    q ∈ (tree.made p hp).paths ↔ q ∈ tree.paths ∨ Path.IsAbove q p := by
  rw [made, Finset.mem_union, List.mem_toFinset]
  constructor
  · exact Or.imp_right (Path.isAbove_of_mem_prefixes hp)
  · rintro (hq | hq)
    · exact .inl hq
    by_cases hroot : q = Path.root
    · rw [hroot]
      exact .inl tree.root
    · have hne : p ≠ Path.root := by
        rintro rfl
        exact hroot (Path.isAbove_root_iff.mp hq)
      exact .inr ((Path.mem_prefixes_iff hp hne).mpr ⟨hroot, hq⟩)

/-- The tree without a directory that is not the root and has none below it. -/
def removed (tree : DirectoryTree) (p : String) (hne : p ≠ Path.root)
    (hempty : tree.children p = ∅) : DirectoryTree where
  paths := tree.paths.erase p
  valid q hq := tree.valid q (Finset.mem_of_mem_erase hq)
  root := Finset.mem_erase.mpr ⟨hne.symm, tree.root⟩
  parent q hq := by
    obtain ⟨-, hq⟩ := Finset.mem_erase.mp hq
    refine Finset.mem_erase.mpr ⟨fun hpq => ?_, tree.parent q hq⟩
    by_cases hroot : q = Path.root
    · rw [hroot, Path.parent_root] at hpq
      exact hne hpq.symm
    · have hchild : q ∈ tree.children p := mem_children.mpr ⟨hq, hroot, hpq⟩
      rw [hempty] at hchild
      exact absurd hchild (Finset.notMem_empty q)

/-- What a request makes of the tree. A directory that has others below it, and the root, are not
deleted. -/
def after (tree : DirectoryTree) : ServiceRequest → DirectoryTree
  | .makeDirectories p => if h : Path.IsValid p then tree.made p h else tree
  | .delete p => if h : p ≠ Path.root ∧ tree.children p = ∅ then tree.removed p h.1 h.2 else tree
  | .status _ | .list _ => tree

/-- What requests make of the tree, one after the other. -/
def afterAll (tree : DirectoryTree) (requests : List ServiceRequest) : DirectoryTree :=
  requests.foldl after tree

/-- Requests lead on from where the earlier ones led to. -/
theorem afterAll_append (tree : DirectoryTree) (earlier later : List ServiceRequest) :
    tree.afterAll (earlier ++ later) = (tree.afterAll earlier).afterAll later :=
  List.foldl_append

/-- A directory is made below one that is there. -/
theorem paths_after_makeDirectories (hp : Path.IsValid p) (hparent : Path.parent p ∈ tree.paths) :
    (tree.after (.makeDirectories p)).paths = insert p tree.paths := by
  ext q
  rw [after, dif_pos hp, mem_made, Finset.mem_insert]
  constructor
  · rintro (hq | hq)
    · exact .inr hq
    · by_cases hne : p = q
      · exact .inl hne.symm
      · exact .inr (mem_of_isAbove hparent (hq.parent hp hne))
  · rintro (rfl | hq)
    · exact .inr hp.isAbove
    · exact .inl hq

/-- An empty directory is removed. -/
theorem paths_after_delete (hne : p ≠ Path.root) (hempty : tree.children p = ∅) :
    (tree.after (.delete p)).paths = tree.paths.erase p := by
  rw [after, dif_pos ⟨hne, hempty⟩, removed]

/-- Any other is left alone. -/
theorem after_delete_of_full (hfull : tree.children p ≠ ∅) : tree.after (.delete p) = tree := by
  rw [after, dif_neg fun h => hfull h.2]

/-- There is nothing below a directory that is missing. -/
theorem children_of_missing (hp : p ∉ tree.paths) : tree.children p = ∅ := by
  refine Finset.eq_empty_iff_forall_notMem.mpr fun q hq => hp ?_
  obtain ⟨hmem, -, rfl⟩ := mem_children.mp hq
  exact tree.parent q hmem

/-- What the service answers from a tree. Objects that are missing are reported as such; listings
tell the paths of the directories right below, in any order; and a directory with others below it is
not deleted. -/
structure Serves (tree : DirectoryTree) (answer : ServiceRequest → Except Report Value) : Prop where
  status_present : ∀ p ∈ tree.paths, ∃ value, answer (.status p) = .ok value
  status_missing : ∀ p ∉ tree.paths, ∃ report,
    answer (.status p) = .error report ∧ report.fault.isAbsence = true
  list_present : ∀ p ∈ tree.paths, ∃ listed : List String,
    answer (.list p) = .ok (.list (listed.map .str)) ∧ listed.Nodup ∧
      ∀ q, q ∈ listed ↔ q ∈ tree.children p
  list_missing : ∀ p ∉ tree.paths, ∃ report,
    answer (.list p) = .error report ∧ report.fault.isAbsence = true
  make : ∀ p, Path.IsValid p → ∃ value, answer (.makeDirectories p) = .ok value
  delete_missing : ∀ p ∉ tree.paths, ∃ report,
    answer (.delete p) = .error report ∧ report.fault.isAbsence = true
  delete_full : ∀ p ∈ tree.paths, tree.children p ≠ ∅ → ∃ report,
    answer (.delete p) = .error report ∧ report.fault.isAbsence = false ∧
      report.code = some Workspace.notEmptyCode
  delete_empty : ∀ p ∈ tree.paths, tree.children p = ∅ → p ≠ Path.root →
    ∃ value, answer (.delete p) = .ok value

end DirectoryTree

/-- A service that keeps a tree of directories: after some requests, it answers from what they have
made of the tree. -/
def Service.Keeps (service : Service) (tree : DirectoryTree) : Prop :=
  ∀ asked, (tree.afterAll asked).Serves (service.answer asked)

namespace DirectoryTree

end DirectoryTree

/-- A store in memory whose nodes are the directories of a tree. -/
structure Memory.Holds (m : Memory) (tree : DirectoryTree) : Prop where
  /-- The table describes one tree. -/
  consistent : m.Consistent
  /-- The session is there. -/
  opened : m.closed = false
  /-- The store cannot create containers. -/
  containers : m.containers = false
  /-- The nodes are the directories. -/
  has_iff : ∀ p, m.has p = true ↔ p ∈ tree.paths

namespace Memory.Holds

variable {m : Memory} {tree : DirectoryTree} {p : String}

/-- A store that holds a tree lacks the paths that the tree lacks. -/
theorem has_eq_false_iff (h : m.Holds tree) : m.has p = false ↔ p ∉ tree.paths := by
  rw [← h.has_iff, Bool.not_eq_true]

theorem find?_eq_none_iff (h : m.Holds tree) : m.find? p = none ↔ p ∉ tree.paths :=
  Memory.find?_eq_none_iff.trans h.has_eq_false_iff

/-- The names of a node's children are those of the directories right below it. -/
theorem mem_children (h : m.Holds tree) {node : Node} (hn : m.find? p = some node) {name : String} :
    name ∈ node.children ↔ ∃ q ∈ tree.children p, Path.leaf q = name := by
  rw [h.consistent.mem_children p node hn]
  constructor
  · rintro ⟨q, hq, hne, hparent, hleaf⟩
    exact ⟨q, DirectoryTree.mem_children.mpr ⟨(h.has_iff q).mp hq, hne, hparent⟩, hleaf⟩
  · rintro ⟨q, hq, hleaf⟩
    obtain ⟨hmem, hne, hparent⟩ := DirectoryTree.mem_children.mp hq
    exact ⟨q, (h.has_iff q).mpr hmem, hne, hparent, hleaf⟩

/-- A node is childless exactly if its directory is empty. -/
theorem children_eq_nil_iff (h : m.Holds tree) {node : Node} (hn : m.find? p = some node) :
    node.children = [] ↔ tree.children p = ∅ := by
  rw [List.eq_nil_iff_forall_not_mem, Finset.eq_empty_iff_forall_notMem]
  constructor
  · intro hnone q hq
    exact hnone _ ((h.mem_children hn).mpr ⟨q, hq, rfl⟩)
  · intro hnone name hname
    obtain ⟨q, hq, -⟩ := (h.mem_children hn).mp hname
    exact hnone q hq

/-- A listing of the directories right below a node tells, in some order, the names of its children.
-/
theorem perm_children (h : m.Holds tree) {node : Node} (hn : m.find? p = some node)
    {listed : List String} (hnodup : listed.Nodup)
    (hlisted : ∀ q, q ∈ listed ↔ q ∈ tree.children p) :
    (listed.map Path.leaf).Perm node.children := by
  have hleaf : ∀ q ∈ listed, ∀ r ∈ listed, Path.leaf q = Path.leaf r → q = r := by
    intro q hq r hr he
    obtain ⟨hq, hqne, hqparent⟩ := DirectoryTree.mem_children.mp ((hlisted q).mp hq)
    obtain ⟨hr, hrne, hrparent⟩ := DirectoryTree.mem_children.mp ((hlisted r).mp hr)
    rw [← Path.join_parent_leaf (tree.valid q hq) hqne,
      ← Path.join_parent_leaf (tree.valid r hr) hrne, hqparent, hrparent, he]
  have hchildren := h.consistent.children_nodup p node hn
  refine (List.perm_ext_iff_of_nodup (hnodup.map_on hleaf) hchildren).mpr fun name => ?_
  rw [List.mem_map, h.mem_children hn]
  constructor
  · rintro ⟨q, hq, he⟩
    exact ⟨q, (hlisted q).mp hq, he⟩
  · rintro ⟨q, hq, he⟩
    exact ⟨q, (hlisted q).mpr hq, he⟩

/-- Only the paths of a tree matter to the store that holds it. -/
theorem congr (h : m.Holds tree) {tree' : DirectoryTree} (htree : tree'.paths = tree.paths) :
    m.Holds tree' :=
  ⟨h.consistent, h.opened, h.containers, fun q => by rw [h.has_iff, htree]⟩

theorem has_root (h : m.Holds tree) : m.has Path.root = true := (h.has_iff _).mpr tree.root

/-- The store holds one more directory when a node is added below an existing one. -/
theorem attach (h : m.Holds tree) (hp : Path.IsValid p) (hparent : Path.parent p ∈ tree.paths)
    (hfree : p ∉ tree.paths) {node : Node} (hnode : node.children = []) {tree' : DirectoryTree}
    (htree : tree'.paths = Insert.insert p tree.paths) :
    (m.attach (Path.parent p) p node).Holds tree' := by
  have hne : p ≠ Path.root := by
    rintro rfl
    exact hfree tree.root
  refine ⟨h.consistent.attach hp hne (h.has_eq_false_iff.mpr hfree) ((h.has_iff _).mpr hparent)
    hnode, h.opened, h.containers, fun q => ?_⟩
  rw [Memory.has_attach, htree, Finset.mem_insert, Bool.or_eq_true, decide_eq_true_iff, h.has_iff]

/-- The store holds one directory less when a node without children is removed. -/
theorem unlink (h : m.Holds tree) {node : Node} (hn : m.find? p = some node)
    (hc : node.children = []) {tree' : DirectoryTree} (htree : tree'.paths = tree.paths.erase p) :
    (m.unlink p).1.Holds tree' := by
  refine ⟨h.consistent.unlink hn hc, Memory.closed_unlink.trans h.opened,
    Memory.containers_unlink.trans h.containers, fun q => ?_⟩
  rw [Memory.has_unlink, htree, Finset.mem_erase, Bool.and_eq_true, decide_eq_true_iff, h.has_iff]

end Memory.Holds

namespace DirectoryTree

/-- A tree is nothing but the root, or there is another directory with none below it. -/
theorem eq_root_or_exists_childless (tree : DirectoryTree) :
    tree.paths = {Path.root} ∨ ∃ p ∈ tree.paths, p ≠ Path.root ∧ tree.children p = ∅ := by
  obtain ⟨p, hp, hdeepest⟩ := tree.paths.exists_max_image (fun p => (Path.segments p).length)
    ⟨Path.root, tree.root⟩
  have hlonger : ∀ q ∈ tree.paths, q ≠ Path.root →
      (Path.segments (Path.parent q)).length < (Path.segments q).length := by
    intro q hq hne
    rw [Path.segments_eq_parent_leaf (tree.valid q hq) hne, List.length_append]
    exact Nat.lt_succ_self _
  by_cases hroot : p = Path.root
  · refine .inl (Finset.eq_singleton_iff_unique_mem.mpr ⟨tree.root, fun q hq => ?_⟩)
    by_contra hne
    have hle := hdeepest q hq
    have hlt := hlonger q hq hne
    rw [hroot, Path.segments_root, List.length_nil] at hle
    omega
  · refine .inr ⟨p, hp, hroot, Finset.eq_empty_iff_forall_notMem.mpr fun q hq => ?_⟩
    obtain ⟨hmem, hne, rfl⟩ := mem_children.mp hq
    exact absurd (hdeepest q hmem) (Nat.not_le.mpr (hlonger q hmem hne))

/-- Requests lead from a new store without containers to one that holds the tree. -/
theorem exists_holds (tree : DirectoryTree) : ∃ m : Memory, m.Reachable ∧ m.Holds tree := by
  generalize hcount : tree.paths.card = count
  induction count generalizing tree with
  | zero =>
    have hroot := tree.root
    rw [Finset.card_eq_zero.mp hcount] at hroot
    exact absurd hroot (Finset.notMem_empty _)
  | succ count ih =>
    obtain hroot | ⟨p, hp, hne, hempty⟩ := tree.eq_root_or_exists_childless
    · refine ⟨{ containers := false }, ⟨false, [], rfl⟩, Memory.consistent_fresh false, rfl, rfl,
        fun q => ?_⟩
      rw [hroot, Finset.mem_singleton, ← Memory.mem_keys]
      simp [Memory.keys]
    · have hpaths : (tree.removed p hne hempty).paths = tree.paths.erase p := rfl
      have hparent : Path.parent p ∈ (tree.removed p hne hempty).paths :=
        Finset.mem_erase.mpr ⟨Path.parent_ne_self (tree.valid p hp) hne, tree.parent p hp⟩
      have hfree : p ∉ (tree.removed p hne hempty).paths := Finset.notMem_erase p tree.paths
      obtain ⟨m, hm, hholds⟩ := ih (tree.removed p hne hempty) (by
        rw [hpaths, Finset.card_erase_of_mem hp, hcount]
        rfl)
      refine ⟨_, hm.after (.call (.create p [] [] .persistent)), ?_⟩
      rw [Memory.after_create, Memory.create_plain rfl (fun h => absurd h (by decide))
        (tree.valid p hp) hholds.opened ((hholds.has_iff _).mpr hparent),
        hholds.has_eq_false_iff.mpr hfree]
      refine hholds.attach (tree.valid p hp) hparent hfree rfl ?_
      rw [hpaths, Finset.insert_erase hp]

end DirectoryTree

end TreeStore
