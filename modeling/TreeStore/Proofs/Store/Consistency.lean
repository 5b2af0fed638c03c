import TreeStore.Proofs.Store.Table

/-!
# Consistency of the table

The tree is stored twice: as the paths of the nodes and as the names of the children of each node.
The two agree in every consistent store, and each change that a request makes to the table keeps
them in agreement.
-/

namespace TreeStore

namespace Node

theorem mem_children_adopt {name other : String} {n : Node} :
    other ∈ (n.adopt name).children ↔ other ∈ n.children ∨ other = name := by
  simp only [adopt]
  split
  · rename_i h
    constructor
    · exact .inl
    · rintro (ho | rfl)
      · exact ho
      · exact h
  · simp

theorem nodup_children_adopt {name : String} {n : Node} (h : n.children.Nodup) :
    (n.adopt name).children.Nodup := by
  simp only [adopt]
  split
  · exact h
  · rename_i hn
    rw [List.nodup_append]
    refine ⟨h, by simp, ?_⟩
    rintro a ha b hb rfl
    rw [List.mem_singleton.mp hb] at ha
    exact hn ha

end Node

namespace Memory

/-- The paths of the nodes and the names of the children describe one tree. -/
structure Consistent (m : Memory) : Prop where
  /-- No path occurs twice. -/
  nodup : m.keys.Nodup
  /-- Every path is valid. -/
  valid : ∀ p, m.has p = true → Path.IsValid p
  /-- Every node below the root has its parent in the table. -/
  parent : ∀ p, m.has p = true → p ≠ Path.root → m.has (Path.parent p) = true
  /-- No child is listed twice. -/
  children_nodup : ∀ p n, m.find? p = some n → n.children.Nodup
  /-- The children of a node are the leaves of the nodes whose parent it is. -/
  mem_children : ∀ p n, m.find? p = some n → ∀ name, name ∈ n.children ↔
    ∃ q, m.has q = true ∧ q ≠ Path.root ∧ Path.parent q = p ∧ Path.leaf q = name
  /-- A node with a child is known to have had one. -/
  hadChildren : ∀ p n, m.find? p = some n → n.children ≠ [] → n.hadChildren = true

variable {m : Memory} {p q : String}

/-- The names of the children are the names that lead to a node in the table. -/
theorem Consistent.mem_children_iff (h : m.Consistent) {n : Node} (hn : m.find? p = some n)
    {name : String} :
    name ∈ n.children ↔ Path.IsName name ∧ m.has (Path.join [p, name]) = true := by
  have hp := h.valid p (has_of_find? hn)
  rw [h.mem_children p n hn]
  constructor
  · rintro ⟨q, hq, hne, rfl, rfl⟩
    have hv := h.valid q hq
    exact ⟨hv.leaf hne, by rwa [Path.join_parent_leaf hv hne]⟩
  · rintro ⟨hname, hq⟩
    exact ⟨_, hq, Path.join_ne_root hp hname, Path.parent_join hp hname, Path.leaf_join hp hname⟩

/-- All nodes above a node are in the table. -/
theorem Consistent.has_of_isAbove (h : m.Consistent) (hq : m.has q = true)
    (ha : Path.IsAbove p q) : m.has p = true := by
  have hv := h.valid q hq
  induction hv using Path.IsValid.induction with
  | atRoot => rwa [Path.isAbove_root_iff.mp ha]
  | atChild q s hqv hs ih =>
    rcases (Path.isAbove_join_iff hqv hs).mp ha with rfl | ha
    · exact hq
    · have hparent := h.parent _ hq (Path.join_ne_root hqv hs)
      rw [Path.parent_join hqv hs] at hparent
      exact ih hparent ha

/-- Below a node without children there are no nodes. -/
theorem Consistent.eq_of_isAbove (h : m.Consistent)
    (hc : ∀ name, Path.IsName name → m.has (Path.join [p, name]) = false) (hq : m.has q = true)
    (ha : Path.IsAbove p q) : q = p := by
  by_contra hne
  obtain ⟨name, hname, hbelow⟩ := ha.exists_child (h.valid q hq) (Ne.symm hne)
  have hchild := h.has_of_isAbove hq hbelow
  rw [hc name hname] at hchild
  cases hchild

/-- Below a missing node there are no nodes. -/
theorem Consistent.not_has_join (h : m.Consistent) (hp : Path.IsValid p) (hm : m.has p = false)
    {name : String} (hname : Path.IsName name) : m.has (Path.join [p, name]) = false := by
  rw [← Bool.not_eq_true]
  intro hq
  have hup := h.has_of_isAbove hq (Path.isAbove_join hp hname)
  rw [hm] at hup
  cases hup

/-- A store with nothing but the root is consistent. -/
theorem consistent_fresh (containers : Bool) : ({ containers } : Memory).Consistent := by
  have hhas : ∀ p, ({ containers } : Memory).has p = true → p = Path.root := by
    intro p hp
    simpa [keys] using mem_keys.mpr hp
  refine ⟨by simp [keys], ?_, ?_, ?_, ?_, ?_⟩
  · intro p hp
    rw [hhas p hp]
    exact Path.isValid_root
  · intro p hp hne
    exact absurd (hhas p hp) hne
  all_goals
    intro p n hn
    obtain rfl := hhas p (has_of_find? hn)
    have he : n = ⟨[], [], .persistent, 0, [], 0, false⟩ := by
      simpa [find?, eq_comm] using hn
    subst he
  · exact List.nodup_nil
  · intro name
    constructor
    · intro h
      simp at h
    · rintro ⟨q, hq, hne, -⟩
      exact absurd (hhas q hq) hne
  · intro h
    simp at h

/-- A change that leaves the children of a node alone keeps the store consistent. -/
theorem Consistent.modify (h : m.Consistent) (p : String) {f : Node → Node}
    (hchildren : ∀ n, (f n).children = n.children)
    (hhad : ∀ n, (f n).hadChildren = n.hadChildren) : (m.modify p f).Consistent := by
  have hfind : ∀ q n', (m.modify p f).find? q = some n' →
      ∃ n, m.find? q = some n ∧ n'.children = n.children ∧ n'.hadChildren = n.hadChildren := by
    intro q n' hn
    rw [find?_modify] at hn
    split at hn
    · obtain ⟨n, hold, rfl⟩ := Option.map_eq_some_iff.mp hn
      exact ⟨n, hold, hchildren n, hhad n⟩
    · exact ⟨n', hn, rfl, rfl⟩
  refine ⟨by simpa using h.nodup, ?_, ?_, ?_, ?_, ?_⟩
  · simpa using h.valid
  · simpa using h.parent
  all_goals
    intro q n' hn
    obtain ⟨n, hn, hc, hh⟩ := hfind q n' hn
    rw [hc]
  · exact h.children_nodup q n hn
  · simpa using h.mem_children q n hn
  · rw [hh]
    exact h.hadChildren q n hn

/-- A node that is not in the table is the parent of none that is. -/
theorem Consistent.parent_ne (h : m.Consistent) (hfree : m.has p = false) (hq : m.has q = true)
    (hne : q ≠ Path.root) : Path.parent q ≠ p := by
  rintro rfl
  rw [h.parent q hq hne] at hfree
  cases hfree

/-- The new node is childless, its parent has one more child, and the others have those they had. -/
private theorem Consistent.mem_children_attach (h : m.Consistent) (hp : Path.IsValid p)
    (hne : p ≠ Path.root) (hfree : m.has p = false) {node : Node} (hnode : node.children = [])
    {n : Node} (hn : (m.attach (Path.parent p) p node).find? q = some n) (name : String) :
    name ∈ n.children ↔ ∃ r, (m.attach (Path.parent p) p node).has r = true ∧ r ≠ Path.root ∧
      Path.parent r = q ∧ Path.leaf r = name := by
  have hap : Path.parent p ≠ p := Path.parent_ne_self hp hne
  have hhas : ∀ r, (m.attach (Path.parent p) p node).has r = true ↔ r = p ∨ m.has r = true := by
    intro r
    simp [has_attach]
  rw [find?_attach hfree hap] at hn
  split at hn
  · rename_i hq
    subst hq
    obtain rfl := Option.some.inj hn
    rw [hnode]
    constructor
    · intro hmem
      cases hmem
    · rintro ⟨r, hr, hroot, hpar, -⟩
      rcases (hhas r).mp hr with rfl | hr
      · exact absurd hpar hap
      · exact absurd hpar (h.parent_ne hfree hr hroot)
  · split at hn
    · rename_i hq
      obtain ⟨n, hold, rfl⟩ := Option.map_eq_some_iff.mp hn
      rw [Node.mem_children_adopt, h.mem_children q n hold]
      constructor
      · rintro (⟨r, hr, hrest⟩ | rfl)
        · exact ⟨r, (hhas r).mpr (.inr hr), hrest⟩
        · exact ⟨p, (hhas p).mpr (.inl rfl), hne, hq.symm, rfl⟩
      · rintro ⟨r, hr, hrest⟩
        rcases (hhas r).mp hr with rfl | hr
        · exact .inr hrest.2.2.symm
        · exact .inl ⟨r, hr, hrest⟩
    · rename_i hq
      rw [h.mem_children q n hn]
      constructor
      · rintro ⟨r, hr, hrest⟩
        exact ⟨r, (hhas r).mpr (.inr hr), hrest⟩
      · rintro ⟨r, hr, hroot, hpar, hleaf⟩
        rcases (hhas r).mp hr with rfl | hr
        · exact absurd hpar.symm hq
        · exact ⟨r, hr, hroot, hpar, hleaf⟩

/-- Adding a childless node below an existing one keeps the store consistent. -/
theorem Consistent.attach (h : m.Consistent) (hp : Path.IsValid p) (hne : p ≠ Path.root)
    (hfree : m.has p = false) (habove : m.has (Path.parent p) = true) {node : Node}
    (hnode : node.children = []) : (m.attach (Path.parent p) p node).Consistent := by
  have hap : Path.parent p ≠ p := Path.parent_ne_self hp hne
  have hhas : ∀ q, (m.attach (Path.parent p) p node).has q = true ↔ q = p ∨ m.has q = true := by
    intro q
    simp [has_attach]
  refine ⟨?_, ?_, ?_, ?_, fun q n hn => h.mem_children_attach hp hne hfree hnode hn, ?_⟩
  · rw [Memory.attach, keys_modify, keys_insert, List.nodup_append]
    refine ⟨h.nodup, by simp, ?_⟩
    rintro a ha b hb rfl
    rw [List.mem_singleton.mp hb, mem_keys, hfree] at ha
    cases ha
  · intro q hq
    rcases (hhas q).mp hq with rfl | hq
    · exact hp
    · exact h.valid q hq
  · intro q hq hroot
    rw [hhas]
    rcases (hhas q).mp hq with rfl | hq
    · exact .inr habove
    · exact .inr (h.parent q hq hroot)
  all_goals
    intro q n hn
    rw [find?_attach hfree hap] at hn
    split at hn
  · obtain rfl := Option.some.inj hn
    rw [hnode]
    exact List.nodup_nil
  · split at hn
    · obtain ⟨n, hold, rfl⟩ := Option.map_eq_some_iff.mp hn
      exact Node.nodup_children_adopt (h.children_nodup q n hold)
    · exact h.children_nodup q n hn
  · obtain rfl := Option.some.inj hn
    intro hc
    exact absurd hnode hc
  · split at hn
    · obtain ⟨n, -, rfl⟩ := Option.map_eq_some_iff.mp hn
      exact fun _ => rfl
    · exact h.hadChildren q n hn

/-- A node without children is the parent of none. -/
theorem Consistent.parent_ne_of_childless (h : m.Consistent) {node : Node}
    (hn : m.find? p = some node) (hc : node.children = []) (hq : m.has q = true)
    (hne : q ≠ Path.root) : Path.parent q ≠ p := by
  intro hpar
  have hmem := (h.mem_children p node hn (Path.leaf q)).mpr ⟨q, hq, hne, hpar, rfl⟩
  rw [hc] at hmem
  cases hmem

/-- The parent of a removed node lost the child, and the others have those they had. -/
private theorem Consistent.mem_children_unlink (h : m.Consistent) (hp : Path.IsValid p) {n : Node}
    (hn : (m.unlink p).1.find? q = some n) (name : String) :
    name ∈ n.children ↔ ∃ r, (m.unlink p).1.has r = true ∧ r ≠ Path.root ∧ Path.parent r = q ∧
      Path.leaf r = name := by
  have hhas : ∀ r, (m.unlink p).1.has r = true ↔ r ≠ p ∧ m.has r = true := by
    intro r
    simp [has_unlink]
  rw [find?_unlink] at hn
  split at hn
  · cases hn
  rename_i hqp
  split at hn
  · rename_i hpar
    obtain ⟨n, hold, rfl⟩ := Option.map_eq_some_iff.mp hn
    rw [Node.disown, (h.children_nodup q n hold).mem_erase_iff, h.mem_children q n hold]
    constructor
    · rintro ⟨hname, r, hr, hroot, hrpar, rfl⟩
      exact ⟨r, (hhas r).mpr ⟨fun he => hname (by rw [he]), hr⟩, hroot, hrpar, rfl⟩
    · rintro ⟨r, hr, hroot, hrpar, rfl⟩
      obtain ⟨hrp, hr⟩ := (hhas r).mp hr
      refine ⟨fun hleaf => hrp ?_, r, hr, hroot, hrpar, rfl⟩
      have hproot : p ≠ Path.root := by
        rintro rfl
        rw [Path.parent_root] at hpar
        exact hqp hpar
      rw [← Path.join_parent_leaf (h.valid r hr) hroot, hleaf, hrpar, hpar,
        Path.join_parent_leaf hp hproot]
  · rename_i hpar
    rw [h.mem_children q n hn]
    constructor
    · rintro ⟨r, hr, hroot, hrpar, hleaf⟩
      refine ⟨r, (hhas r).mpr ⟨?_, hr⟩, hroot, hrpar, hleaf⟩
      rintro rfl
      exact hpar hrpar.symm
    · rintro ⟨r, hr, hrest⟩
      exact ⟨r, ((hhas r).mp hr).2, hrest⟩

/-- Removing a childless node keeps the store consistent, even if it is the root. -/
theorem Consistent.unlink (h : m.Consistent) {node : Node} (hn : m.find? p = some node)
    (hc : node.children = []) : (m.unlink p).1.Consistent := by
  have hp := h.valid p (has_of_find? hn)
  have hhas : ∀ q, (m.unlink p).1.has q = true ↔ q ≠ p ∧ m.has q = true := by
    intro q
    simp [has_unlink]
  refine ⟨?_, ?_, ?_, ?_, fun q n hq => h.mem_children_unlink hp hq, ?_⟩
  · rw [keys_unlink]
    exact h.nodup.filter _
  · intro q hq
    exact h.valid q ((hhas q).mp hq).2
  · intro q hq hroot
    have hmem := ((hhas q).mp hq).2
    exact (hhas _).mpr ⟨h.parent_ne_of_childless hn hc hmem hroot, h.parent q hmem hroot⟩
  all_goals
    intro q n hq
    rw [find?_unlink] at hq
    split at hq
    · cases hq
    split at hq
  · obtain ⟨n, hold, rfl⟩ := Option.map_eq_some_iff.mp hq
    exact (h.children_nodup q n hold).erase _
  · exact h.children_nodup q n hq
  · obtain ⟨n, hold, rfl⟩ := Option.map_eq_some_iff.mp hq
    intro hne
    refine h.hadChildren q n hold fun he => hne ?_
    simp [Node.disown, he]
  · exact h.hadChildren q n hq

/-- The unlinking of a node below the root does not fail, since the parent is there. -/
theorem Consistent.unlink_eq_ok (h : m.Consistent) (hp : m.has p = true) (hne : p ≠ Path.root) :
    m.unlink p = ((m.unlink p).1, .ok ()) := by
  have hparent : (m.erase p).has (Path.parent p) = true := by
    rw [has_erase, decide_eq_true (Path.parent_ne_self (h.valid p hp) hne), h.parent p hp hne]
    rfl
  rw [Memory.unlink, if_pos hparent]

/-- Sweeping away spent containers keeps the store consistent. -/
theorem Consistent.sweep (paths : List String) (h : m.Consistent) :
    (m.sweep paths).1.Consistent := by
  induction paths generalizing m with
  | nil => exact h
  | cons path rest ih =>
    rw [Memory.sweep]
    split
    · rename_i node hn
      split
      · rename_i hspent
        simp only [Node.isSpent, Bool.and_eq_true, List.isEmpty_iff] at hspent
        exact ih (h.unlink hn hspent.2)
      · exact ih h
    · exact ih h

end Memory

end TreeStore
