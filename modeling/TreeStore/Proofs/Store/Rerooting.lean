import TreeStore.Proofs.Path.Joining
import TreeStore.Proofs.Store.Consistency
import Mathlib.Data.List.Nodup

/-!
# The store below a node

What lies below a node is a store of its own, whose root is the node: each path loses the part that
leads to the node. It describes one tree if the whole store does, and its nodes are those of the
whole store at the longer paths.
-/

namespace TreeStore

namespace Path

instance (a p : String) : Decidable (IsAbove a p) :=
  decidable_of_iff (IsValid a ∧ segments a <+: segments p)
    ⟨fun h => ⟨h.1, h.2⟩, fun h => ⟨h.valid, h.segments⟩⟩

/-- The rest of a valid path that lies below another one. -/
def relative? (top q : String) : Option String :=
  if IsValid q ∧ IsAbove top q then
    some (String.ofList (spell (((segments q).drop (segments top).length).map String.toList)))
  else none

variable {top p q : String}

/-- A valid path is the spelling of its segments. -/
theorem IsValid.ofList_segments (h : IsValid p) :
    String.ofList (spell ((segments p).map String.toList)) = p := by
  obtain ⟨segs, hs, rfl⟩ := isValid_iff.mp h
  rw [segments, String.toList_ofList, segmentChars_spell hs]
  simp

/-- A path behind the top is found relative to it. -/
theorem relative?_append (ht : IsValid top) (hp : IsValid p) :
    relative? top (join [top, p]) = some p := by
  rw [relative?, if_pos ⟨ht.append hp, isAbove_append ht hp⟩, segments_append ht hp,
    List.drop_left, hp.ofList_segments]

/-- A path has a rest exactly if it is the upper path with the rest behind it. -/
theorem relative?_eq_some_iff :
    relative? top q = some p ↔ IsValid top ∧ IsValid p ∧ q = join [top, p] := by
  constructor
  · intro h
    have hq : IsValid q ∧ IsAbove top q := by
      by_contra hn
      rw [relative?, if_neg hn] at h
      cases h
    obtain ⟨p', hp', rfl⟩ := hq.2.exists_append hq.1
    rw [relative?_append hq.2.valid hp'] at h
    obtain rfl := Option.some.inj h
    exact ⟨hq.2.valid, hp', rfl⟩
  · rintro ⟨ht, hp, rfl⟩
    exact relative?_append ht hp

end Path

namespace Memory

/-- The store below a node, with the node as its root. -/
def rerooted (m : Memory) (top : String) : Memory :=
  { m with nodes := m.nodes.filterMap fun (q, n) => (Path.relative? top q).map fun p => (p, n) }

variable {m : Memory} {top p : String}

@[simp] theorem containers_rerooted : (m.rerooted top).containers = m.containers := rfl

/-- The keys below the top keep their order. -/
theorem keys_rerooted : (m.rerooted top).keys = m.keys.filterMap (Path.relative? top) := by
  rw [keys, rerooted, List.map_filterMap, keys, List.filterMap_map]
  refine List.filterMap_congr fun e _ => ?_
  simp only [Function.comp_apply]
  cases Path.relative? top e.1 <;> rfl

/-- The nodes are those at the longer paths. -/
theorem find?_rerooted (ht : Path.IsValid top) (hp : Path.IsValid p) :
    (m.rerooted top).find? p = m.find? (Path.join [top, p]) := by
  simp only [find?, rerooted]
  induction m.nodes with
  | nil => rfl
  | cons e rest ih =>
    obtain ⟨q, n⟩ := e
    rw [List.filterMap_cons, List.lookup_cons]
    by_cases hq : Path.join [top, p] = q
    · rw [← hq, Path.relative?_append ht hp]
      simp
    · have hb : (Path.join [top, p] == q) = false := by simpa using hq
      rw [hb]
      cases hr : Path.relative? top q with
      | none => exact ih
      | some p' =>
        have hne : p ≠ p' := by
          rintro rfl
          exact hq (Path.relative?_eq_some_iff.mp hr).2.2.symm
        have hb' : (p == p') = false := by simpa using hne
        simp only [Option.map_some, List.lookup_cons, hb']
        exact ih

/-- A path is there exactly if it is there behind the top. -/
theorem has_rerooted (ht : Path.IsValid top) (hp : Path.IsValid p) :
    (m.rerooted top).has p = m.has (Path.join [top, p]) := by
  rw [has, has, find?_rerooted ht hp]

/-- There are nodes at valid paths only. -/
theorem isValid_of_has_rerooted (h : (m.rerooted top).has p = true) :
    Path.IsValid top ∧ Path.IsValid p := by
  rw [← mem_keys, keys_rerooted, List.mem_filterMap] at h
  obtain ⟨q, -, hq⟩ := h
  obtain ⟨ht, hp, -⟩ := Path.relative?_eq_some_iff.mp hq
  exact ⟨ht, hp⟩

/-- The store below a node describes one tree. -/
theorem Consistent.rerooted (h : m.Consistent) (top : String) : (m.rerooted top).Consistent := by
  have hfind : ∀ p n, (m.rerooted top).find? p = some n →
      Path.IsValid top ∧ Path.IsValid p ∧ m.find? (Path.join [top, p]) = some n := by
    intro p n hn
    obtain ⟨ht, hp⟩ := isValid_of_has_rerooted (has_of_find? hn)
    exact ⟨ht, hp, by rw [← find?_rerooted ht hp, hn]⟩
  refine ⟨?_, fun p hp => (isValid_of_has_rerooted hp).2, ?_, ?_, ?_, ?_⟩
  · rw [keys_rerooted]
    refine h.nodup.filterMap fun q q' p hq hq' => ?_
    rw [(Path.relative?_eq_some_iff.mp hq).2.2, (Path.relative?_eq_some_iff.mp hq').2.2]
  · intro p hp hne
    obtain ⟨ht, hv⟩ := isValid_of_has_rerooted hp
    rw [has_rerooted ht hv] at hp
    rw [has_rerooted ht hv.parent, ← Path.parent_append ht hv hne]
    exact h.parent _ hp (Path.append_ne_root ht hv hne)
  · intro p n hn
    exact h.children_nodup _ n (hfind p n hn).2.2
  · intro p n hn name
    obtain ⟨ht, hp, hn⟩ := hfind p n hn
    rw [h.mem_children_iff hn]
    constructor
    · rintro ⟨hname, hhas⟩
      refine ⟨Path.join [p, name], ?_, Path.join_ne_root hp hname, Path.parent_join hp hname,
        Path.leaf_join hp hname⟩
      rwa [has_rerooted ht (hp.join hname), Path.append_join ht hp hname]
    · rintro ⟨q, hq, hne, rfl, rfl⟩
      obtain ⟨-, hv⟩ := isValid_of_has_rerooted hq
      rw [has_rerooted ht hv] at hq
      refine ⟨hv.leaf hne, ?_⟩
      rwa [← Path.append_join ht hv.parent (hv.leaf hne), Path.join_parent_leaf hv hne]
  · intro p n hn
    exact h.hadChildren _ n (hfind p n hn).2.2

/-- Two stores have the same nodes, each with the same children in some order; only what clients
cannot read off the nodes may differ. -/
structure Alike (m m' : Memory) : Prop where
  /-- There are nodes at the same paths. -/
  has : ∀ p, m'.has p = m.has p
  /-- Nodes at the same path agree. -/
  agrees : ∀ p n n', m.find? p = some n → m'.find? p = some n' → n.Agrees n'
  /-- They have the same children. -/
  children : ∀ p n n', m.find? p = some n → m'.find? p = some n' → n.children.Perm n'.children

/-- In stores that describe one tree each, nodes at the same paths have the same children. -/
theorem Consistent.alike {m m' : Memory} (h : m.Consistent) (h' : m'.Consistent)
    (hhas : ∀ p, m'.has p = m.has p)
    (hagrees : ∀ p n n', m.find? p = some n → m'.find? p = some n' → n.Agrees n') :
    m.Alike m' := by
  refine ⟨hhas, hagrees, fun p n n' hn hn' => ?_⟩
  refine (List.perm_ext_iff_of_nodup (h.children_nodup p n hn) (h'.children_nodup p n' hn')).mpr ?_
  intro name
  rw [h.mem_children_iff hn, h'.mem_children_iff hn', hhas]

/-- A store is like itself. -/
theorem Alike.refl (m : Memory) : m.Alike m := by
  refine ⟨fun p => rfl, fun p n n' hn hn' => ?_, fun p n n' hn hn' => ?_⟩ <;> rw [hn] at hn' <;>
    obtain rfl := Option.some.inj hn'
  · exact .refl n
  · exact .refl _

/-- What is to be compared when one of the stores is the one below a node. -/
theorem Consistent.alike_rerooted {m' : Memory} (h : m.Consistent) (h' : m'.Consistent)
    (ht : Path.IsValid top)
    (hhas : ∀ p, Path.IsValid p → (m'.has p = true ↔ m.has (Path.join [top, p]) = true))
    (hagrees : ∀ p n n', Path.IsValid p → m.find? (Path.join [top, p]) = some n →
      m'.find? p = some n' → n.Agrees n') : (m.rerooted top).Alike m' := by
  refine (h.rerooted top).alike h' (fun p => ?_) fun p n n' hn hn' => ?_
  · rw [Bool.eq_iff_iff]
    constructor
    · intro hp
      have hv := h'.valid p hp
      rwa [has_rerooted ht hv, ← hhas p hv]
    · intro hp
      have hv := (isValid_of_has_rerooted hp).2
      rwa [hhas p hv, ← has_rerooted ht hv]
  · have hv := h'.valid p (has_of_find? hn')
    rw [find?_rerooted ht hv] at hn
    exact hagrees p n n' hv hn hn'

/-- Everything that does not lie below a node is as it was. -/
def Spares (top : String) (m m' : Memory) : Prop :=
  ∀ q, ¬ Path.IsAbove top q → m'.find? q = m.find? q

theorem Spares.refl (top : String) (m : Memory) : m.Spares top m := fun _ _ => rfl

/-- What is spared twice is spared. -/
theorem Spares.trans {m₁ m₂ m₃ : Memory} (h : Spares top m₁ m₂) (h' : Spares top m₂ m₃) :
    Spares top m₁ m₃ := fun q hq => (h' q hq).trans (h q hq)

/-- What is added or removed strictly below a node has its parent there, too. -/
private theorem ne_of_not_isAbove {q : String} (habove : Path.IsAbove top p) (hp : Path.IsValid p)
    (hne : p ≠ top) (hq : ¬ Path.IsAbove top q) : q ≠ p ∧ q ≠ Path.parent p := by
  constructor
  · rintro rfl
    exact hq habove
  · rintro rfl
    exact hq (habove.parent hp hne)

/-- A node that is attached below the top spares all others. -/
theorem spares_attach (habove : Path.IsAbove top p) (hp : Path.IsValid p) (hne : p ≠ top)
    (hroot : p ≠ Path.root) (hfree : m.has p = false) (node : Node) :
    Spares top m (m.attach (Path.parent p) p node) := by
  intro q hq
  obtain ⟨hqp, hparent⟩ := ne_of_not_isAbove habove hp hne hq
  rw [find?_attach hfree (Path.parent_ne_self hp hroot), if_neg hqp, if_neg hparent]

/-- A node that is unlinked below the top spares all others. -/
theorem spares_unlink (habove : Path.IsAbove top p) (hp : Path.IsValid p) (hne : p ≠ top) :
    Spares top m (m.unlink p).1 := by
  intro q hq
  obtain ⟨hqp, hparent⟩ := ne_of_not_isAbove habove hp hne hq
  rw [find?_unlink, if_neg hqp, if_neg hparent]

end Memory

end TreeStore
