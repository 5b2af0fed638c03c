import TreeStore.Proofs.Path.Counter

/-!
# The table of nodes

Every request to a store comes down to four changes of its table: a node is changed in place, added,
added together with its name among the children of its parent, or removed. Their effects are read
off path by path, and for each request the lemmas say once which of the changes it makes and under
what conditions.
-/

namespace TreeStore

/-- What a client reads off a node is the same for both. -/
structure Node.Agrees (n n' : Node) : Prop where
  /-- The payload. -/
  data : n'.data = n.data
  /-- The access control list. -/
  acl : n'.acl = n.acl
  /-- The mode. -/
  mode : n'.mode = n.mode
  /-- The version. -/
  version : n'.version = n.version

/-- A node agrees with itself. -/
theorem Node.Agrees.refl (n : Node) : n.Agrees n := ⟨rfl, rfl, rfl, rfl⟩

/-- Agreement goes both ways. -/
theorem Node.Agrees.symm {a b : Node} (h : a.Agrees b) : b.Agrees a :=
  ⟨h.data.symm, h.acl.symm, h.mode.symm, h.version.symm⟩

/-- Agreement can be chained. -/
theorem Node.Agrees.trans {a b c : Node} (h : a.Agrees b) (h' : b.Agrees c) : a.Agrees c :=
  ⟨h'.data.trans h.data, h'.acl.trans h.acl, h'.mode.trans h.mode, h'.version.trans h.version⟩

/-- Moving the counter on changes neither payload, version, access nor mode. -/
theorem Node.agrees_counted (n : Node) : n.Agrees n.counted := ⟨rfl, rfl, rfl, rfl⟩

/-- Another child changes neither payload, version, access nor mode. -/
theorem Node.agrees_adopt (name : String) (n : Node) : n.Agrees (n.adopt name) :=
  ⟨rfl, rfl, rfl, rfl⟩

/-- The loss of a child changes neither payload, version, access nor mode. -/
theorem Node.agrees_disown (name : String) (n : Node) : n.Agrees (n.disown name) :=
  ⟨rfl, rfl, rfl, rfl⟩

namespace Memory

variable {m : Memory} {p q path above : String}

/-- The paths of all nodes, in order of creation. -/
def keys (m : Memory) : List String := m.nodes.map Prod.fst

/-- A store has the paths that it finds a node at. -/
theorem has_iff : m.has p = true ↔ ∃ n, m.find? p = some n := Option.isSome_iff_exists

/-- A path that a node is found at is there. -/
theorem has_of_find? {n : Node} (h : m.find? p = some n) : m.has p = true := has_iff.mpr ⟨n, h⟩

/-- Nothing is found exactly at the paths that are not there. -/
theorem find?_eq_none_iff : m.find? p = none ↔ m.has p = false := by
  simp [has]

/-- The keys of the table are the paths that are there. -/
theorem mem_keys : p ∈ m.keys ↔ m.has p = true := by
  simp only [keys, has, find?]
  induction m.nodes with
  | nil => simp
  | cons e rest ih =>
    obtain ⟨k, n⟩ := e
    by_cases h : p = k
    · simp [h]
    · have hb : (p == k) = false := by simpa using h
      simp [List.lookup_cons, hb, h, ih]

@[simp] theorem closed_modify (f : Node → Node) : (m.modify p f).closed = m.closed := rfl

@[simp] theorem containers_modify (f : Node → Node) :
    (m.modify p f).containers = m.containers := rfl

@[simp] theorem keys_modify (f : Node → Node) : (m.modify p f).keys = m.keys := by
  simp [keys, modify]

/-- A change in place is seen at its path and nowhere else. -/
theorem find?_modify (f : Node → Node) :
    (m.modify p f).find? q = if q = p then (m.find? q).map f else m.find? q := by
  simp only [find?, modify]
  induction m.nodes with
  | nil => simp
  | cons e rest ih =>
    obtain ⟨k, n⟩ := e
    by_cases h : q = k
    · subst h
      by_cases hp : q = p <;> simp [hp]
    · have hb : (q == k) = false := by simpa using h
      simp [List.lookup_cons, hb, ih]

/-- A change in place makes no path appear or vanish. -/
@[simp] theorem has_modify (f : Node → Node) : (m.modify p f).has q = m.has q := by
  simp only [has, find?_modify]
  split <;> simp

/-- A change that clients cannot read off the nodes leaves each of them in agreement. -/
theorem agrees_of_modify {f : Node → Node} (hf : ∀ n : Node, n.Agrees (f n)) {n' : Node}
    (hq : (m.modify p f).find? q = some n') : ∃ n, m.find? q = some n ∧ n.Agrees n' := by
  rw [find?_modify] at hq
  split at hq
  · obtain ⟨n, hn, rfl⟩ := Option.map_eq_some_iff.mp hq
    exact ⟨n, hn, hf n⟩
  · exact ⟨n', hq, .refl n'⟩

/-- A new node comes last. -/
@[simp] theorem keys_insert (n : Node) : (m.insert p n).keys = m.keys ++ [p] := by
  simp [keys, insert]

/-- A node that is not there yet is found where it was added; nothing else is lost or found. -/
theorem find?_insert (h : m.has p = false) (n : Node) :
    (m.insert p n).find? q = if q = p then some n else m.find? q := by
  rw [← find?_eq_none_iff] at h
  simp only [find?, insert, List.lookup_append] at h ⊢
  by_cases hq : q = p
  · subst hq
    simp [h]
  · have hb : (q == p) = false := by simpa using hq
    simp [List.lookup_cons, hb, hq]

/-- A new node adds its path to those that are there. -/
theorem has_insert (n : Node) : (m.insert p n).has q = (decide (q = p) || m.has q) := by
  simp only [has, find?, insert, List.lookup_append, List.lookup_cons, List.lookup_nil]
  by_cases hq : q = p
  · simp [hq]
  · have hb : (q == p) = false := by simpa using hq
    simp [hb, hq]

/-- A node that is taken out leaves the order of the others as it was. -/
theorem keys_erase : (m.erase p).keys = m.keys.filter (· ≠ p) := by
  simp only [keys, erase, List.filter_map]
  rfl

/-- Nothing is found at its path, and the same as before anywhere else. -/
theorem find?_erase : (m.erase p).find? q = if q = p then none else m.find? q := by
  simp only [find?, erase]
  induction m.nodes with
  | nil => simp
  | cons e rest ih =>
    obtain ⟨k, n⟩ := e
    by_cases hk : k = p
    · subst hk
      by_cases hq : q = k
      · simpa [hq] using ih
      · have hb : (q == k) = false := by simpa using hq
        simpa [List.lookup_cons, hb, hq] using ih
    · by_cases hq : q = k
      · subst hq
        simp [hk]
      · have hb : (q == k) = false := by simpa using hq
        simpa [List.lookup_cons, hb, hk] using ih

/-- All other paths are still there. -/
theorem has_erase : (m.erase p).has q = (decide (q ≠ p) && m.has q) := by
  simp only [has, find?_erase]
  by_cases h : q = p <;> simp [h]

@[simp] theorem closed_attach (n : Node) : (m.attach above p n).closed = m.closed := rfl

@[simp] theorem containers_attach (n : Node) :
    (m.attach above p n).containers = m.containers := rfl

/-- After a node was attached it is found at its path, and the node above it with another child. -/
theorem find?_attach (h : m.has p = false) (hne : above ≠ p) (n : Node) :
    (m.attach above p n).find? q =
      if q = p then some n
      else if q = above then (m.find? q).map (Node.adopt (Path.leaf p)) else m.find? q := by
  rw [attach, find?_modify, find?_insert h]
  by_cases hq : q = p
  · subst hq
    rw [if_pos rfl, if_pos rfl, if_neg (Ne.symm hne)]
  · rw [if_neg hq, if_neg hq]

/-- Adding a node leaves the others as they are, but for the children of its parent. -/
theorem find?_attach_of_find? (h : m.has p = false) (hne : above ≠ p) (node : Node) {n : Node}
    (hq : m.find? q = some n) : ∃ children hadChildren,
      (m.attach above p node).find? q = some { n with children, hadChildren } := by
  have hqp : q ≠ p := by
    rintro rfl
    rw [has_of_find? hq] at h
    cases h
  rw [find?_attach h hne, if_neg hqp, hq]
  split
  · exact ⟨_, _, rfl⟩
  · exact ⟨_, _, rfl⟩

/-- The nodes that were there before keep all but their children. -/
theorem agrees_attach (h : m.has p = false) (hne : above ≠ p) (node : Node) {n : Node}
    (hq : m.find? q = some n) : ∃ n', (m.attach above p node).find? q = some n' ∧ n.Agrees n' := by
  obtain ⟨children, hadChildren, hn⟩ := find?_attach_of_find? h hne node hq
  exact ⟨_, hn, rfl, rfl, rfl, rfl⟩

/-- After a node was added, each node is the new one or was there before, with other children at
most. -/
theorem agrees_of_attach (h : m.has p = false) (hne : above ≠ p) {node n' : Node}
    (hq : (m.attach above p node).find? q = some n') :
    q = p ∧ n' = node ∨ ∃ n, m.find? q = some n ∧ n.Agrees n' := by
  rw [find?_attach h hne] at hq
  split at hq
  · rename_i hqp
    exact .inl ⟨hqp, (Option.some.inj hq).symm⟩
  · split at hq
    · obtain ⟨n, hn, rfl⟩ := Option.map_eq_some_iff.mp hq
      exact .inr ⟨n, hn, Node.agrees_adopt _ n⟩
    · exact .inr ⟨n', hq, .refl n'⟩

/-- The path of a node that was attached is there, with all that were there. -/
theorem has_attach (n : Node) :
    (m.attach above p n).has q = (decide (q = p) || m.has q) := by
  rw [attach, has_modify, has_insert]

/-- An unlinked node is gone, its parent lost a name, and the other nodes are as before. -/
theorem find?_unlink : (m.unlink p).1.find? q =
    if q = p then none
    else if q = Path.parent p then (m.find? q).map (Node.disown (Path.leaf p)) else m.find? q := by
  rw [unlink]
  split
  · simp only [find?_modify, find?_erase]
    by_cases hq : q = p <;> simp [hq]
  · rename_i h
    simp only [find?_erase]
    split
    · rfl
    · rename_i hq
      split
      · rename_i habove
        subst habove
        rw [Bool.not_eq_true, has_erase, decide_eq_true hq, Bool.true_and, ← find?_eq_none_iff] at h
        rw [h]
        rfl
      · rfl

/-- Whatever is left after unlinking a node was there before, with other children at most. -/
theorem agrees_unlink {n' : Node} (hq : (m.unlink p).1.find? q = some n') :
    ∃ n, m.find? q = some n ∧ n.Agrees n' := by
  rw [find?_unlink] at hq
  split at hq
  · simp at hq
  · split at hq
    · obtain ⟨n, hn, rfl⟩ := Option.map_eq_some_iff.mp hq
      exact ⟨n, hn, Node.agrees_disown _ n⟩
    · exact ⟨n', hq, .refl n'⟩

/-- The path of a node that was unlinked is gone, and all others stay. -/
theorem has_unlink : (m.unlink p).1.has q = (decide (q ≠ p) && m.has q) := by
  simp only [has, find?_unlink]
  by_cases h : q = p
  · simp [h]
  · simp only [h, ite_false]
    split <;> simp [h]

@[simp] theorem closed_unlink : (m.unlink p).1.closed = m.closed := by
  rw [unlink]
  split <;> rfl

@[simp] theorem containers_unlink : (m.unlink p).1.containers = m.containers := by
  rw [unlink]
  split <;> rfl

/-- Unlinking keeps the order of the other nodes. -/
@[simp] theorem keys_unlink : (m.unlink p).1.keys = m.keys.filter (· ≠ p) := by
  rw [unlink]
  split <;> simp only [keys_modify, keys_erase]

/-- Whatever is left after a sweep was there before, with other children at most. -/
theorem agrees_sweep {paths : List String} {n' : Node}
    (hq : (m.sweep paths).1.find? q = some n') : ∃ n, m.find? q = some n ∧ n.Agrees n' := by
  induction paths generalizing m with
  | nil => exact ⟨n', hq, .refl n'⟩
  | cons path rest ih =>
    rw [sweep] at hq
    split at hq
    · split at hq
      · obtain ⟨n, hn, ha⟩ := ih hq
        obtain ⟨n₀, hn₀, ha₀⟩ := agrees_unlink hn
        exact ⟨n₀, hn₀, ha₀.trans ha⟩
      · exact ih hq
    · exact ih hq

/-- A sweep takes away none but containers. -/
theorem has_sweep_of_plain {paths : List String}
    (hplain : ∀ n, m.find? q = some n → n.mode.isContainer = false) :
    (m.sweep paths).1.has q = m.has q := by
  induction paths generalizing m with
  | nil => rfl
  | cons path rest ih =>
    rw [sweep]
    split
    · rename_i node hn
      split
      · rename_i hspent
        have hne : q ≠ path := by
          rintro rfl
          simp [Node.isSpent, hplain node hn] at hspent
        refine (ih fun n' hn' => ?_).trans ?_
        · obtain ⟨n, hold, ha⟩ := agrees_unlink hn'
          rw [ha.mode]
          exact hplain n hold
        · rw [has_unlink, decide_eq_true hne, Bool.true_and]
      · exact ih hplain
    · exact ih hplain

@[simp] theorem closed_sweep (paths : List String) : (m.sweep paths).1.closed = m.closed := by
  induction paths generalizing m with
  | nil => rfl
  | cons path rest ih =>
    rw [sweep]
    split
    · split
      · exact ih.trans closed_unlink
      · exact ih
    · exact ih

@[simp] theorem containers_sweep (paths : List String) :
    (m.sweep paths).1.containers = m.containers := by
  induction paths generalizing m with
  | nil => rfl
  | cons path rest ih =>
    rw [sweep]
    split
    · split
      · exact ih.trans containers_unlink
      · exact ih
    · exact ih

/-- The kinds of problems that a store in memory refuses requests for. -/
def refusals : List String :=
  ["InvalidPath", "ValueError", "StoreUnavailable", "NoNode", "NodeExists", "BadVersion",
    "NotEmpty"]

/-- A problem that a request is refused for before anything is changed. -/
structure Refuses (problem : Problem) : Prop where
  /-- It is of one of the kinds. -/
  kind : problem.kind ∈ refusals
  /-- It is not that a path is taken, which is found out later. -/
  free : problem.isNodeExists = false

/-- The check of a path refuses with a problem that a store reports. -/
theorem refuses_of_validate {isOpen : Bool} {problem : Problem}
    (h : Path.validate path isOpen = .error problem) : Refuses problem := by
  obtain ⟨f, -, rfl⟩ := Path.validate_eq_error_iff.mp h
  exact ⟨by simp [refusals, Problem.kind], rfl⟩

theorem refuses_gone (path : String) : Refuses (gone path) :=
  ⟨by simp [refusals, gone, Problem.kind], rfl⟩

theorem refuses_noContainers (path : String) : Refuses (.argument (.noContainers path)) :=
  ⟨by simp [refusals, Problem.kind], rfl⟩

theorem refuses_noNode (path : String) : Refuses (.ofStore .noNode path) :=
  ⟨by simp [refusals, Problem.ofStore, Problem.kind], rfl⟩

theorem refuses_badVersion (path : String) : Refuses (.ofStore .badVersion path) :=
  ⟨by simp [refusals, Problem.ofStore, Problem.kind], rfl⟩

theorem refuses_notEmpty (path : String) : Refuses (.ofStore .notEmpty path) :=
  ⟨by simp [refusals, Problem.ofStore, Problem.kind], rfl⟩

/-- An open store tells whether a path is there. -/
theorem probe_of_open (ho : m.closed = false) (p : String) : m.probe p = .ok (m.has p) := by
  simp [probe, ho]

/-- A probe is answered and leaves an open store as it is. -/
theorem serve_probe (ho : m.closed = false) (arrange : List String → List String) (p : String) :
    m.serve arrange (.probe p) = (m, .ok (.bool (m.has p))) := by
  rw [serve, probe_of_open ho]
  rfl

/-- What a creation requires before the table is looked at for its own path. -/
structure Accepts (m : Memory) (path : String) (mode : CreateMode) (parent : Node) : Prop where
  /-- The path has no fault. -/
  fault : Path.fault path mode.isSequential = none
  /-- The store can create such a node. -/
  container : mode.isContainer = true → m.containers = true
  /-- The session is there. -/
  opened : m.closed = false
  /-- There is a parent. -/
  parent : m.find? (Path.parent path) = some parent

/-- The store in which an accepted creation looks for a place: the parent of a sequential node has
given out its counter. -/
def counting (m : Memory) (path : String) (mode : CreateMode) : Memory :=
  if mode.isSequential then m.modify (Path.parent path) Node.counted else m

/-- Moving a counter on adds no path and removes none. -/
@[simp] theorem has_counting (mode : CreateMode) : (m.counting path mode).has q = m.has q := by
  rw [counting]
  split
  · exact has_modify _
  · rfl

@[simp] theorem closed_counting (mode : CreateMode) : (m.counting path mode).closed = m.closed := by
  rw [counting]
  split
  · exact closed_modify _
  · rfl

@[simp] theorem containers_counting (mode : CreateMode) :
    (m.counting path mode).containers = m.containers := by
  rw [counting]
  split
  · exact containers_modify _
  · rfl

/-- Moving a counter on keeps all of a node but the counter. -/
theorem agrees_of_counting {mode : CreateMode} {n' : Node}
    (hq : (m.counting path mode).find? q = some n') : ∃ n, m.find? q = some n ∧ n.Agrees n' := by
  rw [counting] at hq
  split at hq
  · exact agrees_of_modify Node.agrees_counted hq
  · exact ⟨n', hq, .refl n'⟩

/-- The path that an accepted creation looks for. -/
def chosenPath (path : String) (mode : CreateMode) (parent : Node) : String :=
  if mode.isSequential then numbered path parent.sequence else path

/-- An accepted creation puts the node into its place. -/
theorem create_of_accepts {mode : CreateMode} {parent : Node} (h : m.Accepts path mode parent)
    (data : List UInt8) (acl : List Acl) :
    m.create path data acl mode = (m.counting path mode).place (Path.parent path)
      (chosenPath path mode parent) { data, acl, mode } := by
  have hc : (mode.isContainer && !m.containers) = false := by
    cases hm : mode.isContainer with
    | false => rfl
    | true => simp [h.container hm]
  simp only [create, Path.validate_eq_ok_iff.mpr ⟨h.fault, rfl⟩, hc, h.opened, h.parent, counting,
    chosenPath, Bool.false_eq_true, ite_false]
  split <;> rfl

/-- A creation that is not accepted is refused and changes nothing. -/
theorem create_of_not_accepts {mode : CreateMode} (h : ∀ parent, ¬ m.Accepts path mode parent)
    (data : List UInt8) (acl : List Acl) :
    ∃ problem, Refuses problem ∧ m.create path data acl mode = (m, .error problem) := by
  rw [create]
  split
  · rename_i hv
    exact ⟨_, refuses_of_validate hv, rfl⟩
  rename_i hv
  split
  · exact ⟨_, refuses_noContainers path, rfl⟩
  rename_i hc
  split
  · exact ⟨_, refuses_gone path, rfl⟩
  rename_i ho
  dsimp only
  split
  · exact ⟨_, refuses_noNode _, rfl⟩
  rename_i parent hp
  exact absurd
    ⟨(Path.validate_eq_ok_iff.mp hv).1, by simpa using hc, by simpa using ho, hp⟩ (h parent)

/-- A creation is refused without a change, fails after the counter moved on, or adds the node. -/
theorem create_cases (m : Memory) (path : String) (data : List UInt8) (acl : List Acl)
    (mode : CreateMode) :
    (∃ problem, Refuses problem ∧ m.create path data acl mode = (m, .error problem)) ∨
    ∃ parent, m.Accepts path mode parent ∧
      (m.has (chosenPath path mode parent) = true ∧ m.create path data acl mode =
          (m.counting path mode, .error (.ofStore .nodeExists (chosenPath path mode parent))) ∨
        m.has (chosenPath path mode parent) = false ∧ m.create path data acl mode =
          ((m.counting path mode).attach (Path.parent path) (chosenPath path mode parent)
            { data, acl, mode }, .ok (chosenPath path mode parent))) := by
  by_cases h : ∃ parent, m.Accepts path mode parent
  · obtain ⟨parent, h⟩ := h
    refine .inr ⟨parent, h, ?_⟩
    rw [create_of_accepts h, place, has_counting]
    cases m.has (chosenPath path mode parent) with
    | false => exact .inr ⟨rfl, rfl⟩
    | true => exact .inl ⟨rfl, rfl⟩
  · exact .inl (create_of_not_accepts (fun parent hp => h ⟨parent, hp⟩) data acl)

/-- A creation in a plain mode below an existing node: the path is taken, or the node is added. -/
theorem create_plain {mode : CreateMode} (hmode : mode.isSequential = false)
    (hcontainer : mode.isContainer = true → m.containers = true) (hp : Path.IsValid p)
    (ho : m.closed = false) (hparent : m.has (Path.parent p) = true) (data : List UInt8)
    (acl : List Acl) :
    m.create p data acl mode =
      if m.has p then (m, .error (.ofStore .nodeExists p))
      else (m.attach (Path.parent p) p { data, acl, mode }, .ok p) := by
  obtain ⟨parent, hparent⟩ := has_iff.mp hparent
  have ha : m.Accepts p mode parent := ⟨by rw [hmode]; exact hp.fault, hcontainer, ho, hparent⟩
  rw [create_of_accepts ha, counting, chosenPath, hmode]
  rfl

/-- A creation in a plain mode below a missing node. -/
theorem create_orphan {mode : CreateMode} (hmode : mode.isSequential = false)
    (hcontainer : mode.isContainer = true → m.containers = true) (hp : Path.IsValid p)
    (ho : m.closed = false) (hparent : m.has (Path.parent p) = false) (data : List UInt8)
    (acl : List Acl) :
    m.create p data acl mode = (m, .error (.ofStore .noNode (Path.parent p))) := by
  have hc : (mode.isContainer && !m.containers) = false := by
    cases hm : mode.isContainer with
    | false => rfl
    | true => simp [hcontainer hm]
  simp [create, hmode, hp.validate, hc, ho, find?_eq_none_iff.mpr hparent]

/-- A deletion is refused without a change, or unlinks a node that has no children. -/
theorem delete_cases (m : Memory) (path : String) (version : Int) :
    (∃ problem, Refuses problem ∧ m.delete path version = (m, .error problem)) ∨
    ∃ node, Path.IsValid path ∧ m.closed = false ∧ m.find? path = some node ∧ node.children = [] ∧
      versionMatches version node = true ∧ m.delete path version = m.unlink path := by
  rw [delete]
  split
  · rename_i hv
    exact .inl ⟨_, refuses_of_validate hv, rfl⟩
  rename_i hv
  split
  · exact .inl ⟨_, refuses_gone path, rfl⟩
  rename_i ho
  split
  · exact .inl ⟨_, refuses_noNode path, rfl⟩
  rename_i node hn
  split
  · exact .inl ⟨_, refuses_badVersion path, rfl⟩
  rename_i hversion
  split
  · exact .inl ⟨_, refuses_notEmpty path, rfl⟩
  rename_i hc
  exact .inr ⟨node, ⟨(Path.validate_eq_ok_iff.mp hv).1⟩, by simpa using ho, hn, by simpa using hc,
    by simpa using hversion, rfl⟩

/-- A deletion that asks for no version: the node is missing, has children or is unlinked. -/
theorem delete_any (hp : Path.IsValid p) (ho : m.closed = false) :
    m.delete p anyVersion = match m.find? p with
      | none => (m, .error (.ofStore .noNode p))
      | some node =>
        if node.children ≠ [] then (m, .error (.ofStore .notEmpty p)) else m.unlink p := by
  cases hn : m.find? p with
  | none => simp [delete, hp.validate, ho, hn]
  | some node => simp [delete, hp.validate, ho, hn, versionMatches]

/-- A listing of a valid path in an open store. -/
theorem children_of_open (hp : Path.IsValid p) (ho : m.closed = false) :
    m.children p = match m.find? p with
      | none => .error (.ofStore .noNode p)
      | some node => .ok node.children := by
  simp only [children, hp.validate, ho, Bool.false_eq_true, ite_false]
  cases m.find? p <;> rfl

/-- A new payload is refused without a change, or it is written. -/
theorem setData_cases (m : Memory) (path : String) (data : List UInt8) (version : Int) :
    (∃ problem, Refuses problem ∧ m.setData path data version = (m, .error problem)) ∨
    ∃ node, m.closed = false ∧ m.find? path = some node ∧ versionMatches version node = true ∧
      m.setData path data version =
        (m.modify path (Node.written data), .ok (node.version + 1)) := by
  rw [setData, lookup]
  by_cases ho : m.closed = true
  · rw [if_pos ho]
    exact .inl ⟨_, refuses_gone path, rfl⟩
  rw [if_neg ho]
  cases hn : m.find? path with
  | none => exact .inl ⟨_, refuses_noNode path, rfl⟩
  | some node =>
    dsimp only
    split
    · exact .inl ⟨_, refuses_badVersion path, rfl⟩
    · rename_i hversion
      exact .inr ⟨node, by simpa using ho, rfl, by simpa using hversion, rfl⟩

end Memory

end TreeStore
