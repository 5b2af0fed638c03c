import TreeStore.Proofs.Store.Consistency

/-!
# Runs of a store

What clients may ask of a store in memory, one request after the other, and the states that such
runs lead to. Whoever asks and whatever fails on the way, every state is consistent: the listed
children and the paths in the table describe the same tree.
-/

namespace TreeStore.Memory

/-- A request to a store in memory by any of its clients. -/
inductive Request where
  /-- One of the primitives that every store has. -/
  | call (call : Call)
  /-- Replace the payload of a node. -/
  | setData (path : String) (data : List UInt8) (version : Int)
  /-- Remove spent containers. -/
  | reap
  /-- Lose the session. -/
  | close
  deriving DecidableEq, Repr

/-- Carry out a request. -/
def handle (m : Memory) : Request → Memory × Answer
  | .call call => m.serve id call
  | .setData path data version =>
    let (after, result) := m.setData path data version
    (after, .of (fun n : Nat => .int n) result)
  | .reap =>
    let (after, result) := m.reap
    (after, .of (fun removed => .list (removed.map .str)) result)
  | .close => (m.close, .ok .null)

/-- The store after a request. -/
def after (m : Memory) (request : Request) : Memory := (m.handle request).1

/-- The store after requests carried out one after the other. -/
def run (m : Memory) (requests : List Request) : Memory := requests.foldl after m

/-- The states that requests lead to from a new store. -/
def Reachable (m : Memory) : Prop :=
  ∃ containers requests, m = ({ containers } : Memory).run requests

variable {m : Memory} {p : String}

/-- The order of the children in a listing does not matter for the store. -/
theorem serve_fst (arrange : List String → List String) (call : Call) :
    (m.serve arrange call).1 = m.after (.call call) := by
  cases call <;> rfl

theorem after_create (path : String) (data : List UInt8) (acl : List Acl) (mode : CreateMode) :
    m.after (.call (.create path data acl mode)) = (m.create path data acl mode).1 := rfl

theorem after_delete (path : String) (version : Int) :
    m.after (.call (.delete path version)) = (m.delete path version).1 := rfl

theorem after_setData (path : String) (data : List UInt8) (version : Int) :
    m.after (.setData path data version) = (m.setData path data version).1 := rfl

/-- A sweep goes over all nodes, the deepest first, as long as the session is there. -/
theorem after_reap : m.after .reap = if m.closed then m else (m.sweep m.deepestFirst).1 := by
  simp only [after, handle, reap]
  split <;> rfl

/-- A request leaves the kind of the store alone, and its session unless that is to be closed. -/
private theorem session_after (request : Request) :
    (m.after request).containers = m.containers ∧
      (request ≠ .close → (m.after request).closed = m.closed) := by
  cases request with
  | call call =>
    cases call with
    | probe path => exact ⟨rfl, fun _ => rfl⟩
    | children path => exact ⟨rfl, fun _ => rfl⟩
    | capability => exact ⟨rfl, fun _ => rfl⟩
    | create path data acl mode =>
      rw [after_create]
      obtain ⟨problem, -, he⟩ | ⟨parent, -, ⟨-, he⟩ | ⟨-, he⟩⟩ := create_cases m path data acl mode
        <;> simp [he]
    | delete path version =>
      rw [after_delete]
      obtain ⟨problem, -, he⟩ | ⟨node, -, -, -, -, -, he⟩ := delete_cases m path version <;>
        simp [he]
  | setData path data version =>
    rw [after_setData]
    obtain ⟨problem, -, he⟩ | ⟨node, -, -, -, he⟩ := setData_cases m path data version <;>
      simp [he]
  | reap =>
    rw [after_reap]
    split <;> simp
  | close => exact ⟨rfl, fun h => absurd rfl h⟩

/-- A store stays of the same kind. -/
theorem containers_after (request : Request) : (m.after request).containers = m.containers :=
  (session_after request).1

/-- Nothing but closing a store closes it. -/
theorem closed_after {request : Request} (h : request ≠ .close) :
    (m.after request).closed = m.closed :=
  (session_after request).2 h

/-- The path that is found for an accepted creation is valid, and it lies below the requested
parent. -/
theorem Accepts.chosenPath {path : String} {mode : CreateMode} {parent : Node}
    (h : m.Accepts path mode parent) (hfree : m.has (chosenPath path mode parent) = false) :
    Path.IsValid (chosenPath path mode parent) ∧ chosenPath path mode parent ≠ Path.root ∧
      Path.parent (chosenPath path mode parent) = Path.parent path := by
  have hfault := h.fault
  have hparent := h.parent
  rw [Memory.chosenPath] at hfree ⊢
  cases hm : mode.isSequential with
  | false =>
    rw [hm] at hfault
    simp only [hm, Bool.false_eq_true, ite_false] at hfree ⊢
    refine ⟨⟨hfault⟩, ?_, trivial⟩
    rintro rfl
    rw [Path.parent_root] at hparent
    rw [has_of_find? hparent] at hfree
    cases hfree
  | true =>
    rw [hm] at hfault
    simp only [ite_true]
    exact ⟨isValid_numbered hfault _, numbered_ne_root hfault _, parent_numbered hfault _⟩

/-- The payload that a request writes to a node, given the answer that it gets. -/
def Request.written? (request : Request) (answer : Answer) (q : String) : Option (List UInt8) :=
  match request, answer with
  | .setData path data _, .ok _ => if path = q then some data else none
  | _, _ => none

/-- Every node after a request was there before and reads as it did, or its payload was written, or
it is the one that a creation has just added. -/
theorem find?_after_cases {request : Request} {q : String} {n' : Node}
    (h : (m.after request).find? q = some n') :
    (∃ n, m.find? q = some n ∧ n.Agrees n' ∧ request.written? (m.handle request).2 q = none) ∨
      (∃ data version n, request = .setData q data version ∧ m.find? q = some n ∧
        versionMatches version n = true ∧ (m.handle request).2 = .ok (.int (n.version + 1)) ∧
        n' = n.written data) ∨
      ∃ path data acl mode, request = .call (.create path data acl mode) ∧ m.has q = false ∧
        q ≠ Path.root ∧ (m.handle request).2 = .ok (.str q) ∧ n' = { data, acl, mode } := by
  have hold : (∃ n, m.find? q = some n ∧ n.Agrees n') →
      request.written? (m.handle request).2 q = none →
      ∃ n, m.find? q = some n ∧ n.Agrees n' ∧ request.written? (m.handle request).2 q = none :=
    fun ⟨n, hn, ha⟩ hnone => ⟨n, hn, ha, hnone⟩
  have hsame : m.find? q = some n' → ∃ n, m.find? q = some n ∧ n.Agrees n' :=
    fun hn => ⟨n', hn, .refl n'⟩
  cases request with
  | call call =>
    cases call with
    | probe path => exact .inl (hold (hsame h) rfl)
    | children path => exact .inl (hold (hsame h) rfl)
    | capability => exact .inl (hold (hsame h) rfl)
    | create path data acl mode =>
      rw [after_create] at h
      obtain ⟨problem, -, he⟩ | ⟨parent, ha, ⟨-, he⟩ | ⟨hfree, he⟩⟩ :=
        create_cases m path data acl mode
      · rw [he] at h
        exact .inl (hold (hsame h) rfl)
      · rw [he] at h
        exact .inl (hold (agrees_of_counting h) rfl)
      · obtain ⟨hvalid, hroot, hparent⟩ := ha.chosenPath hfree
        have hne := Path.parent_ne_self hvalid hroot
        rw [he] at h
        rw [hparent] at hne
        obtain ⟨rfl, rfl⟩ | ⟨n, hn, hagrees⟩ :=
          agrees_of_attach (by rw [has_counting, hfree]) hne h
        · refine .inr (.inr ⟨path, data, acl, mode, rfl, hfree, hroot, ?_, rfl⟩)
          change Answer.of .str (m.create path data acl mode).2 = _
          rw [he]
          rfl
        · obtain ⟨n₀, hn₀, ha₀⟩ := agrees_of_counting hn
          exact .inl (hold ⟨n₀, hn₀, ha₀.trans hagrees⟩ rfl)
    | delete path version =>
      rw [after_delete] at h
      obtain ⟨problem, -, he⟩ | ⟨node, -, -, -, -, -, he⟩ := delete_cases m path version
      · rw [he] at h
        exact .inl (hold (hsame h) rfl)
      · rw [he] at h
        exact .inl (hold (agrees_unlink h) rfl)
  | setData path data version =>
    have hanswer : (m.handle (.setData path data version)).2 =
        .of (fun n : Nat => .int n) (m.setData path data version).2 := rfl
    rw [after_setData] at h
    rw [hanswer] at hold ⊢
    obtain ⟨problem, -, he⟩ | ⟨node, -, hn, hversion, he⟩ := setData_cases m path data version
    · rw [he] at h hold ⊢
      exact .inl (hold (hsame h) rfl)
    · rw [he, find?_modify] at h
      rw [he] at hold ⊢
      by_cases hq : q = path
      · subst hq
        rw [if_pos rfl, hn] at h
        obtain rfl := Option.some.inj h
        exact .inr (.inl ⟨data, version, node, rfl, hn, hversion, rfl, rfl⟩)
      · rw [if_neg hq] at h
        exact .inl (hold (hsame h) (if_neg (Ne.symm hq)))
  | reap =>
    rw [after_reap] at h
    split at h
    · exact .inl (hold (hsame h) rfl)
    · exact .inl (hold (agrees_sweep h) rfl)
  | close => exact .inl (hold (hsame h) rfl)

/-- Every node after a request was there before, in the same mode and with the same access control
list, or it is the one that a creation has just added. -/
theorem find?_of_after {request : Request} {q : String} {n' : Node}
    (h : (m.after request).find? q = some n') :
    (∃ n, m.find? q = some n ∧ n'.mode = n.mode ∧ n'.acl = n.acl) ∨
      ∃ path data acl mode, request = .call (.create path data acl mode) ∧ m.has q = false ∧
        q ≠ Path.root ∧ (m.handle request).2 = .ok (.str q) ∧ n' = { data, acl, mode } := by
  obtain ⟨n, hn, ha, -⟩ | ⟨data, version, n, -, hn, -, -, rfl⟩ | hcreated := find?_after_cases h
  · exact .inl ⟨n, hn, ha.mode, ha.acl⟩
  · exact .inl ⟨n, hn, rfl, rfl⟩
  · exact .inr hcreated

/-- Only a creation adds to a store, and only the node whose path it answers. -/
theorem has_of_after {request : Request} {q : String} (h : (m.after request).has q = true) :
    m.has q = true ∨
      (∃ path data acl mode, request = .call (.create path data acl mode)) ∧
        (m.handle request).2 = .ok (.str q) := by
  obtain ⟨n', hn'⟩ := has_iff.mp h
  obtain ⟨n, hn, -⟩ | ⟨path, data, acl, mode, hr, -, -, hanswer, -⟩ := find?_of_after hn'
  · exact .inl (has_of_find? hn)
  · exact .inr ⟨⟨path, data, acl, mode, hr⟩, hanswer⟩

/-- A counter that moves on leaves the table consistent. -/
theorem Consistent.counting (h : m.Consistent) (path : String) (mode : CreateMode) :
    (m.counting path mode).Consistent := by
  rw [Memory.counting]
  split
  · exact h.modify _ (fun _ => rfl) fun _ => rfl
  · exact h

/-- A creation leaves the table consistent, whether it succeeds or not. -/
theorem Consistent.create (h : m.Consistent) (path : String) (data : List UInt8) (acl : List Acl)
    (mode : CreateMode) : (m.create path data acl mode).1.Consistent := by
  obtain ⟨problem, -, he⟩ | ⟨parent, ha, ⟨-, he⟩ | ⟨hfree, he⟩⟩ := create_cases m path data acl mode
  · rw [he]
    exact h
  · rw [he]
    exact h.counting path mode
  · obtain ⟨hvalid, hroot, hparent⟩ := ha.chosenPath hfree
    rw [he, ← hparent]
    refine (h.counting path mode).attach hvalid hroot ?_ ?_ rfl
    · rw [has_counting, hfree]
    · rw [has_counting, hparent, has_of_find? ha.parent]

/-- A deletion leaves the table consistent. -/
theorem Consistent.delete (h : m.Consistent) (path : String) (version : Int) :
    (m.delete path version).1.Consistent := by
  obtain ⟨problem, -, he⟩ | ⟨node, -, -, hn, hc, -, he⟩ := delete_cases m path version
  · rw [he]
    exact h
  · rw [he]
    exact h.unlink hn hc

/-- A payload that is set leaves the table consistent. -/
theorem Consistent.setData (h : m.Consistent) (path : String) (data : List UInt8) (version : Int) :
    (m.setData path data version).1.Consistent := by
  obtain ⟨problem, -, he⟩ | ⟨node, -, -, -, he⟩ := setData_cases m path data version
  · rw [he]
    exact h
  · rw [he]
    exact h.modify _ (fun _ => rfl) fun _ => rfl

/-- The loss of the session leaves the table consistent. -/
theorem Consistent.close (h : m.Consistent) : m.close.Consistent :=
  ⟨h.nodup, h.valid, h.parent, h.children_nodup, h.mem_children, h.hadChildren⟩

/-- A request keeps a store consistent, whether it succeeds or fails. -/
theorem Consistent.after (h : m.Consistent) (request : Request) : (m.after request).Consistent := by
  cases request with
  | call call =>
    cases call with
    | probe path => exact h
    | children path => exact h
    | create path data acl mode => exact h.create path data acl mode
    | delete path version => exact h.delete path version
    | capability => exact h
  | setData path data version => exact h.setData path data version
  | reap =>
    rw [after_reap]
    split
    · exact h
    · exact h.sweep _
  | close => exact h.close

/-- Any requests leave the table consistent. -/
theorem Consistent.run (h : m.Consistent) (requests : List Request) :
    (m.run requests).Consistent := by
  induction requests generalizing m with
  | nil => exact h
  | cons request rest ih => exact ih (h.after request)

/-- Every store that some requests lead to is consistent. -/
theorem Reachable.consistent (h : m.Reachable) : m.Consistent := by
  obtain ⟨containers, requests, rfl⟩ := h
  exact (consistent_fresh containers).run requests

/-- One more request leads to another such store. -/
theorem Reachable.after (h : m.Reachable) (request : Request) : (m.after request).Reachable := by
  obtain ⟨containers, requests, rfl⟩ := h
  exact ⟨containers, requests ++ [request], by simp [run]⟩

/-- The listed paths are those of the nodes below the root. -/
theorem mem_paths : p ∈ m.paths ↔ m.has p = true ∧ p ≠ Path.root := by
  rw [paths, Sorting.sortTexts, (Sorting.sortBy_perm _ _).mem_iff, List.mem_filter, ← keys,
    mem_keys, decide_eq_true_iff]

/-- Along every run from a new store the paths of the nodes and the names of the children describe
one tree, the listed paths are those of the nodes below the root, each once, and while the session
lasts the answer to a listing is the children of the node. -/
theorem consistent_run (containers : Bool) (requests : List Request) :
    let m := ({ containers } : Memory).run requests
    m.Consistent ∧ m.paths.Nodup ∧ (∀ p, p ∈ m.paths ↔ m.has p = true ∧ p ≠ Path.root) ∧
      (m.closed = false → ∀ p n, m.find? p = some n → m.children p = .ok n.children) := by
  intro m
  have h : m.Consistent := (consistent_fresh containers).run requests
  refine ⟨h, ?_, fun p => mem_paths, ?_⟩
  · rw [paths, Sorting.sortTexts, (Sorting.sortBy_perm _ _).nodup_iff]
    exact h.nodup.filter _
  · intro ho p n hn
    rw [children_of_open (h.valid p (has_of_find? hn)) ho, hn]

end TreeStore.Memory
