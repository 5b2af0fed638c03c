import TreeStore.Proofs.Concurrency.Alone

/-!
# The effect of an undisturbed creation

A recursive creation that nobody disturbs adds the missing nodes along its path to the table, one
below the other, and leaves the others as they are but for the names of new children. It creates
each missing node with one request and no other node. So there is nothing left to do for the same
call made again.
-/

namespace TreeStore

/-- The list that a policy gives a node: the one for its path, else the one for all paths, else
anyone may do anything. A list that is given may be empty. -/
inductive AclPolicy.Gives (path : String) : Option AclPolicy → List Acl → Prop
  | own {policy : AclPolicy} {acl : List Acl} (given : policy.forPath path = some acl) :
      Gives path (some policy) acl
  | fallback {policy : AclPolicy} {acl : List Acl} (deferred : policy.forPath path = none)
      (given : policy.fallback = some acl) : Gives path (some policy) acl
  | deferred {policy : AclPolicy} (own : policy.forPath path = none)
      (fallback : policy.fallback = none) : Gives path (some policy) Acl.openToAll
  | unguided : Gives path none Acl.openToAll

/-- A policy gives what it resolves to. -/
theorem AclPolicy.gives_resolve (policy : Option AclPolicy) (path : String) :
    Gives path policy (resolve policy path) := by
  cases policy with
  | none => exact .unguided
  | some policy =>
    rw [resolve]
    cases hown : policy.forPath path with
    | some acl => exact .own hown
    | none =>
      cases hfallback : policy.fallback with
      | some acl => exact .fallback hown hfallback
      | none => exact .deferred hown hfallback

namespace Concurrency

/-- Whether a request was to create a node. -/
def Event.isCreation (event : Event) : Bool :=
  match event.request with
  | .call (.create ..) => true
  | _ => false

namespace Creation

variable {c : Creation} {m : Memory} {q : String} {existing missing added rest : List String}

/-- The nodes that the call makes sure of and that are missing, from the top. -/
def lacking (c : Creation) (m : Memory) : List String := c.wanted.filter fun q => !m.has q

/-- The nodes that are lacking are those that the call makes sure of and that are not there. -/
theorem mem_lacking_iff (hc : Path.IsValid c.path) :
    q ∈ c.lacking m ↔ m.has q = false ∧ c.Ensures q := by
  rw [lacking, List.mem_filter, mem_wanted_iff hc, Bool.not_eq_true', and_comm]

/-- If all of them are there, none is lacking. -/
theorem lacking_eq_nil (hc : Path.IsValid c.path) (h : ∀ q, c.Ensures q → m.has q = true) :
    c.lacking m = [] := by
  rw [List.eq_nil_iff_forall_not_mem]
  intro q hq
  obtain ⟨hfree, hensures⟩ := (mem_lacking_iff hc).mp hq
  rw [h q hensures] at hfree
  cases hfree

/-- None is lacking twice. -/
theorem nodup_lacking (hc : Path.IsValid c.path) : (c.lacking m).Nodup := by
  refine List.Nodup.filter _ ?_
  rw [wanted]
  split
  · exact List.nodup_nil
  · split
    · exact Path.nodup_prefixes hc
    · exact (Path.nodup_prefixes hc).sublist (List.dropLast_sublist _)

/-- If the first nodes along the path exist and the others are missing, those are to be added. -/
theorem lacking_of_prefixes (hp : Path.prefixes c.path = existing ++ missing)
    (hexisting : ∀ q ∈ existing, m.has q = true) (hmissing : ∀ q ∈ missing, m.has q = false)
    (hroot : c.path = Path.root → missing = []) :
    c.lacking m = c.wantedOf missing := by
  obtain ⟨before, hwanted, hbefore⟩ := exists_wanted_eq_append hp hroot
  have hnone : before.filter (fun q => !m.has q) = [] := by
    rw [List.filter_eq_nil_iff]
    intro q hq
    simp [hexisting q (hbefore hq)]
  have hall : (c.wantedOf missing).filter (fun q => !m.has q) = c.wantedOf missing := by
    rw [List.filter_eq_self]
    intro q hq
    simp [hmissing q (wantedOf_subset missing hq)]
  rw [lacking, hwanted, List.filter_append, hnone, hall, List.nil_append]

/-- A node as the call creates it. -/
def node (c : Creation) (containers : Bool) (q : String) : Node where
  data := []
  acl := c.acl q
  mode := c.mode containers

/-- The table with nodes added one after the other, as the call creates them. -/
def grow (c : Creation) (m : Memory) (added : List String) : Memory :=
  added.foldl (fun m' q => m'.attach (Path.parent q) q (c.node m.containers q)) m

/-- The last node that is added comes on top of the others. -/
theorem grow_concat : c.grow m (added ++ [q]) =
    (c.grow m added).attach (Path.parent q) q (c.node m.containers q) := by
  simp [grow]

/-- The table has the nodes that were added, and those from before. -/
theorem has_grow : (c.grow m added).has q = (decide (q ∈ added) || m.has q) := by
  induction added using List.reverseRecOn with
  | nil => simp [grow]
  | append_singleton added p ih =>
    rw [grow_concat, Memory.has_attach, ih]
    simp only [List.mem_append, List.mem_singleton, Bool.decide_or]
    ac_rfl

/-- Nodes that are missing, each named once. -/
def Addable (m : Memory) (added : List String) : Prop :=
  added.Nodup ∧ ∀ p ∈ added, Path.IsValid p ∧ p ≠ Path.root ∧ m.has p = false

/-- Nodes that are lacking can be added. -/
theorem addable_lacking (hc : Path.IsValid c.path) : Addable m (c.lacking m) := by
  refine ⟨nodup_lacking hc, fun p hp => ?_⟩
  obtain ⟨hfree, hensures⟩ := (mem_lacking_iff hc).mp hp
  exact ⟨hensures.isAbove.valid, hensures.ne_root, hfree⟩

/-- The first of some nodes that can be added can be added. -/
theorem Addable.of_append (h : Addable m (added ++ rest)) : Addable m added := by
  obtain ⟨hnodup, hmissing⟩ := h
  exact ⟨hnodup.sublist (List.sublist_append_left _ _),
    fun q hq => hmissing q (List.mem_append_left _ hq)⟩

/-- The next node is still missing when the others are added. -/
theorem Addable.last {p : String} (h : Addable m (added ++ [p])) :
    Path.IsValid p ∧ p ≠ Path.root ∧ (c.grow m added).has p = false := by
  obtain ⟨hnodup, hmissing⟩ := h
  obtain ⟨hvalid, hne, hfree⟩ := hmissing p (by simp)
  have hnew : p ∉ added :=
    fun hp => (List.nodup_append.mp hnodup).2.2 p hp p (List.mem_singleton_self p) rfl
  refine ⟨hvalid, hne, ?_⟩
  rw [has_grow, hfree, decide_eq_false hnew, Bool.false_or]

/-- The nodes that were there stay as they are, but for their children. -/
theorem find?_grow_of_find? (h : Addable m added) {n : Node} (hn : m.find? q = some n) :
    ∃ children hadChildren, (c.grow m added).find? q = some { n with children, hadChildren } := by
  induction added using List.reverseRecOn with
  | nil => exact ⟨n.children, n.hadChildren, hn⟩
  | append_singleton added p ih =>
    have hbefore := h.of_append
    obtain ⟨hvalid, hne, hfree⟩ := h.last (c := c)
    have hparent := Path.parent_ne_self hvalid hne
    obtain ⟨children, hadChildren, hold⟩ := ih hbefore
    rw [grow_concat]
    obtain ⟨_, _, hkept⟩ :=
      Memory.find?_attach_of_find? hfree hparent (c.node m.containers p) hold
    exact ⟨_, _, hkept⟩

/-- The nodes that were added stay as they were created, but for their children. -/
theorem find?_grow_of_mem (h : Addable m added) (hq : q ∈ added) :
    ∃ children hadChildren, (c.grow m added).find? q =
      some { c.node m.containers q with children, hadChildren } := by
  induction added using List.reverseRecOn with
  | nil => cases hq
  | append_singleton added p ih =>
    have hbefore := h.of_append
    obtain ⟨hvalid, hne, hfree⟩ := h.last (c := c)
    have hparent := Path.parent_ne_self hvalid hne
    rw [grow_concat]
    obtain hq | hq := List.mem_append.mp hq
    · obtain ⟨children, hadChildren, hold⟩ := ih hbefore hq
      obtain ⟨_, _, hkept⟩ :=
        Memory.find?_attach_of_find? hfree hparent (c.node m.containers p) hold
      exact ⟨_, _, hkept⟩
    · obtain rfl := List.mem_singleton.mp hq
      rw [Memory.find?_attach hfree hparent, if_pos rfl]
      exact ⟨_, _, rfl⟩

/-- The request that creates a node, with its answer. -/
def event (c : Creation) (containers : Bool) (q : String) : Event where
  operation := some 0
  request := .call (.create q [] (c.acl q) (c.mode containers))
  answer := .ok (.str q)

/-- Of the nodes that were missing at first, all are added but those that the operation has yet to
create. -/
def Progress (c : Creation) (first : Memory) (done : List String) : Ensure → Prop
  | .probing _ _ _ missing => done = [] ∧ ∀ q ∈ missing, first.has q = false
  | .choosing _ wanted => c.lacking first = done ++ wanted
  | .creating _ _ path below => c.lacking first = done ++ path :: below
  | .done _ => c.lacking first = done

/-- The call goes on with the first node that it has yet to create. -/
theorem progress_create (job : Ensure.Job) (mode : CreateMode)
    (h : c.lacking m = added ++ rest) : c.Progress m added (Ensure.create job mode rest) := by
  cases rest with
  | cons path below => exact h
  | nil => exact h.trans (List.append_nil _)

/-- Once the deepest existing node is found, the missing ones are lacking. -/
theorem progress_found (hp : Path.prefixes c.path = existing ++ missing)
    (hexisting : ∀ q ∈ existing, m.has q = true) (hmissing : ∀ q ∈ missing, m.has q = false)
    (hroot : c.path = Path.root → missing = []) :
    c.Progress m [] (Ensure.found c.job missing) := by
  rw [found_job, ← lacking_of_prefixes hp hexisting hmissing hroot]
  split
  · exact rfl
  · exact progress_create c.job _ rfl

/-- As long as the call asks, nothing is added. -/
theorem progress_probe {above : List String}
    (hp : Path.prefixes c.path = above.reverse ++ missing)
    (hmissing : ∀ q ∈ missing, m.has q = false) (hroot : c.path = Path.root → missing = []) :
    c.Progress m [] (Ensure.probe c.job missing above) := by
  cases above with
  | cons path above => exact ⟨rfl, hmissing⟩
  | nil => exact progress_found hp (by simp) hmissing hroot

/-- After the answer to a question. -/
theorem progress_probed (hc : Path.IsValid c.path) (hm : m.Consistent)
    (hroot : m.has Path.root = true) {path : String} {above : List String}
    (hp : Path.prefixes c.path = above.reverse ++ path :: missing)
    (hmissing : ∀ q ∈ missing, m.has q = false) :
    c.Progress m [] (if m.has path then Ensure.found c.job missing
      else Ensure.probe c.job (path :: missing) above) := by
  split
  · rename_i hhas
    have hp' : Path.prefixes c.path = (above.reverse ++ [path]) ++ missing := by
      rw [List.append_assoc, List.singleton_append]
      exact hp
    exact progress_found hp' (has_of_prefixes hc hm hroot hp hhas) hmissing
      fun hr => (eq_root_of_prefixes hp hr).2
  · rename_i hhas
    refine progress_probe hp ?_ fun hr => ?_
    · intro q hq
      obtain rfl | hq := List.mem_cons.mp hq
      · exact Bool.eq_false_of_not_eq_true hhas
      · exact hmissing q hq
    · rw [(eq_root_of_prefixes hp hr).1, hroot] at hhas
      exact absurd rfl hhas

end Creation

/-- A call on its own has added some of the nodes that were missing at first, each with one request,
and nothing else. -/
structure Completing (first : Memory) (c : Creation) (added : List String) (s : System) : Prop
    extends Agreeing first [c] s where
  /-- The operation goes on from there. -/
  progress : ∃ state, s.operations = [.ensure state] ∧ c.Progress first added state
  /-- The store has grown by the nodes. -/
  memory : s.memory = c.grow first added
  /-- They were created one after the other. -/
  creations : s.history.filter Event.isCreation = added.map (c.event first.containers)

namespace Completing

variable {first : Memory} {c : Creation} {added : List String} {s : System}

/-- Requests that create nothing. -/
theorem creations_append (h : Completing first c added s) {events : List Event}
    (hevents : ∀ event ∈ events, event.isCreation = false) :
    (s.history ++ events).filter Event.isCreation = added.map (c.event first.containers) := by
  have hnone : events.filter Event.isCreation = [] := by
    rw [List.filter_eq_nil_iff]
    intro event hevent
    simp [hevents event hevent]
  rw [List.filter_append, hnone, List.append_nil, h.creations]

/-- The call asks whether a node is there. -/
private theorem step_probing (h : Completing first c added s) (hm : first.Consistent)
    (hroot : first.has Path.root = true) (hc : Path.IsValid c.path) {job : Ensure.Job}
    {path : String} {above missing : List String}
    (ho : s.operations = [.ensure (.probing job path above missing)])
    (ht : c.OnTrack s.memory (.probing job path above missing))
    (hprogress : c.Progress first added (.probing job path above missing)) (order : Arrangement)
    (hagreeing : Agreeing first [c] (s.step (.turn ⟨0, order⟩))) :
    Completing first c added (s.step (.turn ⟨0, order⟩)) := by
  obtain ⟨rfl, hmissing⟩ := hprogress
  obtain ⟨rfl, hp⟩ := ht
  have hmemory : s.memory = first := h.memory
  have ho' : s.operations[0]? = some (.ensure (.probing c.job path above missing)) :=
    System.operation_of_alone ho
  rw [System.step_of_calling ho' rfl, Memory.serve_probe h.grown.opened] at hagreeing ⊢
  refine ⟨hagreeing, ⟨_, by rw [ho]; rfl, ?_⟩, h.memory, ?_⟩
  · rw [hmemory]
    exact Creation.progress_probed hc hm hroot hp hmissing
  · exact h.creations_append (by simp [Event.isCreation])

/-- The call asks which mode to create nodes in. -/
private theorem step_choosing (h : Completing first c added s) {job : Ensure.Job}
    {wanted : List String} (ho : s.operations = [.ensure (.choosing job wanted)])
    (hprogress : c.Progress first added (.choosing job wanted)) (order : Arrangement)
    (hagreeing : Agreeing first [c] (s.step (.turn ⟨0, order⟩))) :
    Completing first c added (s.step (.turn ⟨0, order⟩)) := by
  have ho' : s.operations[0]? = some (.ensure (.choosing job wanted)) :=
    System.operation_of_alone ho
  obtain ⟨asked, hasked, he⟩ := System.step_of_choosing ho' rfl order
  rw [he] at hagreeing ⊢
  refine ⟨hagreeing, ⟨_, by rw [ho]; rfl, ?_⟩, h.memory, ?_⟩
  · exact Creation.progress_create job _ hprogress
  · exact h.creations_append fun event hmem => by rw [hasked event hmem, Event.isCreation]

/-- The call creates a node, which is missing as it was at first. -/
private theorem step_creating (h : Completing first c added s) (hc : Path.IsValid c.path)
    {job : Ensure.Job} {mode : CreateMode} {path : String} {below : List String}
    (ho : s.operations = [.ensure (.creating job mode path below)])
    (ht : c.OnTrack s.memory (.creating job mode path below))
    (hprogress : c.Progress first added (.creating job mode path below)) (order : Arrangement)
    (hagreeing : Agreeing first [c] (s.step (.turn ⟨0, order⟩))) :
    Completing first c (added ++ [path]) (s.step (.turn ⟨0, order⟩)) := by
  obtain ⟨rfl, rfl, hready⟩ := ht
  have hlacking : c.lacking first = (added ++ [path]) ++ below := by
    rw [List.append_assoc]
    exact hprogress
  have hadded : Creation.Addable first (added ++ [path]) := by
    have hall := Creation.addable_lacking hc (m := first)
    rw [hlacking] at hall
    exact hall.of_append
  obtain ⟨hvalid, -, hfree⟩ := hadded.last (c := c)
  rw [← h.memory] at hfree
  have ho' : s.operations[0]? =
      some (.ensure (.creating c.job (c.mode s.memory.containers) path below)) :=
    System.operation_of_alone ho
  rw [System.step_of_calling ho' rfl, c.serve_create hvalid h.grown.opened,
    if_pos (hready.has_parent hc h.grown.root), hfree] at hagreeing ⊢
  refine ⟨hagreeing, ⟨_, by rw [ho]; rfl, Creation.progress_create c.job _ hlacking⟩, ?_, ?_⟩
  · rw [Creation.grow_concat, ← h.memory, ← h.grown.containers]
    rfl
  · rw [List.map_append, ← h.creations, ← h.grown.containers]
    exact List.filter_append _ _

/-- In each turn the call adds at most the next of the missing nodes. -/
theorem step (h : Completing first c added s) (hm : first.Consistent)
    (hroot : first.has Path.root = true) (hc : Path.IsValid c.path) (turn : Turn) :
    ∃ added', Completing first c added' (s.step (.turn turn)) := by
  have hagreeing := h.toAgreeing.step (by simpa using hc) turn
  obtain ⟨number, order⟩ := turn
  obtain ⟨state, ho, hprogress⟩ := h.progress
  cases number with
  | succ number =>
    rw [System.step_of_absent (by rw [ho]; rfl)]
    exact ⟨added, h⟩
  | zero =>
    have ho' : s.operations[0]? = some (.ensure state) := System.operation_of_alone ho
    obtain ⟨c', hc', state', hstate, ht⟩ := System.exists_call h.follows ho'
    obtain rfl : c = c' := by simpa using hc'
    obtain rfl : state = state' := by simpa using hstate
    cases state with
    | probing job path above missing =>
      exact ⟨_, h.step_probing hm hroot hc ho ht hprogress order hagreeing⟩
    | choosing job wanted => exact ⟨_, h.step_choosing ho hprogress order hagreeing⟩
    | creating job mode path below =>
      exact ⟨_, h.step_creating hc ho ht hprogress order hagreeing⟩
    | done outcome =>
      rw [System.step_of_finished ho' rfl]
      exact ⟨added, h⟩

/-- A call that has not begun has added nothing. -/
theorem start {m : Memory} (hm : m.Consistent) (ho : m.closed = false)
    (hroot : m.has Path.root = true) (asked : Bool) (hc : Path.IsValid c.path) :
    Completing m c [] (System.start m asked [c.operation]) := by
  refine ⟨Agreeing.start hm ho hroot asked (by simpa using hc), ⟨_, rfl, ?_⟩, rfl, rfl⟩
  rw [Ensure.start, hc.validate]
  exact Creation.progress_probe (by simp) (by simp) fun _ => rfl

/-- When the call is over, all missing nodes are added. -/
theorem added_eq (h : Completing first c added s) {outcome : Answer}
    (hout : s.outcome 0 = some outcome) : added = c.lacking first := by
  obtain ⟨state, ho, hprogress⟩ := h.progress
  rw [System.outcome, ho] at hout
  cases state with
  | done outcome => exact hprogress.symm
  | _ => cases hout

end Completing

namespace System

variable {m : Memory} {c : Creation}

/-- The table after a recursive creation on its own, and the requests that made it. -/
theorem completing_alone (hm : m.Consistent) (ho : m.closed = false)
    (hroot : m.has Path.root = true) (asked : Bool) (hc : Path.IsValid c.path)
    {orders : List Arrangement} (horders : 2 * (Path.prefixes c.path).length + 1 ≤ orders.length) :
    let s := alone m asked c.operation orders
    s.outcome 0 = some (.ok .null) ∧ Completing m c (c.lacking m) s := by
  obtain ⟨hout, -⟩ := alone_creation hm ho hroot asked hc horders
  obtain ⟨added, hs⟩ : ∃ added, Completing m c added (alone m asked c.operation orders) :=
    interleave_induction (motive := fun s => ∃ added, Completing m c added s)
      ⟨[], .start hm ho hroot asked hc⟩ (fun s turn ⟨_, h⟩ => h.step hm hroot hc turn) _
  obtain rfl := hs.added_eq hout
  exact ⟨hout, hs⟩

end System

/-- A recursive creation that nobody disturbs succeeds. Afterwards the nodes are those that were
there and those that the call makes sure of. The former are as they were, but for their children;
the others have no payload, the mode of containers if those are wanted and the store has them, and
the access control list that the policy gives them. Each of these was created with one request, and
no other node was asked for. The same call made again changes nothing and creates nothing. -/
theorem creation_completes {m : Memory} (hm : m.Reachable) (ho : m.closed = false)
    (hroot : m.has Path.root = true) (asked : Bool) {c : Creation} (hc : Path.IsValid c.path)
    {orders : List Arrangement} (horders : 2 * (Path.prefixes c.path).length + 1 ≤ orders.length) :
    let s := System.alone m asked c.operation orders
    s.outcome 0 = some (.ok .null) ∧
    (∀ q, s.memory.has q = true ↔ m.has q = true ∨ c.Ensures q) ∧
    (∀ q n, m.find? q = some n → ∃ children hadChildren,
      s.memory.find? q = some { n with children, hadChildren }) ∧
    (∀ q n, m.has q = false → s.memory.find? q = some n →
      n.data = [] ∧ n.version = 0 ∧ n.sequence = 0 ∧ AclPolicy.Gives q c.provider n.acl ∧
      n.mode = if c.wantsContainers = true ∧ m.containers = true then .container
        else .persistent) ∧
    (∃ added : List String, added.Nodup ∧ (∀ q, q ∈ added ↔ m.has q = false ∧ c.Ensures q) ∧
      s.history.filter Event.isCreation = added.map fun q =>
        ⟨some 0, .call (.create q [] (c.acl q) (c.mode m.containers)), .ok (.str q)⟩) ∧
    ∀ asked' orders', 2 * (Path.prefixes c.path).length + 1 ≤ orders'.length →
      let s' := System.alone s.memory asked' c.operation orders'
      s'.outcome 0 = some (.ok .null) ∧ s'.memory = s.memory ∧
        s'.history.filter Event.isCreation = [] := by
  intro s
  obtain ⟨hout, hs⟩ := System.completing_alone hm.consistent ho hroot asked hc horders
  obtain ⟨-, hcompleted⟩ := System.alone_creation hm.consistent ho hroot asked hc horders
  have hadded := Creation.addable_lacking hc (m := m)
  refine ⟨hout, hcompleted.has_iff, ?_, ?_, ?_, ?_⟩
  · intro q n hn
    rw [show s.memory = c.grow m (c.lacking m) from hs.memory]
    exact Creation.find?_grow_of_find? hadded hn
  · intro q n hq hn
    have hensures : c.Ensures q := by
      refine ((hcompleted.has_iff q).mp (Memory.has_of_find? hn)).resolve_left ?_
      simp [hq]
    obtain ⟨children, hadChildren, hmade⟩ :=
      Creation.find?_grow_of_mem (c := c) hadded ((Creation.mem_lacking_iff hc).mpr ⟨hq, hensures⟩)
    rw [show s.memory = c.grow m (c.lacking m) from hs.memory, hmade] at hn
    obtain rfl := Option.some.inj hn
    refine ⟨rfl, rfl, rfl, AclPolicy.gives_resolve c.provider q, ?_⟩
    simp [Creation.node, Creation.mode]
  · exact ⟨c.lacking m, Creation.nodup_lacking hc, fun q => Creation.mem_lacking_iff hc,
      hs.creations⟩
  · intro asked' orders' horders'
    have hall : c.lacking s.memory = [] :=
      Creation.lacking_eq_nil hc fun q hq => (hcompleted.has_iff q).mpr (.inr hq)
    obtain ⟨hout', hs'⟩ := System.completing_alone hcompleted.consistent hs.grown.opened
      hs.grown.root asked' hc horders'
    rw [hall] at hs'
    exact ⟨hout', hs'.memory, hs'.creations⟩

/-- Of three nodes the first is there, and the last one is not wanted. -/
theorem creation_completes_middle :
    let m := ({} : Memory).after (.call (.create "/a" [1] [] .persistent))
    let c : Creation := ⟨[], "/a/b/c", some (.bool false), some ⟨fun _ => none, some []⟩,
      some (.bool true)⟩
    let order : Arrangement := ⟨id, fun _ => .refl _⟩
    let s := System.alone m false c.operation (List.replicate 7 order)
    s.outcome 0 = some (.ok .null) ∧
      (∀ q, s.memory.has q = true ↔ m.has q = true ∨ c.Ensures q) ∧
      (s.history.filter Event.isCreation).map Event.created? = [some "/a/b"] := by
  intro m c order s
  have hreachable : m.Reachable := ⟨true, [.call (.create "/a" [1] [] .persistent)], rfl⟩
  have hpath : Path.IsValid c.path := by decide
  have hturns : 2 * (Path.prefixes c.path).length + 1 ≤ (List.replicate 7 order).length := by
    rw [Path.prefixes]
    decide
  have ho : m.closed = false := by decide +kernel
  have hroot : m.has Path.root = true := by decide +kernel
  obtain ⟨hout, hhas, -⟩ := creation_completes hreachable ho hroot false hpath hturns
  exact ⟨hout, hhas, by decide +kernel⟩

end Concurrency

end TreeStore
