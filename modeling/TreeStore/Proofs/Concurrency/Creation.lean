import TreeStore.Proofs.Concurrency.System
import TreeStore.Proofs.Path.Walks

/-!
# Recursive creation by many callers

Any number of recursive creations on one store agree, however their requests are interleaved. A
caller's view of the store is stale as soon as it has it, but nothing is deleted: the nodes that it
found, or saw created, stay. So the parent of the node that it creates next is always there, and all
that can happen to the creation is that someone else was faster.
-/

namespace TreeStore

namespace Ensure

/-- How many more turns recursive creation takes at most. -/
def turnsLeft : Ensure → Nat
  | probing _ _ above missing => 2 * above.length + missing.length + 3
  | choosing _ wanted => wanted.length + 1
  | creating _ _ _ below => below.length + 1
  | done _ => 0

variable (job : Job)

/-- One turn is left for each node that is to be created. -/
theorem turnsLeft_create (mode : CreateMode) (rest : List String) :
    (create job mode rest).turnsLeft = rest.length := by
  cases rest with
  | nil => rfl
  | cons path below => rfl

/-- Once the deepest existing node is found, one more turn may go into the choice of a mode. -/
theorem turnsLeft_found (missing : List String) :
    (found job missing).turnsLeft ≤ missing.length + 1 := by
  have hle : (if job.makeLast then missing else missing.dropLast).length ≤ missing.length := by
    split
    · exact Nat.le_refl _
    · rw [List.length_dropLast]
      omega
  rw [found]
  split
  · exact Nat.succ_le_succ hle
  · rw [turnsLeft_create]
    omega

/-- Each question that is left may be followed by a creation. -/
theorem turnsLeft_probe (missing above : List String) :
    (probe job missing above).turnsLeft ≤ 2 * above.length + missing.length + 1 := by
  cases above with
  | nil =>
    have h := turnsLeft_found job missing
    simpa [probe] using h
  | cons path above =>
    simp only [probe, turnsLeft, List.length_cons]
    omega

/-- An operation takes no more than two turns for each path along its own, and one. -/
theorem turnsLeft_start {path : String} (hp : Path.IsValid path) :
    (start job path).turnsLeft ≤ 2 * (Path.prefixes path).length + 1 := by
  have h := turnsLeft_probe job [] (Path.prefixes path).reverse
  rw [start, hp.validate]
  simpa using h

/-- Whatever a store answers, a call takes a turn off what is left. -/
theorem turnsLeft_resume {state : Ensure} {call : Call} {resume : Answer → List LogRecord × Ensure}
    (h : state.next = .calling call resume) (answer : Answer) :
    (resume answer).2.turnsLeft < state.turnsLeft := by
  cases state with
  | probing job path above missing =>
    obtain ⟨-, rfl⟩ := Next.calling.inj h
    cases answer with
    | error failure => exact Nat.succ_pos _
    | ok value =>
      dsimp only
      split
      · refine Nat.lt_of_le_of_lt (turnsLeft_found job missing) ?_
        simp only [turnsLeft]
        omega
      · refine Nat.lt_of_le_of_lt (turnsLeft_probe job (path :: missing) above) ?_
        simp only [turnsLeft, List.length_cons]
        omega
  | choosing job wanted => cases h
  | creating job mode path below =>
    obtain ⟨-, rfl⟩ := Next.calling.inj h
    have hcreate := turnsLeft_create job mode below
    cases answer with
    | ok value =>
      dsimp only
      rw [hcreate]
      exact Nat.lt_succ_self _
    | error failure =>
      dsimp only
      split
      · rw [hcreate]
        exact Nat.lt_succ_self _
      · exact Nat.succ_pos _
  | done outcome => cases h

/-- Whatever the mode for containers turns out to be, choosing it takes a turn off what is left. -/
theorem turnsLeft_choice {state : Ensure}
    {resume : Except Failure CreateMode → List LogRecord × Ensure}
    (h : state.next = .choosing resume) (chosen : Except Failure CreateMode) :
    (resume chosen).2.turnsLeft < state.turnsLeft := by
  cases state with
  | choosing job wanted =>
    obtain rfl := Next.choosing.inj h
    cases chosen with
    | error failure => exact Nat.succ_pos _
    | ok mode =>
      dsimp only
      rw [turnsLeft_create]
      exact Nat.lt_succ_self _
  | probing | creating | done => cases h

end Ensure

/-- How many more turns a recursive creation takes at most. -/
def Operation.turnsLeft : Operation → Nat
  | ensure state => state.turnsLeft
  | _ => 0

namespace Concurrency

/-- A recursive creation that is under way has a turn less to go after each of its own, whatever the
store has become in the meantime. -/
theorem System.turnsLeft_turn {s : System} {number : Nat} {state : Ensure}
    (ho : s.operations[number]? = some (.ensure state))
    (hout : (Operation.ensure state).outcome? = none) (order : Arrangement) :
    ∃ rest, (s.step (.turn ⟨number, order⟩)).operations[number]? = some (.ensure rest) ∧
      rest.turnsLeft < state.turnsLeft := by
  have hlt : number < s.operations.length := (List.getElem?_eq_some_iff.mp ho).1
  cases state with
  | probing job path above missing =>
    rw [System.step_of_calling ho rfl]
    have hnext : (Ensure.probing job path above missing).next = _ := rfl
    exact ⟨_, List.getElem?_set_self hlt, Ensure.turnsLeft_resume hnext _⟩
  | creating job mode path below =>
    rw [System.step_of_calling ho rfl]
    have hnext : (Ensure.creating job mode path below).next = _ := rfl
    exact ⟨_, List.getElem?_set_self hlt, Ensure.turnsLeft_resume hnext _⟩
  | choosing job wanted =>
    obtain ⟨asked, -, he⟩ := System.step_of_choosing ho rfl order
    have hnext : (Ensure.choosing job wanted).next = _ := rfl
    rw [he]
    exact ⟨_, List.getElem?_set_self hlt, Ensure.turnsLeft_choice hnext (.ok s.containerMode)⟩
  | done outcome => cases hout

/-- A call of recursive creation. -/
structure Creation where
  /-- The context that the call is made in. -/
  ambient : Context
  /-- The path to ensure. -/
  path : String
  /-- Whether the last node of the path is created, too, if that is said. -/
  makeLast : Option Value
  /-- Who chooses the access control lists. -/
  provider : Option AclPolicy
  /-- Whether the nodes are to be containers, if that is said. -/
  asContainers : Option Value

namespace Creation

/-- The operation that carries out the call. -/
def operation (c : Creation) : Operation :=
  .mkdirs c.ambient c.path c.makeLast c.provider c.asContainers

/-- Whether the last node of the path is created; it is unless the caller says otherwise. -/
def wantsLast (c : Creation) : Bool := (c.makeLast.getD (.bool true)).truthy

/-- Whether the nodes are to be containers; they are not unless the caller says so. -/
def wantsContainers (c : Creation) : Bool := (c.asContainers.getD (.bool false)).truthy

/-- The mode of the nodes that the call creates in a store with or without containers. -/
def mode (c : Creation) (containers : Bool) : CreateMode :=
  if c.wantsContainers && containers then .container else .persistent

/-- The access control list that the call resolves for a node. -/
def acl (c : Creation) (path : String) : List Acl := AclPolicy.resolve c.provider path

/-- The nodes that the call makes sure of: those along its path, other than the root. -/
structure Ensures (c : Creation) (q : String) : Prop where
  /-- The root is there anyway. -/
  ne_root : q ≠ Path.root
  /-- The node is on the path. -/
  isAbove : Path.IsAbove q c.path
  /-- It is not the last one, or that one is wanted. -/
  last : c.wantsLast = true ∨ q ≠ c.path

/-- What the operation carries with it. -/
def job (c : Creation) : Ensure.Job where
  makeLast := c.wantsLast
  provider := c.provider
  asContainers := c.wantsContainers
  context := Operation.creationContext c.ambient c.path c.makeLast c.asContainers

/-- The nodes that the call makes sure of, from the top. -/
def wanted (c : Creation) : List String :=
  if c.path = Path.root then []
  else if c.wantsLast then Path.prefixes c.path else (Path.prefixes c.path).dropLast

/-- Of the nodes that are missing along the path, those that the call creates. -/
def wantedOf (c : Creation) (missing : List String) : List String :=
  if c.wantsLast then missing else missing.dropLast

variable {c : Creation} {m m' : Memory}

/-- Only missing nodes are created. -/
theorem wantedOf_subset (missing : List String) : c.wantedOf missing ⊆ missing := by
  rw [wantedOf]
  split
  · exact List.Subset.refl missing
  · exact List.dropLast_subset missing

/-- What the call goes on with once the deepest existing node is found. -/
theorem found_job (missing : List String) : Ensure.found c.job missing =
    if c.wantsContainers then .choosing c.job (c.wantedOf missing)
    else Ensure.create c.job .persistent (c.wantedOf missing) := rfl

/-- If the path splits in two, the nodes wanted of the second part are the last of all that the call
makes sure of. -/
theorem exists_wanted_eq_append {existing missing : List String}
    (hp : Path.prefixes c.path = existing ++ missing) (hroot : c.path = Path.root → missing = []) :
    ∃ before, c.wanted = before ++ c.wantedOf missing ∧ before ⊆ existing := by
  rw [wanted, wantedOf]
  by_cases hr : c.path = Path.root
  · rw [if_pos hr, hroot hr]
    exact ⟨[], by simp, List.nil_subset _⟩
  rw [if_neg hr, hp]
  split
  · exact ⟨existing, rfl, List.Subset.refl existing⟩
  · cases missing with
    | nil => exact ⟨existing.dropLast, by simp, List.dropLast_subset existing⟩
    | cons q below =>
      refine ⟨existing, ?_, List.Subset.refl existing⟩
      exact List.dropLast_append_of_ne_nil (List.cons_ne_nil q below)

/-- The nodes that the call makes sure of, as they are told of a path. -/
theorem mem_wanted_iff (hc : Path.IsValid c.path) {q : String} : q ∈ c.wanted ↔ c.Ensures q := by
  rw [wanted]
  by_cases hroot : c.path = Path.root
  · rw [if_pos hroot]
    constructor
    · intro h
      simp at h
    · rintro ⟨hne, hup, -⟩
      rw [hroot, Path.isAbove_root_iff] at hup
      exact absurd hup hne
  rw [if_neg hroot]
  by_cases hlast : c.wantsLast = true
  · rw [if_pos hlast, Path.mem_prefixes_iff hc hroot]
    exact ⟨fun ⟨hne, hup⟩ => ⟨hne, hup, .inl hlast⟩, fun ⟨hne, hup, _⟩ => ⟨hne, hup⟩⟩
  · rw [if_neg hlast, Path.mem_dropLast_prefixes_iff hc hroot]
    exact ⟨fun ⟨hne, hup, hq⟩ => ⟨hne, hup, .inr hq⟩,
      fun ⟨hne, hup, hq⟩ => ⟨hne, hup, hq.resolve_left hlast⟩⟩

/-- Of the nodes that the call makes sure of, those before the given rest are there. -/
def Ready (c : Creation) (m : Memory) (rest : List String) : Prop :=
  ∃ before, c.wanted = before ++ rest ∧ ∀ q ∈ before, m.has q = true

/-- A call that is ready stays so while nodes are added. -/
theorem Ready.mono (hm : ∀ q, m.has q = true → m'.has q = true) {rest : List String}
    (h : c.Ready m rest) : c.Ready m' rest := by
  obtain ⟨before, he, hbefore⟩ := h
  exact ⟨before, he, fun q hq => hm q (hbefore q hq)⟩

/-- The next node joins those that are there. -/
theorem Ready.next {path : String} {below : List String} (h : c.Ready m (path :: below))
    (hp : m.has path = true) : c.Ready m below := by
  obtain ⟨before, he, hbefore⟩ := h
  refine ⟨before ++ [path], by simpa using he, ?_⟩
  intro q hq
  rcases List.mem_append.mp hq with hq | hq
  · exact hbefore q hq
  · rwa [List.mem_singleton.mp hq]

/-- The next node is one that the call makes sure of. -/
theorem Ready.mem_wanted {path : String} {below : List String} (h : c.Ready m (path :: below)) :
    path ∈ c.wanted := by
  obtain ⟨before, he, -⟩ := h
  rw [he]
  simp

/-- The parent of the next node is there. -/
theorem Ready.has_parent (hc : Path.IsValid c.path) (hroot : m.has Path.root = true) {path : String}
    {below : List String} (h : c.Ready m (path :: below)) : m.has (Path.parent path) = true := by
  obtain ⟨before, he, hbefore⟩ := h
  have hne : c.path ≠ Path.root := by
    intro hr
    simp [wanted, hr] at he
  obtain ⟨tail, htail⟩ : ∃ tail, Path.prefixes c.path = c.wanted ++ tail := by
    rw [wanted, if_neg hne]
    split
    · exact ⟨[], (List.append_nil _).symm⟩
    · exact (List.dropLast_prefix _).imp fun _ => Eq.symm
  rw [he, List.append_assoc, List.cons_append] at htail
  have hmem : ∀ r, r ∈ before ++ [path] ↔ r ≠ Path.root ∧ Path.IsAbove r path :=
    fun r => Path.isAbove_of_prefixes hc hne htail
  obtain ⟨hpath, hup⟩ := (hmem path).mp (by simp)
  by_cases hp : Path.parent path = Path.root
  · rwa [hp]
  · have hin := (hmem (Path.parent path)).mpr ⟨hp, Path.parent_isAbove hup.valid⟩
    rcases List.mem_append.mp hin with hin | hin
    · exact hbefore _ hin
    · exact absurd (List.mem_singleton.mp hin) (Path.parent_ne_self hup.valid hpath)

/-- What an operation that carries out the call has found out holds of the store. -/
def OnTrack (c : Creation) (m : Memory) : Ensure → Prop
  | .probing job path above missing =>
    job = c.job ∧ Path.prefixes c.path = above.reverse ++ path :: missing
  | .choosing job wanted => job = c.job ∧ c.wantsContainers = true ∧ c.Ready m wanted
  | .creating job mode path below =>
    job = c.job ∧ mode = c.mode m.containers ∧ c.Ready m (path :: below)
  | .done outcome => outcome = .ok .null ∧ c.Ready m []

/-- Nodes that are added make nothing wrong that a caller has found out. -/
theorem OnTrack.mono (hm : ∀ q, m.has q = true → m'.has q = true)
    (hcontainers : m'.containers = m.containers) {state : Ensure} (h : c.OnTrack m state) :
    c.OnTrack m' state := by
  cases state with
  | probing job path above missing => exact h
  | choosing job wanted => exact ⟨h.1, h.2.1, h.2.2.mono hm⟩
  | creating job mode path below => exact ⟨h.1, by rw [hcontainers]; exact h.2.1, h.2.2.mono hm⟩
  | done outcome => exact ⟨h.1, h.2.mono hm⟩

/-- A call that is ready to create nodes goes on with the next. -/
theorem onTrack_create {rest : List String} (h : c.Ready m rest) :
    c.OnTrack m (Ensure.create c.job (c.mode m.containers) rest) := by
  cases rest with
  | nil => exact ⟨rfl, h⟩
  | cons path below => exact ⟨rfl, rfl, h⟩

/-- Once an existing node is found, all those above it are known to be there. -/
theorem onTrack_found {existing missing : List String}
    (hp : Path.prefixes c.path = existing ++ missing) (he : ∀ q ∈ existing, m.has q = true)
    (hroot : c.path = Path.root → missing = []) : c.OnTrack m (Ensure.found c.job missing) := by
  have hready : c.Ready m (c.wantedOf missing) := by
    obtain ⟨before, hwanted, hbefore⟩ := exists_wanted_eq_append hp hroot
    exact ⟨before, hwanted, fun q hq => he q (hbefore hq)⟩
  rw [found_job]
  by_cases hc : c.wantsContainers = true
  · rw [if_pos hc]
    exact ⟨rfl, hc, hready⟩
  · rw [if_neg hc]
    have hmode : CreateMode.persistent = c.mode m.containers := by
      simp [mode, hc]
    rw [hmode]
    exact onTrack_create hready

/-- A call that asks goes on with the deepest path that is left. -/
theorem onTrack_probe {above missing : List String}
    (hp : Path.prefixes c.path = above.reverse ++ missing)
    (hroot : c.path = Path.root → missing = []) :
    c.OnTrack m (Ensure.probe c.job missing above) := by
  cases above with
  | nil => exact onTrack_found hp (by simp) hroot
  | cons path above => exact ⟨rfl, by simpa using hp⟩

/-- What is created once the walk upwards is over is what a walk downwards visits from where it
stopped. -/
theorem found_eq_downwards (hc : Path.IsValid c.path) {above missing : List String}
    (hp : Path.prefixes c.path = above ++ missing) :
    Ensure.found c.job missing =
      let wanted := Path.downwards c.path c.job.makeLast (Path.endOfLast above)
      if c.job.asContainers then .choosing c.job wanted
      else Ensure.create c.job .persistent wanted := by
  have hwalk := Path.downwards_endOfLast hc hp
  rw [Ensure.found]
  cases c.job.makeLast with
  | true => rw [hwalk, if_pos rfl]
  | false => rw [Path.downwards_false, hwalk, if_neg Bool.false_ne_true]

/-- At first nothing is found out. -/
theorem onTrack_start (hc : Path.IsValid c.path) : c.OnTrack m (Ensure.start c.job c.path) := by
  rw [Ensure.start, hc.validate]
  exact onTrack_probe (by simp) fun _ => rfl

/-- A call for the root asks about the root alone. -/
theorem eq_root_of_prefixes {path : String} {above missing : List String}
    (hp : Path.prefixes c.path = above ++ path :: missing) (hr : c.path = Path.root) :
    path = Path.root ∧ missing = [] := by
  rw [hr, Path.prefixes_root, List.singleton_eq_append_iff] at hp
  obtain ⟨-, hp⟩ | ⟨-, hp⟩ := hp
  · exact List.cons_eq_cons.mp hp
  · simp at hp

/-- If a node along the path is there, then so are those above it. -/
theorem has_of_prefixes (hc : Path.IsValid c.path) (hm : m.Consistent)
    (hroot : m.has Path.root = true) {path : String} {above missing : List String}
    (hp : Path.prefixes c.path = above ++ path :: missing) (hhas : m.has path = true) :
    ∀ q ∈ above ++ [path], m.has q = true := by
  intro q hq
  by_cases hr : c.path = Path.root
  · obtain ⟨hpath, hmissing⟩ := eq_root_of_prefixes hp hr
    rw [hr, hpath, hmissing, Path.prefixes_root] at hp
    rw [hpath, ← hp, List.mem_singleton] at hq
    rwa [hq]
  · exact hm.has_of_isAbove hhas ((Path.isAbove_of_prefixes hc hr hp).mp hq).2

/-- After the answer to a question: if the node is there, then so are those above it. -/
theorem onTrack_probed (hc : Path.IsValid c.path) (hm : m.Consistent)
    (hroot : m.has Path.root = true) {path : String} {above missing : List String}
    (hp : Path.prefixes c.path = above.reverse ++ path :: missing) :
    c.OnTrack m (if m.has path then Ensure.found c.job missing
      else Ensure.probe c.job (path :: missing) above) := by
  split
  · rename_i hhas
    have hp' : Path.prefixes c.path = (above.reverse ++ [path]) ++ missing := by
      rw [List.append_assoc, List.singleton_append]
      exact hp
    exact onTrack_found hp' (has_of_prefixes hc hm hroot hp hhas)
      fun hr => (eq_root_of_prefixes hp hr).2
  · rename_i hhas
    refine onTrack_probe hp fun hr => ?_
    rw [(eq_root_of_prefixes hp hr).1, hroot] at hhas
    exact absurd rfl hhas

/-- The mode of a call is plain, and that of containers only where there are any. -/
theorem mode_plain (c : Creation) (containers : Bool) :
    (c.mode containers).isSequential = false ∧
      ((c.mode containers).isContainer = true → containers = true) := by
  rw [mode]
  cases c.wantsContainers <;> cases containers <;> decide

/-- What becomes of the request to create a node: its parent is missing, someone else was faster, or
the node is added. -/
theorem serve_create (c : Creation) {path : String} (hp : Path.IsValid path)
    (ho : m.closed = false) (order : List String → List String) :
    m.serve order (.create path [] (AclPolicy.resolve c.job.provider path)
        (c.mode m.containers)) =
      if m.has (Path.parent path) then
        if m.has path then (m, .error (Problem.ofStore .nodeExists path))
        else (m.attach (Path.parent path) path
          { data := [], acl := c.acl path, mode := c.mode m.containers }, .ok (.str path))
      else (m, .error (Problem.ofStore .noNode (Path.parent path))) := by
  obtain ⟨hsequential, hcontainer⟩ := c.mode_plain m.containers
  change ((m.create path [] (c.acl path) _).1, Answer.of _ (m.create path [] (c.acl path) _).2) = _
  cases hparent : m.has (Path.parent path) with
  | false =>
    rw [Memory.create_orphan hsequential hcontainer hp ho hparent]
    rfl
  | true =>
    rw [Memory.create_plain hsequential hcontainer hp ho hparent]
    cases m.has path <;> rfl

/-- The node at a path is as the call creates it there, in a store with or without containers. -/
structure Made (c : Creation) (containers : Bool) (path : String) (n : Node) : Prop where
  /-- The call makes sure of the node. -/
  ensures : c.Ensures path
  /-- There is no payload. -/
  data : n.data = []
  /-- The payload was never replaced. -/
  version : n.version = 0
  /-- The mode is that of the call. -/
  mode : n.mode = c.mode containers
  /-- The access control list is the one that the call resolves. -/
  acl : n.acl = c.acl path

/-- A node that agrees with one that was made could have been made as well. -/
theorem Made.of_agrees {containers : Bool} {path : String} {n n' : Node}
    (h : c.Made containers path n) (ha : n.Agrees n') : c.Made containers path n' :=
  ⟨h.ensures, ha.data.trans h.data, ha.version.trans h.version, ha.mode.trans h.mode,
    ha.acl.trans h.acl⟩

end Creation

/-- A store that calls of recursive creation, and nothing else, have added nodes to. -/
structure Grown (first : Memory) (calls : List Creation) (m : Memory) (history : List Event) :
    Prop where
  /-- The table describes one tree. -/
  consistent : m.Consistent
  /-- The session is there. -/
  opened : m.closed = false
  /-- So is the root. -/
  root : m.has Path.root = true
  /-- It is the same kind of store. -/
  containers : m.containers = first.containers
  /-- The nodes that were there at first are as they were. -/
  kept : ∀ q n, first.find? q = some n → ∃ n', m.find? q = some n' ∧ n.Agrees n'
  /-- The others are as one of the calls creates them. -/
  made : ∀ q n, first.has q = false → m.find? q = some n → ∃ c ∈ calls, c.Made first.containers q n
  /-- Each of the others was created once. -/
  once : ∀ q, creations history q = if first.has q = false ∧ m.has q = true then 1 else 0

namespace Grown

variable {first m : Memory} {calls : List Creation} {history : List Event} {c : Creation}
  {q : String}

/-- All nodes of the first store are still there. -/
theorem has_of_first (h : Grown first calls m history) (hq : first.has q = true) :
    m.has q = true := by
  obtain ⟨n, hn⟩ := Memory.has_iff.mp hq
  obtain ⟨n', hn', -⟩ := h.kept q n hn
  exact Memory.has_of_find? hn'

/-- A request that creates nothing and leaves the store as it is. -/
theorem record (h : Grown first calls m history) {events : List Event}
    (he : ∀ event ∈ events, event.created? = none) : Grown first calls m (history ++ events) := by
  refine { h with once := fun q => ?_ }
  have hnone : creations events q = 0 := by
    rw [creations, List.countP_eq_zero]
    intro event hevent
    simp [he event hevent]
  rw [creations_append, hnone, h.once, Nat.add_zero]

/-- A call adds one of its nodes, which is not there yet. -/
theorem attach (h : Grown first calls m history) (hc : c ∈ calls) (hvalid : Path.IsValid q)
    (hq : c.Ensures q) (hfree : m.has q = false) (hparent : m.has (Path.parent q) = true)
    {event : Event} (he : event.created? = some q) :
    Grown first calls
      (m.attach (Path.parent q) q { data := [], acl := c.acl q, mode := c.mode first.containers })
      (history ++ [event]) := by
  have hne := Path.parent_ne_self hvalid hq.ne_root
  have hfirst : first.has q = false := by
    rw [← Bool.not_eq_true]
    intro hq
    rw [h.has_of_first hq] at hfree
    cases hfree
  refine ⟨h.consistent.attach hvalid hq.ne_root hfree hparent rfl, h.opened, ?_, h.containers,
    ?_, ?_, ?_⟩
  · rw [Memory.has_attach, h.root, Bool.or_true]
  · intro p n hn
    obtain ⟨n', hn', ha⟩ := h.kept p n hn
    obtain ⟨n'', hn'', ha'⟩ := Memory.agrees_attach hfree hne _ hn'
    exact ⟨n'', hn'', ha.trans ha'⟩
  · intro p n hp hn
    by_cases hpq : p = q
    · subst hpq
      rw [Memory.find?_attach hfree hne, if_pos rfl] at hn
      obtain rfl := Option.some.inj hn
      exact ⟨c, hc, hq, rfl, rfl, rfl, rfl⟩
    · have hold := Memory.has_of_find? hn
      rw [Memory.has_attach, decide_eq_false hpq, Bool.false_or] at hold
      obtain ⟨n', hn'⟩ := Memory.has_iff.mp hold
      obtain ⟨n'', hn'', ha⟩ := Memory.agrees_attach hfree hne _ hn'
      rw [hn] at hn''
      obtain rfl := Option.some.inj hn''
      obtain ⟨c', hc', hmade⟩ := h.made p n' hp hn'
      exact ⟨c', hc', hmade.of_agrees ha⟩
  · intro p
    rw [creations_append, h.once, Memory.has_attach]
    by_cases hpq : p = q
    · subst hpq
      simp [creations, he, hfree, hfirst]
    · have hqp : q ≠ p := Ne.symm hpq
      simp [creations, he, hpq, hqp]

end Grown

/-- The operation is some state of the call, and what it has found out holds. -/
def Creation.Follows (m : Memory) (c : Creation) (operation : Operation) : Prop :=
  ∃ state, operation = .ensure state ∧ c.OnTrack m state

/-- Calls of recursive creation that go on side by side, with no other client about. -/
structure Agreeing (first : Memory) (calls : List Creation) (s : System) : Prop where
  /-- The store has grown by nodes of the calls. -/
  grown : Grown first calls s.memory s.history
  /-- The mode for containers is that of the store. -/
  mode : s.containerMode = Client.modeOf (.bool first.containers)
  /-- Each operation carries out its call. -/
  follows : List.Forall₂ (Creation.Follows s.memory) calls s.operations

namespace Agreeing

variable {first : Memory} {calls : List Creation} {s : System} {number : Nat} {c : Creation}

/-- One of the operations goes on, and the store has at most gained nodes. -/
private theorem advance (h : Agreeing first calls s) {shared : Shared}
    (hgrown : Grown first calls shared.memory shared.history)
    (hmode : shared.known = s.shared.known ∨ shared.known = some s.containerMode)
    (hmono : ∀ q, s.memory.has q = true → shared.memory.has q = true)
    (hc : calls[number]? = some c) {state : Ensure} (hown : c.OnTrack shared.memory state) :
    Agreeing first calls ⟨shared, s.operations.set number (.ensure state)⟩ := by
  have hcontainers : shared.memory.containers = s.memory.containers := by
    rw [hgrown.containers, h.grown.containers]
  refine ⟨hgrown, ?_, ?_⟩
  · rw [← h.mode]
    simp only [System.containerMode, System.memory] at hmode hcontainers ⊢
    rcases hmode with hm | hm
    · rw [hm, hcontainers]
    · rw [hm]
      rfl
  · refine System.forall₂_set h.follows ?_ hc ⟨state, rfl, hown⟩
    rintro c operation ⟨state, rfl, ht⟩
    exact ⟨state, rfl, ht.mono hmono hcontainers⟩

/-- A call asks whether a node is there. If it is, then so are those above it. -/
private theorem step_probing (h : Agreeing first calls s) (hvalid : Path.IsValid c.path)
    (hc : calls[number]? = some c) {job : Ensure.Job} {path : String} {above missing : List String}
    (ho : s.operations[number]? = some (.ensure (.probing job path above missing)))
    (ht : c.OnTrack s.memory (.probing job path above missing)) (order : Arrangement) :
    Agreeing first calls (s.step (.turn ⟨number, order⟩)) := by
  obtain ⟨rfl, hp⟩ := ht
  rw [System.step_of_calling ho rfl]
  simp only [Memory.serve_probe h.grown.opened]
  refine h.advance ?_ ?_ ?_ hc ?_
  · exact h.grown.record (by simp [Event.created?])
  · exact .inl rfl
  · exact fun q hq => hq
  · exact Creation.onTrack_probed hvalid h.grown.consistent h.grown.root hp

/-- A call asks which mode to create nodes in. -/
private theorem step_choosing (h : Agreeing first calls s) (hc : calls[number]? = some c)
    {job : Ensure.Job} {wanted : List String}
    (ho : s.operations[number]? = some (.ensure (.choosing job wanted)))
    (ht : c.OnTrack s.memory (.choosing job wanted)) (order : Arrangement) :
    Agreeing first calls (s.step (.turn ⟨number, order⟩)) := by
  obtain ⟨rfl, hcontainers, hready⟩ := ht
  obtain ⟨asked, hasked, he⟩ := System.step_of_choosing ho rfl order
  rw [he]
  have hmode : s.containerMode = c.mode s.memory.containers := by
    rw [h.mode, h.grown.containers, Creation.mode, hcontainers, Bool.true_and]
    rfl
  refine h.advance ?_ ?_ ?_ hc ?_
  · exact h.grown.record fun event hmem => by rw [hasked event hmem, Event.created?]
  · exact .inr rfl
  · exact fun q hq => hq
  · simp only [hmode]
    exact Creation.onTrack_create hready

/-- A call creates a node, unless someone else was faster. -/
private theorem step_creating (h : Agreeing first calls s) (hvalid : Path.IsValid c.path)
    (hc : calls[number]? = some c) {job : Ensure.Job} {mode : CreateMode} {path : String}
    {below : List String}
    (ho : s.operations[number]? = some (.ensure (.creating job mode path below)))
    (ht : c.OnTrack s.memory (.creating job mode path below)) (order : Arrangement) :
    Agreeing first calls (s.step (.turn ⟨number, order⟩)) := by
  obtain ⟨rfl, rfl, hready⟩ := ht
  have hensures := (Creation.mem_wanted_iff hvalid).mp hready.mem_wanted
  have hparent := hready.has_parent hvalid h.grown.root
  rw [System.step_of_calling ho rfl]
  simp only [c.serve_create hensures.isAbove.valid h.grown.opened order.apply, hparent, if_true]
  cases hhas : s.memory.has path with
  | true =>
    refine h.advance ?_ ?_ ?_ hc ?_
    · exact h.grown.record (by simp [Event.created?])
    · exact .inl rfl
    · exact fun q hq => hq
    · exact Creation.onTrack_create (hready.next hhas)
  | false =>
    have hmono : ∀ q, s.memory.has q = true → (s.memory.attach (Path.parent path) path
        { data := [], acl := c.acl path, mode := c.mode s.memory.containers }).has q = true := by
      intro q hq
      rw [Memory.has_attach, hq, Bool.or_true]
    refine h.advance ?_ ?_ ?_ hc ?_
    · simp only [Bool.false_eq_true, ite_false, h.grown.containers]
      exact h.grown.attach (List.mem_of_getElem? hc) hensures.isAbove.valid hensures hhas hparent
        rfl
    · exact .inl rfl
    · exact hmono
    · refine Creation.onTrack_create ((hready.mono hmono).next ?_)
      rw [Memory.has_attach, decide_eq_true rfl, Bool.true_or]

/-- The calls go on side by side whoever takes the next step. -/
theorem step (h : Agreeing first calls s) (hcalls : ∀ c ∈ calls, Path.IsValid c.path)
    (turn : Turn) : Agreeing first calls (s.step (.turn turn)) := by
  obtain ⟨number, order⟩ := turn
  cases ho : s.operations[number]? with
  | none =>
    rw [System.step_of_absent ho]
    exact h
  | some operation =>
    obtain ⟨c, hc, state, rfl, ht⟩ := System.exists_call h.follows ho
    have hvalid := hcalls c (List.mem_of_getElem? hc)
    cases state with
    | probing job path above missing => exact h.step_probing hvalid hc ho ht order
    | choosing job wanted => exact h.step_choosing hc ho ht order
    | creating job mode path below => exact h.step_creating hvalid hc ho ht order
    | done outcome =>
      rw [System.step_of_finished ho rfl]
      exact h

/-- Calls that have not begun agree with whatever store is open. -/
theorem start {m : Memory} (hm : m.Consistent) (ho : m.closed = false)
    (hroot : m.has Path.root = true) (asked : Bool) (hcalls : ∀ c ∈ calls, Path.IsValid c.path) :
    Agreeing m calls (System.start m asked (calls.map Creation.operation)) := by
  refine ⟨⟨hm, ho, hroot, rfl, fun q n hn => ⟨n, hn, .refl n⟩, ?_, ?_⟩, ?_, ?_⟩
  · intro q n hq hn
    have hhas : m.has q = true := Memory.has_of_find? hn
    rw [hq] at hhas
    cases hhas
  · intro q
    simp [System.history, System.memory, System.start, creations]
  · cases asked <;> rfl
  · rw [System.start, List.forall₂_map_right_iff, List.forall₂_same]
    exact fun c hc => ⟨_, rfl, Creation.onTrack_start (hcalls c hc)⟩

/-- An operation that is under way has a turn less to go after each of its own. -/
theorem turnsLeft_step (h : Agreeing first calls s) (turn : Turn) {operation : Operation}
    (ho : s.operations[turn.operation]? = some operation) (hout : operation.outcome? = none) :
    ∃ rest, (s.step (.turn turn)).operations[turn.operation]? = some rest ∧
      rest.turnsLeft < operation.turnsLeft := by
  obtain ⟨c, hc, state, rfl, ht⟩ := System.exists_call h.follows ho
  obtain ⟨rest, hrest, hlt⟩ := System.turnsLeft_turn ho hout turn.order
  exact ⟨.ensure rest, hrest, hlt⟩

/-- An operation that ended has succeeded, and the nodes that its call makes sure of are there. -/
theorem outcome (h : Agreeing first calls s) {outcome : Answer}
    (ho : s.outcome number = some outcome) :
    outcome = .ok .null ∧ ∀ c, calls[number]? = some c → c.Ready s.memory [] := by
  obtain ⟨c, operation, hc, ⟨state, rfl, ht⟩, hout⟩ := System.exists_call_of_outcome h.follows ho
  cases state with
  | done outcome =>
    obtain rfl := Option.some.inj hout
    refine ⟨ht.1, fun c' hc' => ?_⟩
    rw [hc] at hc'
    obtain rfl := Option.some.inj hc'
    exact ht.2
  | _ => cases hout

/-- When all calls are over, the nodes are the first ones and those that the calls make sure of. -/
theorem has_iff (h : Agreeing first calls s) (hcalls : ∀ c ∈ calls, Path.IsValid c.path)
    (hall : ∀ i < calls.length, s.outcome i ≠ none) (q : String) :
    s.memory.has q = true ↔ first.has q = true ∨ ∃ c ∈ calls, c.Ensures q := by
  constructor
  · intro hq
    cases hfirst : first.has q with
    | true => exact .inl rfl
    | false =>
      obtain ⟨n, hn⟩ := Memory.has_iff.mp hq
      obtain ⟨c, hc, hmade⟩ := h.grown.made q n hfirst hn
      exact .inr ⟨c, hc, hmade.ensures⟩
  · rintro (hq | ⟨c, hc, hq⟩)
    · exact h.grown.has_of_first hq
    · obtain ⟨i, outcome, hi, hout⟩ := System.exists_outcome hall hc
      obtain ⟨before, hwanted, hbefore⟩ := (h.outcome hout).2 c hi
      rw [List.append_nil] at hwanted
      refine hbefore q ?_
      rw [← hwanted]
      exact (Creation.mem_wanted_iff (hcalls c hc)).mpr hq

end Agreeing

/-- Recursive creations by any number of callers agree, however their requests are interleaved. None
of them fails, and each is over after a number of its own turns that the length of its path bounds.
When all are over, the nodes are those that were there and those that the calls make sure of; the
former are as they were, and each of the others was created once, without a payload, in the mode and
with the access control list of one of the calls that make sure of it. -/
theorem creations_agree {m : Memory} (hm : m.Reachable) (ho : m.closed = false)
    (hroot : m.has Path.root = true) (asked : Bool) {calls : List Creation}
    (hcalls : ∀ c ∈ calls, Path.IsValid c.path) (turns : List Turn) :
    let s := (System.start m asked (calls.map Creation.operation)).interleave turns
    (∀ i outcome, s.outcome i = some outcome → outcome = .ok .null) ∧
    (∀ i c, calls[i]? = some c →
      2 * (Path.prefixes c.path).length + 1 ≤ turns.countP (·.operation = i) →
        s.outcome i = some (.ok .null)) ∧
    ((∀ i < calls.length, s.outcome i ≠ none) →
      (∀ q, s.memory.has q = true ↔ m.has q = true ∨ ∃ c ∈ calls, c.Ensures q) ∧
      (∀ q n, m.find? q = some n → creations s.history q = 0 ∧
        ∃ n', s.memory.find? q = some n' ∧ n.Agrees n') ∧
      (∀ q n, m.has q = false → s.memory.find? q = some n → creations s.history q = 1 ∧
        ∃ c ∈ calls, c.Made m.containers q n)) := by
  have hstart := Agreeing.start hm.consistent ho hroot asked hcalls
  have hstep : ∀ s turn, Agreeing m calls s → Agreeing m calls (s.step (.turn turn)) :=
    fun s turn h => h.step hcalls turn
  intro s
  have hs : Agreeing m calls s := System.interleave_induction hstart hstep turns
  refine ⟨fun i outcome hi => (hs.outcome hi).1, ?_, fun hall => ⟨hs.has_iff hcalls hall, ?_, ?_⟩⟩
  · intro i c hc hturns
    have hoper := System.operations_start m asked Creation.operation hc
    have hrank : c.operation.turnsLeft ≤ turns.countP (·.operation = i) :=
      Nat.le_trans (Ensure.turnsLeft_start c.job (hcalls c (List.mem_of_getElem? hc))) hturns
    obtain ⟨outcome, hout⟩ := System.outcome_interleave hstep
      (fun s turn operation h => h.turnsLeft_step turn) hstart hoper hrank
    rw [show s.outcome i = some outcome from hout, (hs.outcome hout).1]
  · intro q n hn
    refine ⟨?_, hs.grown.kept q n hn⟩
    rw [hs.grown.once, Memory.has_of_find? hn]
    rfl
  · intro q n hq hn
    refine ⟨?_, hs.grown.made q n hq hn⟩
    rw [hs.grown.once, hq, Memory.has_of_find? hn]
    rfl

/-- Two callers that take turns, one of whom wants containers, make two sibling paths of a new
store. -/
theorem creations_agree_siblings :
    let calls : List Creation :=
      [⟨[], "/a/b", none, none, none⟩, ⟨[], "/a/c", none, none, some (.bool true)⟩]
    let order : Arrangement := ⟨id, fun _ => .refl _⟩
    let turns : List Turn := (List.replicate 5 [⟨0, order⟩, ⟨1, order⟩]).flatten
    let s := (System.start {} false (calls.map Creation.operation)).interleave turns
    s.outcome 0 = some (.ok .null) ∧ s.outcome 1 = some (.ok .null) ∧
      ∀ q, s.memory.has q = true ↔ ({} : Memory).has q = true ∨ ∃ c ∈ calls, c.Ensures q := by
  intro calls order turns s
  have hvalid : ∀ c ∈ calls, Path.IsValid c.path := by decide
  have hreachable : ({} : Memory).Reachable := ⟨true, [], rfl⟩
  obtain ⟨-, hdone, hall⟩ := creations_agree hreachable rfl (by decide) false hvalid turns
  have hfirst : s.outcome 0 = some (.ok .null) := by
    refine hdone 0 _ rfl ?_
    rw [Path.prefixes]
    decide
  have hsecond : s.outcome 1 = some (.ok .null) := by
    refine hdone 1 _ rfl ?_
    rw [Path.prefixes]
    decide
  have hover : ∀ i < calls.length, s.outcome i ≠ none := by
    intro i hi
    obtain rfl | rfl : i = 0 ∨ i = 1 := by
      simp only [calls, List.length_cons, List.length_nil] at hi
      omega
    · simp [hfirst]
    · simp [hsecond]
  exact ⟨hfirst, hsecond, (hall hover).1⟩

end Concurrency

end TreeStore
