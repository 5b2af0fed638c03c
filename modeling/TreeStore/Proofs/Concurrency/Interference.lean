import TreeStore.Proofs.Concurrency.Creation
import TreeStore.Proofs.Operation.Scopes
import TreeStore.Proofs.Store.Root

/-!
# Recursive creation among other clients

While a recursive creation is under way, other clients may do to the nodes what they like, the ones
that it found or created included. What the operation goes by is then no longer true of the store,
but it was at some moment of the call. So it makes sure of nodes in the sense that each of them was
there, and it fails only if someone took away a node that it had found to be there.
-/

namespace TreeStore.Concurrency

namespace System

/-- A node was there at some moment of a run. -/
def Seen (s : System) (moves : List Move) (q : String) : Prop :=
  ∃ earlier, earlier <+: moves ∧ (s.run earlier).memory.has q = true

/-- Another client took a node away at some moment of a run. -/
def Taken (s : System) (moves : List Move) (q : String) : Prop :=
  ∃ earlier request, earlier ++ [.foreign request] <+: moves ∧
    (s.run earlier).memory.has q = true ∧ ((s.run earlier).memory.after request).has q = false

/-- Along a run, no other client closes the store or takes its root away. -/
def Spared (s : System) (moves : List Move) : Prop :=
  ∀ earlier request, earlier ++ [.foreign request] <+: moves →
    request ≠ .close ∧ ¬ request.TakesRoot (s.run earlier).memory

variable {s : System} {moves more : List Move} {move : Move} {q : String}

/-- What was seen stays seen when the run goes on. -/
theorem Seen.mono (h : s.Seen moves q) (hmore : moves <+: more) : s.Seen more q := by
  obtain ⟨earlier, hbegins, hq⟩ := h
  exact ⟨earlier, hbegins.trans hmore, hq⟩

/-- What was taken away stays taken. -/
theorem Taken.mono (h : s.Taken moves q) (hmore : moves <+: more) : s.Taken more q := by
  obtain ⟨earlier, request, hbegins, hq⟩ := h
  exact ⟨earlier, request, hbegins.trans hmore, hq⟩

/-- A run that is spared was so from the beginning. -/
theorem Spared.mono (h : s.Spared more) (hmore : moves <+: more) : s.Spared moves :=
  fun earlier request hbegins => h earlier request (hbegins.trans hmore)

/-- What is there at the end was seen. -/
theorem seen_of_has (h : (s.run moves).memory.has q = true) : s.Seen moves q :=
  ⟨moves, List.prefix_rfl, h⟩

/-- One more move shows what is there after it. -/
theorem seen_concat_iff : s.Seen (moves ++ [move]) q ↔
    s.Seen moves q ∨ ((s.run moves).step move).memory.has q = true := by
  constructor
  · rintro ⟨earlier, hbegins, hq⟩
    obtain rfl | hbegins := List.prefix_concat_iff.mp hbegins
    · rw [run_concat] at hq
      exact .inr hq
    · exact .inl ⟨earlier, hbegins, hq⟩
  · rintro (h | h)
    · exact h.mono (List.prefix_append _ _)
    · rw [← run_concat] at h
      exact seen_of_has h

end System

namespace Creation

variable {c : Creation} {m m' : Memory} {containers : Bool} {s s' : System} {seen : String → Prop}

/-- What a turn of the call does to the store: nothing, or it adds a node that the call makes sure
of. -/
inductive Grows (c : Creation) (m : Memory) : Memory → Prop
  | same : Grows c m m
  | added (q : String) (ensures : c.Ensures q) (free : m.has q = false) :
      Grows c m (m.attach (Path.parent q) q
        { data := [], acl := c.acl q, mode := c.mode m.containers })

/-- A store that grows offers containers as before. -/
theorem Grows.containers_eq (h : c.Grows m m') : m'.containers = m.containers := by
  cases h with
  | same => rfl
  | added q ensures free => rfl

/-- The session of a store that grows stays as it is. -/
theorem Grows.closed_eq (h : c.Grows m m') : m'.closed = m.closed := by
  cases h with
  | same => rfl
  | added q ensures free => rfl

/-- A store that grows loses no node. -/
theorem Grows.has (h : c.Grows m m') {q : String} (hq : m.has q = true) : m'.has q = true := by
  cases h with
  | same => exact hq
  | added p ensures free => rw [Memory.has_attach, hq, Bool.or_true]

/-- The difference between two states of a store: nodes that the call makes sure of, and nothing
else. -/
structure Adds (c : Creation) (m m' : Memory) : Prop where
  /-- The nodes that were there are as they were, but that each added one is a child of its parent.
  -/
  kept : ∀ q n, m.find? q = some n → ∃ n', m'.find? q = some n' ∧
    (n' = n ∨ ∃ child, Path.parent child = q ∧ m.has child = false ∧ m'.has child = true ∧
      n' = n.adopt (Path.leaf child))
  /-- The others are as the call creates them. -/
  made : ∀ q n, m.has q = false → m'.find? q = some n → c.Made m.containers q n

/-- All that is new is what the call makes sure of. -/
theorem Grows.adds (h : c.Grows m m') : c.Adds m m' := by
  cases h with
  | same =>
    refine ⟨fun q n hn => ⟨n, hn, .inl rfl⟩, fun q n hq hn => ?_⟩
    rw [Memory.has_of_find? hn] at hq
    cases hq
  | added child ensures free =>
    have hne := Path.parent_ne_self ensures.isAbove.valid ensures.ne_root
    constructor
    · intro q n hn
      have hq : q ≠ child := by
        rintro rfl
        rw [Memory.has_of_find? hn] at free
        cases free
      rw [Memory.find?_attach free hne, if_neg hq, hn]
      split
      · rename_i habove
        refine ⟨_, rfl, .inr ⟨child, habove.symm, free, ?_, rfl⟩⟩
        rw [Memory.has_attach, decide_eq_true rfl, Bool.true_or]
      · exact ⟨n, rfl, .inl rfl⟩
    · intro q n hq hn
      obtain ⟨rfl, rfl⟩ | ⟨n₀, hn₀, -⟩ := Memory.agrees_of_attach free hne hn
      · exact ⟨ensures, rfl, rfl, rfl, rfl⟩
      · rw [Memory.has_of_find? hn₀] at hq
        cases hq

/-- What an operation that carries out the call has found out holds of some store, all of whose
nodes were seen. It need be no state of the run: its nodes may have been there one after another. -/
def Remembers (c : Creation) (containers : Bool) (seen : String → Prop) (state : Ensure) : Prop :=
  ∃ past : Memory, past.containers = containers ∧ past.has Path.root = true ∧
    (∀ q, past.has q = true → seen q) ∧ c.OnTrack past state

/-- An operation may remember what others have seen as well. -/
theorem Remembers.mono {seen' : String → Prop} (hseen : ∀ q, seen q → seen' q) {state : Ensure}
    (h : c.Remembers containers seen state) : c.Remembers containers seen' state := by
  obtain ⟨past, hcontainers, hroot, hpast, ht⟩ := h
  exact ⟨past, hcontainers, hroot, fun q hq => hseen q (hpast q hq), ht⟩

/-- What surrounds the call and the flags that it is given can be written. -/
structure Writable (c : Creation) : Prop where
  /-- The surrounding context can be written. -/
  ambient : c.ambient.isOverlong = false
  /-- So can the flag for the last node, if it is given. -/
  makeLast : ∀ value, c.makeLast = some value → value.isOverlong = false
  /-- So can the one for containers. -/
  asContainers : ∀ value, c.asContainers = some value → value.isOverlong = false

/-- The context of such a call can be written. -/
theorem Writable.context (h : c.Writable) : c.job.context.isOverlong = false := by
  rw [← Bool.not_eq_true]
  intro hover
  obtain hambient | ⟨pair, hmem, hpair⟩ := Context.isOverlong_extend hover
  · rw [h.ambient] at hambient
    cases hambient
  · simp only [Operation.given, List.mem_append, List.mem_cons, List.not_mem_nil, or_false,
      List.mem_map, Option.mem_toList] at hmem
    obtain ((rfl | rfl) | ⟨value, hvalue, rfl⟩) | ⟨value, hvalue, rfl⟩ := hmem
    · simp at hpair
    · simp at hpair
    · rw [h.makeLast value hvalue] at hpair
      cases hpair
    · rw [h.asContainers value hvalue] at hpair
      cases hpair

/-- A failure of the call: a node above its path is missing. -/
structure Stranded (c : Creation) (a : String) (failure : Failure) : Prop where
  /-- The failure names the node, and left the call. -/
  eq_leaving : failure = Failure.leaving (Problem.ofStore .noNode a : Problem) c.job.context
  /-- It is not the root. -/
  ne_root : a ≠ Path.root
  /-- The node is on the path. -/
  isAbove : Path.IsAbove a c.path
  /-- It is not the last one. -/
  ne_path : a ≠ c.path

/-- The operation carries out the call: it goes by what was seen, or it failed because it misses a
node that was taken away. -/
def Carries (c : Creation) (containers : Bool) (seen taken : String → Prop)
    (operations : List Operation) : Prop :=
  ∃ state, operations = [.ensure state] ∧
    (c.Remembers containers seen state ∨
      ∃ failure a, state = .done (.error failure) ∧ c.Stranded a failure ∧ taken a)

/-- An operation carries out its call also when more was seen and taken away. -/
theorem Carries.mono {seen' taken taken' : String → Prop} (hseen : ∀ q, seen q → seen' q)
    (htaken : ∀ a, taken a → taken' a) {operations : List Operation}
    (h : c.Carries containers seen taken operations) :
    c.Carries containers seen' taken' operations := by
  obtain ⟨state, ho, hr | ⟨failure, a, hdone, hstranded, ha⟩⟩ := h
  · exact ⟨state, ho, .inl (hr.mono hseen)⟩
  · exact ⟨state, ho, .inr ⟨failure, a, hdone, hstranded, htaken a ha⟩⟩

/-- The store can be worked with: it is open and has its root, the mode for containers is its own,
and all its nodes were seen. -/
structure Working (seen : String → Prop) (s : System) : Prop where
  /-- It is in a state that requests lead to. -/
  reachable : s.memory.Reachable
  /-- The session is there. -/
  opened : s.memory.closed = false
  /-- So is the root. -/
  root : s.memory.has Path.root = true
  /-- The mode for containers is that of the store. -/
  mode : s.containerMode = Client.modeOf (.bool s.memory.containers)
  /-- The nodes that are there were seen. -/
  seen : ∀ q, s.memory.has q = true → seen q

/-- What a turn of the call makes of the store and of the operation. -/
structure Advances (c : Creation) (seen : String → Prop) (s s' : System) : Prop where
  /-- The store grows. -/
  grows : c.Grows s.memory s'.memory
  /-- The mode for containers is the same. -/
  mode : s'.containerMode = s.containerMode
  /-- The operation goes on from what it saw, or it misses a node that was there before. -/
  carries : c.Carries s.memory.containers (fun q => seen q ∨ s'.memory.has q = true)
    (fun a => seen a ∧ s'.memory.has a = false) s'.operations

/-- The call asks whether a node is there. What it sees is the present store. -/
theorem advances_probing (h : Working seen s) (hvalid : Path.IsValid c.path)
    {job : Ensure.Job} {path : String} {above missing : List String}
    (ho : s.operations = [.ensure (.probing job path above missing)])
    (hr : c.Remembers s.memory.containers seen (.probing job path above missing))
    (order : Arrangement) : c.Advances seen s (s.step (.turn ⟨0, order⟩)) := by
  obtain ⟨past, -, -, -, rfl, hp⟩ := hr
  have ho' : s.operations[0]? = some (.ensure (.probing c.job path above missing)) := by
    rw [ho]
    rfl
  rw [System.step_of_calling ho' rfl]
  simp only [Memory.serve_probe h.opened, ho]
  refine ⟨.same, rfl, _, rfl, .inl ?_⟩
  exact ⟨s.memory, rfl, h.root, fun q hq => .inl (h.seen q hq),
    onTrack_probed hvalid h.reachable.consistent h.root hp⟩

/-- The call asks which mode to create nodes in. -/
theorem advances_choosing (h : Working seen s) {job : Ensure.Job} {wanted : List String}
    (ho : s.operations = [.ensure (.choosing job wanted)])
    (hr : c.Remembers s.memory.containers seen (.choosing job wanted)) (order : Arrangement) :
    c.Advances seen s (s.step (.turn ⟨0, order⟩)) := by
  obtain ⟨past, hcontainers, hroot, hpast, rfl, hwants, hready⟩ := hr
  have ho' : s.operations[0]? = some (.ensure (.choosing c.job wanted)) := by
    rw [ho]
    rfl
  obtain ⟨asked, -, he⟩ := System.step_of_choosing ho' rfl order
  have hmode' : s.containerMode = c.mode past.containers := by
    rw [h.mode, hcontainers, mode, hwants, Bool.true_and]
    rfl
  rw [he]
  simp only [ho]
  refine ⟨.same, rfl, _, rfl, .inl ⟨past, hcontainers, hroot, fun q hq => .inl (hpast q hq), ?_⟩⟩
  rw [hmode']
  exact onTrack_create hready

/-- What was seen along the path, with the node that is to be created next. -/
theorem remembers_next {past : Memory} (hcontainers : past.containers = containers)
    (hroot : past.has Path.root = true) (hpast : ∀ q, past.has q = true → seen q) {path : String}
    {below : List String} (hready : c.Ready past (path :: below)) (hpath : seen path) :
    c.Remembers containers seen (Ensure.create c.job (c.mode containers) below) := by
  refine ⟨past.insert path default, hcontainers, ?_, fun q hq => ?_, ?_⟩
  · rw [Memory.has_insert, hroot, Bool.or_true]
  · rw [Memory.has_insert, Bool.or_eq_true, decide_eq_true_iff] at hq
    obtain rfl | hq := hq
    · exact hpath
    · exact hpast q hq
  · have hmono : ∀ q, past.has q = true → (past.insert path default).has q = true := by
      intro q hq
      rw [Memory.has_insert, hq, Bool.or_true]
    have hhas : (past.insert path default).has path = true := by
      rw [Memory.has_insert, decide_eq_true rfl, Bool.true_or]
    rw [← hcontainers]
    exact onTrack_create ((hready.mono hmono).next hhas)

/-- The call creates a node, or someone else was faster, or someone took its parent away. -/
theorem advances_creating (h : Working seen s) (hvalid : Path.IsValid c.path)
    {job : Ensure.Job} {mode : CreateMode} {path : String} {below : List String}
    (ho : s.operations = [.ensure (.creating job mode path below)])
    (hr : c.Remembers s.memory.containers seen (.creating job mode path below))
    (order : Arrangement) : c.Advances seen s (s.step (.turn ⟨0, order⟩)) := by
  obtain ⟨past, hcontainers, hpastRoot, hpast, rfl, rfl, hready⟩ := hr
  rw [hcontainers] at ho
  have ho' : s.operations[0]? =
      some (.ensure (.creating c.job (c.mode s.memory.containers) path below)) := by
    rw [ho]
    rfl
  have hensures := (mem_wanted_iff hvalid).mp hready.mem_wanted
  have hup := hensures.isAbove.valid
  rw [System.step_of_calling ho' rfl]
  simp only [c.serve_create hup h.opened order.apply, ho]
  cases hparent : s.memory.has (Path.parent path) with
  | false =>
    refine ⟨.same, rfl, _, rfl, .inr ⟨_, Path.parent path, rfl, ⟨rfl, ?_, ?_, ?_⟩, ?_, hparent⟩⟩
    · intro he
      rw [he, h.root] at hparent
      cases hparent
    · exact (Path.parent_isAbove hup).trans hensures.isAbove
    · intro he
      have hnot := Path.not_isAbove_parent hup hensures.ne_root
      rw [he] at hnot
      exact hnot hensures.isAbove
    · exact hpast _ (hready.has_parent hvalid hpastRoot)
  | true =>
    cases hhas : s.memory.has path with
    | true =>
      refine ⟨.same, rfl, _, rfl, .inl ?_⟩
      exact (remembers_next hcontainers hpastRoot hpast hready (h.seen path hhas)).mono
        fun q hq => .inl hq
    | false =>
      refine ⟨.added path hensures hhas, rfl, _, rfl, .inl ?_⟩
      refine remembers_next hcontainers hpastRoot (fun q hq => .inl (hpast q hq)) hready (.inr ?_)
      change (s.memory.attach _ path _).has path = true
      rw [Memory.has_attach, decide_eq_true rfl, Bool.true_or]

end Creation

/-- After some moves from a start, a call goes on from what it saw since then, or it misses a node
that another client took away. Every node that was seen is there unless another client took it away.
-/
structure Enduring (c : Creation) (s : System) (moves : List Move) : Prop
    extends Creation.Working (s.Seen moves) (s.run moves) where
  /-- It is the same kind of store. -/
  containers : (s.run moves).memory.containers = s.memory.containers
  /-- The nodes that were seen are there or were taken away. -/
  kept : ∀ q, s.Seen moves q → (s.run moves).memory.has q = true ∨ s.Taken moves q
  /-- The operation carries out the call. -/
  carries : c.Carries s.memory.containers (s.Seen moves) (s.Taken moves) (s.run moves).operations

namespace Enduring

variable {c : Creation} {s : System} {moves : List Move} {move : Move}

/-- A turn of the call does nothing when the call is over. -/
theorem advances (h : Enduring c s moves) (hvalid : Path.IsValid c.path) (turn : Turn) :
    (s.run moves).step (.turn turn) = s.run moves ∨
      c.Advances (s.Seen moves) (s.run moves) ((s.run moves).step (.turn turn)) := by
  obtain ⟨number, order⟩ := turn
  obtain ⟨state, ho, hcarries⟩ := h.carries
  cases number with
  | succ number => exact .inl (System.step_of_absent (by rw [ho]; rfl) order)
  | zero =>
    have hdone : ∀ outcome, state = .done outcome →
        (s.run moves).step (.turn ⟨0, order⟩) = s.run moves := by
      rintro outcome rfl
      exact System.step_of_finished (by rw [ho]; rfl) rfl order
    obtain hr | ⟨failure, a, hstate, -⟩ := hcarries
    · rw [← h.containers] at hr
      cases state with
      | probing job path above missing =>
        exact .inr (Creation.advances_probing h.toWorking hvalid ho hr order)
      | choosing job wanted => exact .inr (Creation.advances_choosing h.toWorking ho hr order)
      | creating job mode path below =>
        exact .inr (Creation.advances_creating h.toWorking hvalid ho hr order)
      | done outcome => exact .inl (hdone outcome rfl)
    · exact .inl (hdone _ hstate)

/-- The store grows in a turn of the call, if at all. -/
theorem grows (h : Enduring c s moves) (hvalid : Path.IsValid c.path) (turn : Turn) :
    c.Grows (s.run moves).memory ((s.run moves).step (.turn turn)).memory := by
  obtain he | hadv := h.advances hvalid turn
  · rw [he]
    exact .same
  · exact hadv.grows

/-- A move that leaves the operation alone leaves it what it goes by. -/
private theorem carries_mono (h : Enduring c s moves) :
    c.Carries s.memory.containers (s.Seen (moves ++ [move])) (s.Taken (moves ++ [move]))
      (s.run moves).operations :=
  h.carries.mono (fun _ hq => hq.mono (List.prefix_append _ _))
    fun _ ha => ha.mono (List.prefix_append _ _)

/-- What is to be checked of a move. -/
private theorem extend (h : Enduring c s moves)
    (hopened : ((s.run moves).step move).memory.closed = false)
    (hroot : ((s.run moves).step move).memory.has Path.root = true)
    (hcontainers : ((s.run moves).step move).memory.containers = (s.run moves).memory.containers)
    (hmode : ((s.run moves).step move).containerMode = (s.run moves).containerMode)
    (hkept : ∀ q, (s.run moves).memory.has q = true →
      ((s.run moves).step move).memory.has q = true ∨ s.Taken (moves ++ [move]) q)
    (hcarries : c.Carries s.memory.containers (s.Seen (moves ++ [move]))
      (s.Taken (moves ++ [move])) ((s.run moves).step move).operations) :
    Enduring c s (moves ++ [move]) := by
  have hseen : ∀ q, (s.run (moves ++ [move])).memory.has q = true → s.Seen (moves ++ [move]) q :=
    fun q hq => System.seen_of_has hq
  rw [System.run_concat] at hseen
  refine { reachable := ?_, opened := ?_, root := ?_, mode := ?_, seen := ?_, containers := ?_,
           kept := ?_, carries := ?_ } <;> rw [System.run_concat]
  · exact System.reachable_step h.reachable move
  · exact hopened
  · exact hroot
  · rw [hmode, h.mode, hcontainers]
  · exact hseen
  · exact hcontainers.trans h.containers
  · intro q hq
    obtain hq | hq := System.seen_concat_iff.mp hq
    · obtain hhas | htaken := h.kept q hq
      · exact hkept q hhas
      · exact .inr (htaken.mono (List.prefix_append _ _))
    · exact .inl hq
  · exact hcarries

/-- A turn of the call keeps all nodes. -/
theorem turn (h : Enduring c s moves) (hvalid : Path.IsValid c.path) (turn : Turn) :
    Enduring c s (moves ++ [.turn turn]) := by
  have hgrows := h.grows hvalid turn
  have hkept : ∀ q, (s.run moves).memory.has q = true →
      ((s.run moves).step (.turn turn)).memory.has q = true ∨ s.Taken (moves ++ [.turn turn]) q :=
    fun q hq => .inl (hgrows.has hq)
  have hopened := hgrows.closed_eq.trans h.opened
  obtain he | hadv := h.advances hvalid turn
  · refine h.extend hopened (hgrows.has h.root) hgrows.containers_eq (by rw [he]) hkept ?_
    rw [he]
    exact h.carries_mono
  · refine h.extend hopened (hgrows.has h.root) hgrows.containers_eq hadv.mode hkept ?_
    rw [← h.containers]
    refine hadv.carries.mono (fun q hq => System.seen_concat_iff.mpr hq) ?_
    rintro a ⟨hseen, hgone⟩
    obtain hhas | htaken := h.kept a hseen
    · rw [hgrows.has hhas] at hgone
      cases hgone
    · exact htaken.mono (List.prefix_append _ _)

/-- A request of another client may take nodes away, though not the root. -/
theorem foreign (h : Enduring c s moves) {request : Memory.Request} (hclose : request ≠ .close)
    (hroot : ¬ request.TakesRoot (s.run moves).memory) :
    Enduring c s (moves ++ [.foreign request]) := by
  have hmemory : ((s.run moves).step (.foreign request)).memory =
      (s.run moves).memory.after request := rfl
  have hcontainers := (s.run moves).memory.containers_after request
  refine h.extend ?_ ?_ hcontainers ?_ ?_ h.carries_mono
  · rw [hmemory, Memory.closed_after hclose, h.opened]
  · rw [hmemory, Memory.has_root_after h.reachable]
    exact ⟨h.root, hroot⟩
  · simp only [System.containerMode, hmemory, hcontainers]
    rfl
  · intro q hq
    cases hafter : ((s.run moves).memory.after request).has q with
    | true => exact .inl (by rw [hmemory, hafter])
    | false => exact .inr ⟨moves, request, List.prefix_rfl, hq, hafter⟩

/-- A call begins with what it sees at its start. -/
theorem start {m : Memory} (hm : m.Reachable) (ho : m.closed = false)
    (hroot : m.has Path.root = true) (asked : Bool) (hvalid : Path.IsValid c.path) :
    Enduring c (System.start m asked [c.operation]) [] := by
  refine ⟨⟨hm, ho, hroot, ?_, fun q hq => System.seen_of_has hq⟩, rfl, fun q hq => ?_, _, rfl, ?_⟩
  · cases asked <;> rfl
  · obtain ⟨earlier, hbegins, hq⟩ := hq
    rw [List.prefix_nil.mp hbegins] at hq
    exact .inl hq
  · exact .inl ⟨m, rfl, hroot, fun q hq => System.seen_of_has hq, Creation.onTrack_start hvalid⟩

/-- The call goes on whatever the other clients do, as long as they spare the store. -/
theorem run (h : Enduring c s []) (hvalid : Path.IsValid c.path) (hspared : s.Spared moves) :
    Enduring c s moves := by
  induction moves using List.reverseRecOn with
  | nil => exact h
  | append_singleton moves move ih =>
    have hbefore := ih (hspared.mono (List.prefix_append _ _))
    cases move with
    | turn turn => exact hbefore.turn hvalid turn
    | foreign request =>
      obtain ⟨hclose, hroot⟩ := hspared moves request List.prefix_rfl
      exact hbefore.foreign hclose hroot

/-- How the call ended, if it did. -/
theorem outcome (h : Enduring c s moves) (hvalid : Path.IsValid c.path) {outcome : Answer}
    (hout : (s.run moves).outcome 0 = some outcome) :
    (outcome = .ok .null ∧ ∀ q, c.Ensures q → s.Seen moves q) ∨
      ∃ failure a, outcome = .error failure ∧ c.Stranded a failure ∧ s.Taken moves a := by
  obtain ⟨state, ho, hcarries⟩ := h.carries
  rw [System.outcome, ho] at hout
  obtain ⟨past, -, -, hpast, ht⟩ | ⟨failure, a, rfl, hstranded, htaken⟩ := hcarries
  · cases state with
    | done other =>
      obtain rfl := Option.some.inj hout
      obtain ⟨rfl, before, hwanted, hbefore⟩ := ht
      refine .inl ⟨rfl, fun q hq => hpast q (hbefore q ?_)⟩
      rw [List.append_nil] at hwanted
      rw [← hwanted, Creation.mem_wanted_iff hvalid]
      exact hq
    | _ => cases hout
  · obtain rfl := Option.some.inj hout
    exact .inr ⟨failure, a, rfl, hstranded, htaken⟩

end Enduring

/-- The call is over after a number of its turns that the length of its path bounds. -/
theorem Creation.outcome_of_turns (c : Creation) (hvalid : Path.IsValid c.path) (m : Memory)
    (asked : Bool) {moves : List Move}
    (hturns : 2 * (Path.prefixes c.path).length + 1 ≤ moves.countP (Move.isTurnOf 0)) :
    ∃ outcome, ((System.start m asked [c.operation]).run moves).outcome 0 = some outcome := by
  have hrank : (Operation.ensure (Ensure.start c.job c.path)).turnsLeft ≤
      moves.countP (Move.isTurnOf 0) :=
    Nat.le_trans (Ensure.turnsLeft_start c.job hvalid) hturns
  refine System.outcome_of_turns
    (fun s (hs : ∃ state, s.operations[0]? = some (.ensure state)) move _ => ?_)
    (fun s order operation hs ho hout => ?_) ⟨_, rfl⟩ rfl hrank
  · obtain ⟨state, ho⟩ := hs
    by_cases hm : ∃ order, move = .turn ⟨0, order⟩
    · obtain ⟨order, rfl⟩ := hm
      cases hout : (Operation.ensure state).outcome? with
      | none =>
        obtain ⟨rest, hrest, -⟩ := System.turnsLeft_turn ho hout order
        exact ⟨rest, hrest⟩
      | some outcome =>
        rw [System.step_of_finished ho (Operation.next_of_outcome? hout)]
        exact ⟨state, ho⟩
    · rw [System.operations_step fun order he => hm ⟨order, he⟩]
      exact ⟨state, ho⟩
  · obtain ⟨state, hs⟩ := hs
    rw [hs] at ho
    obtain rfl := Option.some.inj ho
    obtain ⟨rest, hrest, hlt⟩ := System.turnsLeft_turn hs hout order
    exact ⟨.ensure rest, hrest, hlt⟩

/-- A recursive creation among other clients that do as they please, but for closing the store and
taking its root away. Its turns add nodes that it makes sure of and change nothing else, and it is
over after a number of them that the length of its path bounds. Either it returns, and each node
that it makes sure of was there at some moment of the call; or it fails because a node above its
path, other than the root, is missing, which another client took away during the call. This failure
leaves the call as it is, unless what surrounds the call or one of its flags cannot be written. -/
theorem creation_endures {m : Memory} (hm : m.Reachable) (ho : m.closed = false)
    (hroot : m.has Path.root = true) (asked : Bool) {c : Creation} (hpath : Path.IsValid c.path)
    {moves : List Move} (hspared : (System.start m asked [c.operation]).Spared moves) :
    let s := System.start m asked [c.operation]
    (∀ before turn, before ++ [.turn turn] <+: moves →
      c.Adds (s.run before).memory (s.run (before ++ [.turn turn])).memory) ∧
    (2 * (Path.prefixes c.path).length + 1 ≤ moves.countP (Move.isTurnOf 0) →
      ∃ outcome, (s.run moves).outcome 0 = some outcome) ∧
    ∀ outcome, (s.run moves).outcome 0 = some outcome →
      ∃ during, during <+: moves ∧ (s.run during).outcome 0 = some outcome ∧
        (∀ earlier, earlier <+: during → earlier ≠ during →
          (s.run earlier).outcome 0 = none) ∧
        ((outcome = .ok .null ∧ ∀ q, c.Ensures q → s.Seen during q) ∨
          ∃ (failure : Failure) (a : String), outcome = .error failure ∧
            failure = Failure.leaving (Problem.ofStore .noNode a : Problem) c.job.context ∧
            (c.Writable → failure.problem = .ofStore .noNode a) ∧
            a ≠ Path.root ∧ Path.IsAbove a c.path ∧ a ≠ c.path ∧ s.Taken during a) := by
  intro s
  have hstart : Enduring c s [] := .start hm ho hroot asked hpath
  refine ⟨fun before turn hbegins => ?_, c.outcome_of_turns hpath m asked, fun outcome hend => ?_⟩
  · have hbefore : before <+: moves := (List.prefix_append _ _).trans hbegins
    have hgrows := (hstart.run hpath (hspared.mono hbefore)).grows hpath turn
    rw [System.run_concat]
    exact hgrows.adds
  · obtain ⟨during, hbegins, hout, hfirst⟩ := System.exists_first hend
    have hrun := hstart.run hpath (hspared.mono hbegins)
    refine ⟨during, hbegins, hout, hfirst, ?_⟩
    obtain hreturned | ⟨failure, a, he, hstranded, htaken⟩ := hrun.outcome hpath hout
    · exact .inl hreturned
    · refine .inr ⟨failure, a, he, hstranded.eq_leaving, fun hwritable => ?_, hstranded.ne_root,
        hstranded.isAbove, hstranded.ne_path, htaken⟩
      rw [hstranded.eq_leaving]
      exact (Failure.leaving_problem _ hwritable.context).1

/-- A node that was just created is deleted before the node below it can be created. -/
theorem creation_endures_deletion :
    let c : Creation := ⟨[], "/a/b", none, none, none⟩
    let turn : Move := .turn ⟨0, id, fun _ => .refl _⟩
    let moves := [turn, turn, turn, .foreign (.call (.delete "/a" anyVersion)), turn]
    let s := System.start {} false [c.operation]
    ∃ during failure a, during <+: moves ∧ (s.run during).outcome 0 = some (.error failure) ∧
      failure.problem = .ofStore .noNode a ∧ a ≠ Path.root ∧ s.Taken during a := by
  intro c turn moves s
  have hreachable : ({} : Memory).Reachable := ⟨true, [], rfl⟩
  have hspared : s.Spared moves := by
    intro earlier request hbegins
    have hmem : Move.foreign request ∈ moves := hbegins.subset (by simp)
    obtain rfl : request = .call (.delete "/a" anyVersion) := by simpa [moves, turn] using hmem
    refine ⟨by simp, fun ⟨version, node, he, _⟩ => ?_⟩
    simp [Path.root] at he
  have hfails : ((s.run moves).outcome 0).any (fun outcome => !outcome.isOk) = true := by
    decide +kernel
  obtain ⟨outcome, hend, herror⟩ := (Option.any_eq_true _ _).mp hfails
  obtain ⟨-, -, hover⟩ := creation_endures hreachable rfl (by decide) false (by decide) hspared
  obtain ⟨during, hbegins, hout, -, ⟨rfl, -⟩ | hfailed⟩ := hover outcome hend
  · cases herror
  · obtain ⟨failure, a, rfl, -, hproblem, hne, -, -, htaken⟩ := hfailed
    have hwritable : c.Writable := ⟨rfl, by simp [c], by simp [c]⟩
    exact ⟨during, failure, a, hbegins, hout, hproblem hwritable, hne, htaken⟩

end TreeStore.Concurrency
