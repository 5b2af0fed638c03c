import TreeStore.Proofs.Concurrency.System
import Mathlib.Data.List.Infix

/-!
# The life of a node

A node lives from its creation to its removal, and another node may live at the same path later on.
All that is ever done to a living node is to replace its payload, which moves its version on by one:
its version counts the updates, and a client that names the version that it read has its update or
its deletion refused if another update came first.
-/

namespace TreeStore

/-- A node that was created with a payload, an access control list and a mode, and that was given
other payloads since then, one after the other. -/
structure Node.Holds (n : Node) (data : List UInt8) (acl : List Acl) (mode : CreateMode)
    (updates : List (List UInt8)) : Prop where
  /-- It holds the payload that it was given last. -/
  data : n.data = updates.getLastD data
  /-- The access control list is the one that it was created with. -/
  acl : n.acl = acl
  /-- The mode is the one that it was created in. -/
  mode : n.mode = mode
  /-- The version is the number of updates. -/
  version : n.version = updates.length

namespace Node.Holds

variable {n n' : Node} {data : List UInt8} {acl : List Acl} {mode : CreateMode}
  {updates : List (List UInt8)}

theorem created (data : List UInt8) (acl : List Acl) (mode : CreateMode) :
    Node.Holds { data, acl, mode } data acl mode [] := ⟨rfl, rfl, rfl, rfl⟩

theorem agrees (h : n.Holds data acl mode updates) (ha : n.Agrees n') :
    n'.Holds data acl mode updates :=
  ⟨ha.data.trans h.data, ha.acl.trans h.acl, ha.mode.trans h.mode, ha.version.trans h.version⟩

theorem written (h : n.Holds data acl mode updates) (payload : List UInt8) :
    (n.written payload).Holds data acl mode (updates ++ [payload]) where
  data := by simp [Node.written]
  acl := h.acl
  mode := h.mode
  version := by simp [Node.written, h.version]

end Node.Holds

namespace Concurrency

variable {s : System} {p : String} {before during : List Move} {data : List UInt8} {acl : List Acl}
  {mode : CreateMode}

/-- The payload that a request gave the node at a path. -/
def Event.written? (event : Event) (p : String) : Option (List UInt8) :=
  event.request.written? event.answer p

/-- Whether a request that expected a version gave the node at a path another payload. -/
def Event.updatedAt (event : Event) (p : String) (version : Int) : Bool :=
  match event.request with
  | .setData _ _ expected => decide (expected = version) && (event.written? p).isSome
  | _ => false

/-- The payloads that the node at a path was given, the earliest first. -/
def updates (history : List Event) (p : String) : List (List UInt8) :=
  history.filterMap (·.written? p)

theorem updates_append (earlier later : List Event) (p : String) :
    updates (earlier ++ later) p = updates earlier p ++ updates later p :=
  List.filterMap_append

theorem Event.updatedAt_of_not_written {event : Event} (h : event.written? p = none)
    (version : Int) : event.updatedAt p version = false := by
  rw [updatedAt]
  split
  · rw [h, Option.isSome_none, Bool.and_false]
  · rfl

theorem Event.written?_of_capability {event : Event} (h : event.request = .call .capability) :
    event.written? p = none := by
  rw [written?, h]
  rfl

/-- A deletion that a version is named for is refused unless the node is at that version. -/
theorem version_of_deleted {m : Memory} {n : Node} (hn : m.find? p = some n) {version : Int}
    (hversion : 0 ≤ version) {value : Value}
    (h : (m.handle (.call (.delete p version))).2 = .ok value) : version = n.version := by
  have hanswer : (m.handle (.call (.delete p version))).2 =
      .of (fun _ => .null) (m.delete p version).2 := rfl
  rw [hanswer] at h
  obtain ⟨problem, -, he⟩ | ⟨node, -, -, hnode, -, hmatches, -⟩ := m.delete_cases p version
  · rw [he] at h
    cases h
  · rw [hn] at hnode
    obtain rfl := Option.some.inj hnode
    simp only [Memory.versionMatches, anyVersion, Bool.or_eq_true, beq_iff_eq] at hmatches
    omega

/-- A node comes to be at a path, as it was created with: it is the root of a new store, or the last
of the moves added it where there was none. -/
inductive Born (s : System) (p : String) :
    List Move → List UInt8 → List Acl → CreateMode → Prop where
  | root (h : p = Path.root) : Born s p [] [] [] .persistent
  | created {moves : List Move} {move : Move} {number : Option Nat} {path : String}
      {data : List UInt8} {acl : List Acl} {mode : CreateMode}
      (free : (s.run moves).memory.has p = false)
      (onRecord : (s.run (moves ++ [move])).history = (s.run moves).history ++
        [⟨number, .call (.create path data acl mode), .ok (.str p)⟩]) :
      Born s p (moves ++ [move]) data acl mode

/-- A node is born by the first moves, and it has not been removed in those that followed. -/
structure Lives (s : System) (p : String) (before during : List Move) (data : List UInt8)
    (acl : List Acl) (mode : CreateMode) : Prop where
  /-- It was born. -/
  born : Born s p before data acl mode
  /-- It was there all the time. -/
  stays : ∀ earlier, earlier <+: during → (s.run (before ++ earlier)).memory.has p = true

theorem Lives.of_concat {move : Move} (h : Lives s p before (during ++ [move]) data acl mode) :
    Lives s p before during data acl mode :=
  ⟨h.born, fun earlier he => h.stays earlier (he.trans (List.prefix_append _ _))⟩

/-- What is on record of the moves in the life of a node, and the node that they led to. -/
structure Counted (p : String) (data : List UInt8) (acl : List Acl) (mode : CreateMode)
    (m : Memory) (since : List Event) (n : Node) : Prop where
  /-- The node is there. -/
  here : m.find? p = some n
  /-- It holds what it was given. -/
  holds : n.Holds data acl mode (updates since p)
  /-- At each version there was one update at most. -/
  once : ∀ version : Int, 0 ≤ version → since.countP (·.updatedAt p version) ≤ 1
  /-- There was none at the present version yet, nor at later ones. -/
  ahead : ∀ version : Int, n.version ≤ version → since.countP (·.updatedAt p version) = 0

namespace Counted

variable {m m' : Memory} {since more : List Event} {n n' : Node}

/-- Nothing is written to the node. -/
theorem kept (h : Counted p data acl mode m since n) (hn' : m'.find? p = some n')
    (ha : n.Agrees n') (hmore : ∀ event ∈ more, event.written? p = none) :
    Counted p data acl mode m' (since ++ more) n' := by
  have hnone : updates more p = [] := List.filterMap_eq_nil_iff.mpr hmore
  have hcount (version : Int) : more.countP (·.updatedAt p version) = 0 := by
    rw [List.countP_eq_zero]
    intro event hmem
    simp [Event.updatedAt_of_not_written (hmore event hmem)]
  constructor
  · exact hn'
  · rw [updates_append, hnone, List.append_nil]
    exact h.holds.agrees ha
  · intro version hversion
    rw [List.countP_append, hcount]
    exact h.once version hversion
  · intro version hversion
    rw [ha.version] at hversion
    rw [List.countP_append, hcount, h.ahead version hversion]

/-- The node is given another payload, which no client did at this version before. -/
theorem written (h : Counted p data acl mode m since n) {payload : List UInt8} {version : Int}
    {event : Event} (hn' : m'.find? p = some (n.written payload))
    (hrequest : event.request = .setData p payload version)
    (hmatches : Memory.versionMatches version n = true)
    (hwritten : event.written? p = some payload) :
    Counted p data acl mode m' (since ++ [event]) (n.written payload) := by
  have hupdated (other : Int) : event.updatedAt p other = decide (version = other) := by
    rw [Event.updatedAt, hrequest, hwritten]
    exact Bool.and_true _
  have hversion : version = anyVersion ∨ version = n.version := by
    simpa [Memory.versionMatches] using hmatches
  rw [anyVersion] at hversion
  constructor
  · exact hn'
  · have hone : updates [event] p = [payload] := List.filterMap_cons_some hwritten
    rw [updates_append, hone]
    exact h.holds.written payload
  · intro other hother
    rw [List.countP_append, List.countP_singleton, hupdated]
    by_cases he : version = other
    · -- The node was at the version that the request expected, so that none expected it before.
      rw [h.ahead other (by omega)]
      split <;> omega
    · rw [decide_eq_false he]
      exact h.once other hother
  · intro other hother
    have hlater : (n.version : Int) + 1 ≤ other := hother
    rw [List.countP_append, List.countP_singleton, hupdated,
      decide_eq_false (by omega : ¬version = other), h.ahead other (by omega)]
    rfl

/-- A move that leaves the node where it is keeps the count. -/
theorem step (h : Counted p data acl mode s.memory since n) {move : Move}
    (hstays : (s.step move).memory.has p = true) :
    ∃ more n', (s.step move).history = s.history ++ more ∧
      Counted p data acl mode (s.step move).memory (since ++ more) n' := by
  obtain ⟨hmemory, asked, hhistory, hasked⟩ | ⟨event, hmemory, hhistory, hanswer⟩ :=
    s.step_cases move
  · refine ⟨asked, n, hhistory, h.kept ?_ (.refl n) fun event hmem =>
      Event.written?_of_capability (hasked event hmem)⟩
    rw [hmemory]
    exact h.here
  obtain ⟨n', hn'⟩ := Memory.has_iff.mp hstays
  have hreads : event.written? p =
      event.request.written? (s.memory.handle event.request).2 p := by
    obtain ⟨path, hchildren⟩ | hanswer := hanswer
    · rw [Event.written?, hchildren]
      rfl
    · rw [Event.written?, hanswer]
  have hafter := hn'
  rw [hmemory] at hafter
  obtain ⟨n₀, hn₀, ha, hnone⟩ | ⟨payload, version, n₀, hrequest, hn₀, hmatches, hok, rfl⟩ |
    ⟨-, -, -, -, -, hfree, -⟩ := Memory.find?_after_cases hafter
  · rw [h.here] at hn₀
    obtain rfl := Option.some.inj hn₀
    refine ⟨[event], n', hhistory, h.kept hn' ha fun other hmem => ?_⟩
    rw [List.mem_singleton.mp hmem, hreads, hnone]
  · rw [h.here] at hn₀
    obtain rfl := Option.some.inj hn₀
    refine ⟨[event], _, hhistory, h.written hn' hrequest hmatches ?_⟩
    rw [hreads, hok, hrequest]
    exact if_pos rfl
  · rw [Memory.has_of_find? h.here] at hfree
    cases hfree

end Counted

variable {containers : Bool} {moves : List Move}

/-- A node that was just born holds what it was created with. -/
theorem Born.counted (hs : s.memory = { containers }) (hborn : Born s p before data acl mode)
    (hhas : (s.run before).memory.has p = true) :
    ∃ n, Counted p data acl mode (s.run before).memory [] n := by
  cases hborn with
  | root h =>
    subst h
    refine ⟨_, ?_, .created _ _ _, fun _ _ => Nat.zero_le _, fun _ _ => rfl⟩
    change s.memory.find? Path.root = _
    rw [hs]
    rfl
  | @created moves move number path _ _ _ free onRecord =>
    rw [System.run_concat] at hhas onRecord ⊢
    obtain ⟨-, asked, hhistory, hasked⟩ | ⟨event, hmemory, hhistory, -⟩ :=
      (s.run moves).step_cases move
    · rw [onRecord] at hhistory
      obtain rfl := List.append_cancel_left hhistory
      cases hasked _ List.mem_cons_self
    rw [onRecord] at hhistory
    obtain rfl := List.singleton_inj.mp (List.append_cancel_left hhistory)
    obtain ⟨n, hn⟩ := Memory.has_iff.mp hhas
    have hafter := hn
    rw [hmemory] at hafter
    obtain ⟨n₀, hn₀, -⟩ | ⟨_, _, _, hrequest, -⟩ | ⟨_, _, _, _, hrequest, -, -, -, rfl⟩ :=
      Memory.find?_after_cases hafter
    · rw [Memory.has_of_find? hn₀] at free
      cases free
    · cases hrequest
    · cases hrequest
      exact ⟨_, hn, .created _ _ _, fun _ _ => Nat.zero_le _, fun _ _ => rfl⟩

/-- The updates of a node are counted all its life. -/
theorem Lives.counted (hs : s.memory = { containers }) (h : Lives s p before during data acl mode) :
    ∃ since n, (s.run (before ++ during)).history = (s.run before).history ++ since ∧
      Counted p data acl mode (s.run (before ++ during)).memory since n := by
  induction during using List.reverseRecOn with
  | nil =>
    have hhas := h.stays [] (List.prefix_refl _)
    rw [List.append_nil] at hhas ⊢
    obtain ⟨n, hn⟩ := h.born.counted hs hhas
    exact ⟨[], n, (List.append_nil _).symm, hn⟩
  | append_singleton during move ih =>
    obtain ⟨since, n, hhistory, hcounted⟩ := ih h.of_concat
    have hstays := h.stays _ (List.prefix_refl _)
    rw [← List.append_assoc, System.run_concat] at hstays ⊢
    obtain ⟨more, n', hmore, hcounted'⟩ := hcounted.step hstays
    refine ⟨since ++ more, n', ?_, hcounted'⟩
    rw [hmore, hhistory, List.append_assoc]

/-- A node that is there after a move and was not before is born by it. -/
theorem Born.of_appeared {move : Move} (hfree : (s.run moves).memory.has p = false)
    (hhas : (s.run (moves ++ [move])).memory.has p = true) :
    ∃ data acl mode, Born s p (moves ++ [move]) data acl mode := by
  have habsent (n : Node) : (s.run moves).memory.find? p ≠ some n := by
    rw [Memory.find?_eq_none_iff.mpr hfree]
    nofun
  obtain ⟨n, hn⟩ := Memory.has_iff.mp hhas
  rw [System.run_concat] at hn
  obtain ⟨hmemory, -⟩ | ⟨⟨number, request, answer⟩, hmemory, hhistory, hanswer⟩ :=
    (s.run moves).step_cases move
  · rw [hmemory] at hn
    exact absurd hn (habsent n)
  rw [hmemory] at hn
  dsimp only at hn hanswer
  obtain ⟨n₀, hn₀, -⟩ | ⟨_, _, n₀, -, hn₀, -⟩ | ⟨path, data, acl, mode, rfl, -, -, hok, -⟩ :=
    Memory.find?_after_cases hn
  · exact absurd hn₀ (habsent n₀)
  · exact absurd hn₀ (habsent n₀)
  · obtain ⟨_, hchildren⟩ | rfl := hanswer
    · cases hchildren
    · rw [hok] at hhistory
      exact ⟨data, acl, mode, .created hfree (by rw [System.run_concat, hhistory])⟩

/-- Every node that is there was born at some time and has lived since. -/
theorem exists_lives (hs : s.memory = { containers })
    (hhas : (s.run moves).memory.has p = true) :
    ∃ before during data acl mode, moves = before ++ during ∧
      Lives s p before during data acl mode := by
  induction moves using List.reverseRecOn with
  | nil =>
    have hkeys : p ∈ s.memory.keys := Memory.mem_keys.mpr hhas
    rw [hs] at hkeys
    refine ⟨[], [], [], [], .persistent, rfl, .root (List.mem_singleton.mp hkeys),
      fun earlier he => ?_⟩
    rwa [List.prefix_nil.mp he]
  | append_singleton moves move ih =>
    cases hbefore : (s.run moves).memory.has p with
    | true =>
      obtain ⟨before, during, data, acl, mode, rfl, hlives⟩ := ih hbefore
      refine ⟨before, during ++ [move], data, acl, mode, List.append_assoc .., hlives.born,
        fun earlier he => ?_⟩
      obtain rfl | he := List.prefix_concat_iff.mp he
      · rwa [← List.append_assoc]
      · exact hlives.stays earlier he
    | false =>
      obtain ⟨data, acl, mode, hborn⟩ := Born.of_appeared hbefore hhas
      refine ⟨moves ++ [move], [], data, acl, mode, (List.append_nil _).symm, hborn,
        fun earlier he => ?_⟩
      rwa [List.prefix_nil.mp he, List.append_nil]

/-- Whatever operations and other clients do on a store, every node lives from its birth on, and all
its life its version is the number of updates that succeeded, its payload that of the last of them,
and its access control list and mode are those that it was created with. No two updates that expect
one version both succeed, and a deletion that expects a version succeeds only after as many updates.
-/
theorem updates_counted (containers asked : Bool) (operations : List Operation) (p : String) :
    let s := System.start { containers } asked operations
    (∀ moves, (s.run moves).memory.has p = true → ∃ before during data acl mode,
      moves = before ++ during ∧ Lives s p before during data acl mode) ∧
    ∀ before during data acl mode, Lives s p before during data acl mode → ∃ since n,
      (s.run (before ++ during)).history = (s.run before).history ++ since ∧
      (s.run (before ++ during)).memory.find? p = some n ∧
      n.Holds data acl mode (updates since p) ∧
      (∀ version : Int, 0 ≤ version → since.countP (·.updatedAt p version) ≤ 1) ∧
      ∀ (version : Int) (number : Option Nat) (move : Move) (value : Value), 0 ≤ version →
        (s.run (before ++ during ++ [move])).history = (s.run (before ++ during)).history ++
          [⟨number, .call (.delete p version), .ok value⟩] →
        version = (updates since p).length := by
  intro s
  have hs : s.memory = { containers } := rfl
  refine ⟨fun moves => exists_lives hs, fun before during data acl mode hlives => ?_⟩
  obtain ⟨since, n, hhistory, hcounted⟩ := hlives.counted hs
  refine ⟨since, n, hhistory, hcounted.here, hcounted.holds, hcounted.once, ?_⟩
  intro version number move value hversion hdeleted
  rw [System.run_concat] at hdeleted
  obtain ⟨-, asked, hasked, hcapability⟩ | ⟨event, -, hevent, hanswer⟩ :=
    (s.run (before ++ during)).step_cases move
  · rw [hdeleted] at hasked
    obtain rfl := List.append_cancel_left hasked
    cases hcapability _ List.mem_cons_self
  · rw [hdeleted] at hevent
    obtain rfl := List.singleton_inj.mp (List.append_cancel_left hevent)
    obtain ⟨_, hchildren⟩ | hanswer := hanswer
    · cases hchildren
    · rw [← hcounted.holds.version]
      exact version_of_deleted hcounted.here hversion hanswer.symm

/-- A node is updated and removed. The one that is created in its place starts again at the first
version, where one update succeeds and the next is refused; meanwhile nodes are created below it. -/
theorem updates_counted_recreated :
    let create : Move := .foreign (.call (.create "/a" [1] [] .container))
    let write (payload : UInt8) : Move := .foreign (.setData "/a" [payload] 0)
    let turn : Move := .turn ⟨0, id, fun _ => .refl _⟩
    let s := System.start {} false [Operation.mkdirs [] "/a/b" none none none]
    let before := [create, write 2, turn, .foreign (.call (.delete "/a" 1))] ++ [create]
    let during := [turn, write 3, write 4, turn, .foreign .reap]
    ∃ data acl mode n, Lives s "/a" before during data acl mode ∧
      (s.run (before ++ during)).memory.find? "/a" = some n ∧ n.Holds data acl mode [[3]] := by
  intro create write turn s before during
  obtain ⟨data, acl, mode, hborn⟩ : ∃ data acl mode, Born s "/a" before data acl mode :=
    Born.of_appeared (by decide +kernel) (by decide +kernel)
  have hstays : ∀ earlier ∈ during.inits, (s.run (before ++ earlier)).memory.has "/a" = true := by
    decide +kernel
  have hlives : Lives s "/a" before during data acl mode :=
    ⟨hborn, fun earlier he => hstays earlier ((List.mem_inits _ _).mpr he)⟩
  obtain ⟨since, n, hhistory, hn, hholds, -⟩ :=
    (updates_counted true false _ "/a").2 before during data acl mode hlives
  have hall := congrArg (updates · "/a") hhistory
  have hbefore : updates (s.run before).history "/a" = [[2]] := by decide +kernel
  have hboth : updates (s.run (before ++ during)).history "/a" = [[2], [3]] := by decide +kernel
  simp only [updates_append] at hall
  rw [hbefore] at hall
  have hsince : updates since "/a" = [[3]] := (List.cons.inj (hall.symm.trans hboth)).2
  rw [hsince] at hholds
  exact ⟨data, acl, mode, n, hlives, hn, hholds⟩

end Concurrency

end TreeStore
