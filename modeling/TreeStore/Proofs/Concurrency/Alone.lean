import TreeStore.Proofs.Concurrency.Deletion
import TreeStore.Proofs.Concurrency.Interference
import TreeStore.Proofs.Store.Rerooting
import TreeStore.Proofs.Text.Order

/-!
# One operation on its own

An operation that nobody disturbs takes its steps one after the other, and there is only one way in
which it ends. An ordered listing is over after the first step: it leaves the store as it is and
answers the names in order, however the store lists them. A recursive creation succeeds, and a
recursive deletion does at its first attempt; which nodes there are afterwards, and what can be read
off them, does not depend on the order of listings either. Neither of them touches what does not
lie below a node that it leaves where it is.
-/

namespace TreeStore.Concurrency

namespace System

/-- An operation on its own, after as many of its steps as there are orders, in each of which
children are listed. -/
def alone (m : Memory) (asked : Bool) (operation : Operation) (orders : List Arrangement) :
    System :=
  (start m asked [operation]).interleave (orders.map (Turn.mk 0))

variable {m : Memory} {s : System}

theorem operation_of_alone {operation : Operation} (h : s.operations = [operation]) :
    s.operations[0]? = some operation := by
  rw [h]
  rfl

/-- When all operations are done, nothing happens any more. -/
theorem interleave_of_done (h : ∀ operation ∈ s.operations, operation.outcome? ≠ none)
    (turns : List Turn) : s.interleave turns = s := by
  refine interleave_induction (motive := (· = s)) rfl ?_ turns
  rintro s' ⟨number, order⟩ he
  rw [he]
  cases ho : s.operations[number]? with
  | none => exact step_of_absent ho order
  | some operation =>
    obtain ⟨outcome, hout⟩ :=
      Option.ne_none_iff_exists'.mp (h operation (List.mem_of_getElem? ho))
    exact step_of_finished ho (Operation.next_of_outcome? hout) order

@[simp] theorem countP_map_turn (orders : List Arrangement) :
    (orders.map (Turn.mk 0)).countP (·.operation = 0) = orders.length := by
  rw [List.countP_map, List.countP_eq_length]
  exact fun _ _ => rfl

/-- A single operation that is done leaves none to wait for. -/
theorem ended_of_outcome {κ : Type} {call : κ} {outcome : Answer}
    (h : s.outcome 0 = some outcome) : ∀ i < [call].length, s.outcome i ≠ none := by
  intro i hi
  obtain rfl : i = 0 := by simpa using hi
  rw [h]
  exact Option.some_ne_none outcome

/-- The answer of an ordered listing. -/
def sortedAnswer (m : Memory) (path : String) : Answer :=
  match m.find? path with
  | none => .error (Problem.ofStore .noNode path)
  | some node => .ok (.list ((Sorting.sortTexts node.children).map .str))

/-- An ordered listing on its own leaves the store as it is, and its answer does not depend on the
order in which the store lists names. -/
theorem alone_sortedChildren (ho : m.closed = false) {path : String} (hp : Path.IsValid path)
    (asked : Bool) {orders : List Arrangement} (hne : orders ≠ []) :
    let s := alone m asked (.sortedChildren path) orders
    s.memory = m ∧ s.outcome 0 = some (sortedAnswer m path) := by
  obtain ⟨order, orders, rfl⟩ := List.exists_cons_of_ne_nil hne
  have hnext : (Operation.sortedChildren path).next = .calling (.children path) fun answer =>
      ([], .listing (.done (answer.bind Listing.ordered))) := by
    simp only [Operation.sortedChildren, Listing.start, hp.validate]
    rfl
  have hanswer : (m.serve order.apply (.children path)).2.bind Listing.ordered =
      sortedAnswer m path := by
    simp only [Memory.serve, Memory.children_of_open hp ho, sortedAnswer]
    cases m.find? path with
    | none => rfl
    | some node =>
      dsimp only
      rw [← Sorting.sortTexts_eq_of_perm (order.perm node.children), ← Listing.ordered_list]
      rfl
  let first := (start m asked [.sortedChildren path]).step (.turn ⟨0, order⟩)
  have hfirst : first.memory = m ∧
      first.operations = [.listing (.done (sortedAnswer m path))] := by
    rw [← hanswer, show first = _ from step_of_calling rfl hnext order]
    exact ⟨rfl, rfl⟩
  have halone : alone m asked (.sortedChildren path) (order :: orders) = first := by
    refine interleave_of_done (fun operation hmem => ?_) (orders.map (Turn.mk 0))
    rw [hfirst.2, List.mem_singleton] at hmem
    rw [hmem]
    exact Option.some_ne_none _
  rw [halone]
  refine ⟨hfirst.1, ?_⟩
  rw [outcome, hfirst.2]
  rfl

end System

/-- What a recursive creation that nobody disturbs makes of a store. -/
structure Creation.Completed (c : Creation) (m m' : Memory) : Prop where
  /-- The table describes one tree. -/
  consistent : m'.Consistent
  /-- The nodes are the first ones and those that the call makes sure of. -/
  has_iff : ∀ q, m'.has q = true ↔ m.has q = true ∨ c.Ensures q
  /-- The first ones are as they were. -/
  kept : ∀ q n n', m.find? q = some n → m'.find? q = some n' → n.Agrees n'
  /-- The others are as the call creates them. -/
  made : ∀ q n', m.has q = false → m'.find? q = some n' → c.Made m.containers q n'

/-- If the path leads below a node that is there, a turn of the call changes nothing elsewhere. -/
theorem Creation.Grows.spares {c : Creation} {m m' : Memory} {top : String} (h : c.Grows m m')
    (hm : m.Consistent) (htop : m.has top = true) (habove : Path.IsAbove top c.path) :
    m.Spares top m' := by
  cases h with
  | same => exact .refl top _
  | added q hensures hfree =>
    have hne : q ≠ top := by
      rintro rfl
      rw [htop] at hfree
      cases hfree
    have hbelow : Path.IsAbove top q := by
      refine (habove.total hensures.isAbove).resolve_right fun hup => ?_
      rw [hm.has_of_isAbove htop hup] at hfree
      cases hfree
    exact Memory.spares_attach hbelow hensures.isAbove.valid hne hensures.ne_root hfree _

namespace System

variable {m : Memory} {top : String}

theorem alone_creation (hm : m.Consistent) (ho : m.closed = false) (hroot : m.has Path.root = true)
    (asked : Bool) {c : Creation} (hc : Path.IsValid c.path) {orders : List Arrangement}
    (horders : 2 * (Path.prefixes c.path).length + 1 ≤ orders.length) :
    let s := alone m asked c.operation orders
    s.outcome 0 = some (.ok .null) ∧ c.Completed m s.memory := by
  have hcalls : ∀ c' ∈ [c], Path.IsValid c'.path := by simpa using hc
  have hstart : Agreeing m [c] (start m asked [c.operation]) :=
    Agreeing.start hm ho hroot asked hcalls
  have hstep : ∀ s turn, Agreeing m [c] s → Agreeing m [c] (s.step (.turn turn)) :=
    fun s turn h => h.step hcalls turn
  intro s
  have hs : Agreeing m [c] s := interleave_induction hstart hstep _
  have hdone : s.outcome 0 = some (.ok .null) := by
    have hrank : c.operation.turnsLeft ≤ (orders.map (Turn.mk 0)).countP (·.operation = 0) := by
      rw [countP_map_turn]
      exact Nat.le_trans (Ensure.turnsLeft_start c.job hc) horders
    obtain ⟨outcome, hout⟩ := outcome_interleave hstep
      (fun s turn operation h => h.turnsLeft_step turn) hstart rfl hrank
    rw [show s.outcome 0 = some outcome from hout, (hs.outcome hout).1]
  have hhas := hs.has_iff hcalls (ended_of_outcome hdone)
  refine ⟨hdone, hs.grown.consistent, by simpa using hhas, ?_, ?_⟩
  · intro q n n' hn hn'
    obtain ⟨n'', hn'', ha⟩ := hs.grown.kept q n hn
    rw [hn'] at hn''
    obtain rfl := Option.some.inj hn''
    exact ha
  · simpa using hs.grown.made

/-- If the path leads below a node that is there, the call changes nothing elsewhere. -/
theorem spares_alone_creation (hm : m.Reachable) (ho : m.closed = false)
    (hroot : m.has Path.root = true) (asked : Bool) {c : Creation} (hc : Path.IsValid c.path)
    (htop : m.has top = true) (habove : Path.IsAbove top c.path) (orders : List Arrangement) :
    m.Spares top (alone m asked c.operation orders).memory := by
  have hgrows : ∀ (turns : List Turn) (turn : Turn),
      let s := (start m asked [c.operation]).run (turns.map .turn)
      s.memory.Consistent ∧ c.Grows s.memory (s.step (.turn turn)).memory := by
    intro turns turn
    have hspared : (start m asked [c.operation]).Spared (turns.map .turn) := by
      intro earlier request hbegins
      have hmem : Move.foreign request ∈ turns.map Move.turn := hbegins.subset (by simp)
      simp at hmem
    have h := (Enduring.start hm ho hroot asked hc).run hc hspared
    exact ⟨h.reachable.consistent, h.grows hc turn⟩
  suffices h : ∀ turns : List Turn, let s := (start m asked [c.operation]).run (turns.map .turn)
      m.Spares top s.memory ∧ s.memory.has top = true from (h _).1
  intro turns
  induction turns using List.reverseRecOn with
  | nil => exact ⟨.refl top m, htop⟩
  | append_singleton turns turn ih =>
    obtain ⟨hspares, hhas⟩ := ih
    obtain ⟨hconsistent, hstep⟩ := hgrows turns turn
    rw [List.map_append, List.map_singleton, run_concat]
    exact ⟨hspares.trans (hstep.spares hconsistent hhas habove), hstep.has hhas⟩

end System

/-- What a recursive deletion that nobody disturbs makes of a store. -/
structure Removal.Completed (call : Removal) (m m' : Memory) : Prop where
  /-- The table describes one tree. -/
  consistent : m'.Consistent
  /-- The nodes are the first ones that the call does not delete. -/
  has_iff : ∀ q, m'.has q = true ↔ m.has q = true ∧ ¬ call.Removes q
  /-- They are as they were. -/
  kept : ∀ q n n', m.find? q = some n → m'.find? q = some n' → n.Agrees n'

namespace System

variable {m : Memory} {top : String}

theorem alone_removal (hm : m.Consistent) (ho : m.closed = false) {call : Removal}
    (hcall : call.Proper) :
    ∃ enough, ∀ (asked : Bool) (orders : List Arrangement), enough ≤ orders.length →
      let s := alone m asked call.operation orders
      s.outcome 0 = some (.ok (.int 1)) ∧ call.Completed m s.memory := by
  obtain ⟨width, height, hbounded⟩ := m.exists_bounded
  have hcalls : ∀ call' ∈ [call], call'.Proper := by simpa using hcall
  have hturn : ∀ s turn, Shrinking m [call] width height s →
      Shrinking m [call] width height (s.step (.turn turn)) := fun s turn h => h.turn turn
  refine ⟨call.operation.turnsToClear width height, fun asked orders horders => ?_⟩
  have hstart : Shrinking m [call] width height (start m asked [call.operation]) :=
    Shrinking.start hm ho hbounded asked hcalls
  intro s
  have hs : Shrinking m [call] width height s := interleave_induction hstart hturn _
  have hdone : s.outcome 0 = some (.ok (.int 1)) := by
    rw [← countP_map_turn] at horders
    obtain ⟨outcome, hout⟩ := outcome_interleave hturn
      (fun s turn operation h => h.turnsToClear_turn turn) hstart rfl horders
    rw [show s.outcome 0 = some outcome from hout, (hs.outcome rfl hout).1]
  refine ⟨hdone, hs.removing.consistent, by simpa using hs.has_iff (ended_of_outcome hdone), ?_⟩
  intro q n n' hn hn'
  obtain ⟨n'', hn'', ha⟩ := hs.shrunk.kept q n' hn'
  rw [hn] at hn''
  obtain rfl := Option.some.inj hn''
  exact ha

/-- If the path leads below a node that stays, the call changes nothing elsewhere. -/
theorem spares_alone_removal (hm : m.Consistent) (ho : m.closed = false) (asked : Bool)
    {call : Removal} (hcall : call.Proper) (habove : Path.IsAbove top call.path)
    (hstays : ¬ call.Removes top) (orders : List Arrangement) :
    m.Spares top (alone m asked call.operation orders).memory := by
  have hcalls : ∀ call' ∈ [call], call'.Proper := by simpa using hcall
  suffices h : ∀ s : System, Removing [call] s ∧ m.Spares top s.memory → ∀ turn : Turn,
      Removing [call] (s.step (.turn turn)) ∧ m.Spares top (s.step (.turn turn)).memory from
    (interleave_induction (motive := fun s => Removing [call] s ∧ m.Spares top s.memory)
      ⟨Removing.start hm ho asked hcalls, .refl top m⟩ (fun s turn hs => h s hs turn) _).2
  rintro s ⟨hremoving, hspares⟩ turn
  refine ⟨hremoving.turn turn, hspares.trans ?_⟩
  obtain ⟨-, hsame | ⟨call', hc, q, node, hq, hn, -, hgone⟩⟩ := hremoving.memory_turn turn
  · rw [hsame]
    exact .refl top _
  · obtain rfl := List.mem_singleton.mp hc
    have hne : q ≠ top := by
      rintro rfl
      exact hstays hq
    rw [hgone]
    exact Memory.spares_unlink (habove.trans hq.isAbove)
      (hremoving.consistent.valid q (Memory.has_of_find? hn)) hne

end System

end TreeStore.Concurrency
