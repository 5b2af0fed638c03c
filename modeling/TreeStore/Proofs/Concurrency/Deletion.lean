import TreeStore.Proofs.Concurrency.Removal
import Mathlib.Order.Monotone.Basic

/-!
# Recursive deletion by many callers

Any number of recursive deletions on one store agree, however their requests are interleaved, as
long as nobody creates nodes. There is nobody to pay for a second attempt, so that each call makes
one; the store only shrinks, by nodes that some call is to delete; and since it stays within the
size that it had at first, the calls come to an end.
-/

namespace TreeStore

namespace Memory

/-- No node has more than a number of children, and none is deeper than another number. -/
structure Bounded (m : Memory) (width height : Nat) : Prop where
  /-- There are only so many children. -/
  children : ∀ p n, m.find? p = some n → n.children.length ≤ width
  /-- The paths are only so long. -/
  depth : ∀ p, m.has p = true → (Path.segments p).length ≤ height

private theorem exists_bound (m : Memory) (f : String → Nat) :
    ∃ bound, ∀ p, m.has p = true → f p ≤ bound := by
  suffices h : ∀ paths : List String, ∃ bound, ∀ p ∈ paths, f p ≤ bound by
    obtain ⟨bound, hbound⟩ := h m.keys
    exact ⟨bound, fun p hp => hbound p (mem_keys.mpr hp)⟩
  intro paths
  induction paths with
  | nil => exact ⟨0, by simp⟩
  | cons path rest ih =>
    obtain ⟨bound, hbound⟩ := ih
    refine ⟨max (f path) bound, fun p hp => ?_⟩
    rcases List.mem_cons.mp hp with rfl | hp
    · exact Nat.le_max_left _ _
    · exact Nat.le_trans (hbound p hp) (Nat.le_max_right _ _)

/-- The table is finite, so that there are bounds. -/
theorem exists_bounded (m : Memory) : ∃ width height, m.Bounded width height := by
  obtain ⟨width, hwidth⟩ := exists_bound m fun p => (m.find? p).elim 0 (·.children.length)
  obtain ⟨height, hheight⟩ := exists_bound m fun p => (Path.segments p).length
  refine ⟨width, height, fun p n hn => ?_, hheight⟩
  have hle := hwidth p (has_of_find? hn)
  rwa [hn] at hle

/-- The bounds hold with a node less. -/
theorem Bounded.unlink {m : Memory} {width height : Nat} (h : m.Bounded width height) (q : String) :
    (m.unlink q).1.Bounded width height := by
  refine ⟨fun p n hn => ?_, fun p hp => ?_⟩
  · rw [find?_unlink] at hn
    split at hn
    · cases hn
    · split at hn
      · obtain ⟨n, hold, rfl⟩ := Option.map_eq_some_iff.mp hn
        exact Nat.le_trans List.length_erase_le (h.children p n hold)
      · exact h.children p n hn
  · rw [has_unlink, Bool.and_eq_true] at hp
    exact h.depth p hp.2

end Memory

namespace Clear

/-- How many levels of a tree of some height are at a path or below it. -/
def levels (height : Nat) (path : String) : Nat := height + 1 - (Path.segments path).length

/-- How many turns it takes at most to clear and delete a node on so many levels, on each of which a
node has only so many children. -/
def cost (width : Nat) : Nat → Nat
  | 0 => 1
  | levels + 1 => width * cost width levels + 2

/-- How many turns the levels above the present one take at most when it is done. -/
def owed (width height : Nat) : List Frame → Nat
  | [] => 0
  | frame :: outer =>
    frame.pending.length * cost width (levels height frame.path - 1) + 1 + owed width height outer

/-- How many more turns recursive deletion takes at most if every attempt is the last one. -/
def turnsLeft (width height : Nat) : Clear → Nat
  | listing _ frame outer => cost width (levels height frame.path) + owed width height outer
  | deleting _ _ outer => 1 + owed width height outer
  | done _ _ => 0

variable (width height : Nat)

/-- A deletion takes some turn. -/
theorem cost_pos (levels : Nat) : 0 < cost width levels := by
  cases levels with
  | zero => exact Nat.one_pos
  | succ levels => exact Nat.succ_pos _

/-- More levels cost more. -/
theorem cost_le_succ (levels : Nat) : cost width levels ≤ cost width (levels + 1) := by
  induction levels with
  | zero =>
    simp only [cost]
    omega
  | succ levels ih =>
    rw [cost, cost]
    exact Nat.add_le_add_right (Nat.mul_le_mul_left width ih) 2

theorem cost_levels_le (path : String) :
    cost width (levels height path) ≤ cost width (height + 1) :=
  monotone_nat_of_le_succ (cost_le_succ width) (Nat.sub_le _ _)

/-- A level of the recursion goes on with what it owed before. -/
theorem turnsLeft_next {limit : Value} (frame : Frame) {outer : List Frame}
    (hpath : Path.IsValid frame.path)
    (hnames : ∀ child ∈ frame.pending, ∃ name, child = .str name ∧ Path.IsName name)
    (houter : ∀ attempts active,
      (proceed limit attempts active outer).turnsLeft width height ≤ owed width height outer)
    (attempts : Nat) (active : Context) :
    (proceed limit attempts active (frame :: outer)).turnsLeft width height ≤
      owed width height (frame :: outer) := by
  rw [proceed, owed]
  cases hpending : frame.pending with
  | cons child rest =>
    obtain ⟨name, rfl, hname⟩ := hnames child (by rw [hpending]; exact List.mem_cons_self)
    have hlevels : levels height (Path.join [frame.path, name]) = levels height frame.path - 1 := by
      rw [levels, levels, Path.segments_join hpath hname, List.length_append, List.length_singleton]
      omega
    dsimp only
    rw [enterChild, Path.joinValues_str hpath hname]
    dsimp only
    rw [enter, (hpath.join hname).validate]
    simp only [turnsLeft, owed, hlevels, List.length_cons, Nat.add_mul, Nat.one_mul]
    omega
  | nil =>
    dsimp only
    split
    · simp only [turnsLeft, List.length_nil]
      omega
    · refine Nat.le_trans (houter frame.attempts frame.outside) ?_
      omega

/-- A level that returns leaves what the levels above it owe. -/
theorem turnsLeft_proceed {call : Concurrency.Removal} {m : Memory} {credit : String → Nat}
    {path : String} {goes : Bool} {outer : List Frame} (hcall : call.Proper)
    (hnest : call.Nested m credit path goes outer) (limit : Value) (attempts : Nat)
    (active : Context) :
    (proceed limit attempts active outer).turnsLeft width height ≤ owed width height outer := by
  induction hnest generalizing attempts active with
  | top => exact Nat.le_refl 0
  | child frame hnest hwork hname ih =>
    exact turnsLeft_next width height frame (hnest.isValid hcall) hwork.names ih attempts active

/-- A listing takes a turn off what is left. -/
theorem turnsLeft_afterListing {call : Concurrency.Removal} {m : Memory} {credit : String → Nat}
    {limit : Value} {frame : Frame} {outer : List Frame} (hcall : call.Proper) (hm : m.Consistent)
    (hbounded : m.Bounded width height)
    (hnest : call.Nested m credit frame.path frame.deleteSelf outer)
    (order : Concurrency.Arrangement) :
    (afterListing m order.apply limit frame outer).turnsLeft width height <
      (listing limit frame outer).turnsLeft width height := by
  have hproceed := turnsLeft_proceed width height hcall hnest limit
  have hpath := hnest.isValid hcall
  rw [afterListing, turnsLeft]
  cases hn : m.find? frame.path with
  | none =>
    have hle := hproceed frame.attempts frame.outside
    have hpos := cost_pos width (levels height frame.path)
    dsimp only
    omega
  | some node =>
    have hdepth := hbounded.depth _ (Memory.has_of_find? hn)
    have hlength : (order.apply node.children).length ≤ width := by
      rw [(order.perm _).length_eq]
      exact hbounded.children _ _ hn
    have hnames : ∀ child ∈ (order.apply node.children).map Value.str,
        ∃ name, child = .str name ∧ Path.IsName name := by
      intro child hchild
      obtain ⟨name, hname, rfl⟩ := List.mem_map.mp hchild
      exact ⟨name, rfl, ((hm.mem_children_iff hn).mp ((order.perm _).mem_iff.mp hname)).1⟩
    have hle := turnsLeft_next width height
      { frame with pending := (order.apply node.children).map .str } hpath hnames hproceed 0
      frame.context
    obtain ⟨below, hbelow⟩ : ∃ below, levels height frame.path = below + 1 :=
      ⟨height - (Path.segments frame.path).length, by rw [levels]; omega⟩
    have hmul := Nat.mul_le_mul_right (cost width below) hlength
    rw [owed, List.length_map, hbelow, Nat.add_sub_cancel] at hle
    rw [hbelow, cost]
    dsimp only
    omega

/-- If nobody pays for another attempt, a node that is to be deleted has no children. -/
theorem childless_of_knows {call : Concurrency.Removal} {m : Memory} {credit : String → Nat}
    {limit : Value} {frame : Frame} {outer : List Frame} (hm : m.Consistent)
    (hknows : call.Knows m credit (.deleting limit frame outer)) (hcredit : ∀ p, credit p = 0)
    {node : Node} (hn : m.find? frame.path = some node) : node.children = [] := by
  obtain ⟨-, hpending, hwork, -⟩ := hknows
  refine List.eq_nil_iff_forall_not_mem.mpr fun name hname => ?_
  obtain ⟨hisname, hhas⟩ := (hm.mem_children_iff hn).mp hname
  have hpos := hwork.funded.pos
  have hzero := hcredit frame.path
  rcases hwork.covered with hpaid | hcovered
  · omega
  · rcases hcovered name hisname hhas with hmem | hnone
    · rw [hpending] at hmem
      cases hmem
    · cases hnone

/-- A deletion comes closer to its end if nobody pays for another attempt. -/
theorem turnsLeft_afterDeleting {call : Concurrency.Removal} {m : Memory} {credit : String → Nat}
    {limit : Value} {frame : Frame} {outer : List Frame} (hcall : call.Proper) (hm : m.Consistent)
    (hknows : call.Knows m credit (.deleting limit frame outer)) (hcredit : ∀ p, credit p = 0) :
    (afterDeleting m limit frame outer).2.turnsLeft width height <
      (deleting limit frame outer).turnsLeft width height := by
  have hle := turnsLeft_proceed width height hcall hknows.2.2.2 limit frame.attempts frame.outside
  rw [afterDeleting, turnsLeft]
  cases hn : m.find? frame.path with
  | none =>
    dsimp only
    omega
  | some node =>
    dsimp only
    rw [if_pos (childless_of_knows hm hknows hcredit hn)]
    dsimp only
    omega

end Clear

/-- How many more turns a recursive deletion takes at most. -/
def Operation.turnsToClear (width height : Nat) : Operation → Nat
  | clear state => state.turnsLeft width height
  | _ => 0

namespace Concurrency

/-- A store that has lost some of its first nodes, all of which some call deletes. -/
structure Shrunk (first : Memory) (calls : List Removal) (m : Memory) : Prop where
  /-- The nodes that are left are as they were. -/
  kept : ∀ q n', m.find? q = some n' → ∃ n, first.find? q = some n ∧ n.Agrees n'
  /-- The others are to be deleted. -/
  lost : ∀ q, first.has q = true → m.has q = true ∨ ∃ call ∈ calls, call.Removes q

theorem Shrunk.unlink {first m : Memory} {calls : List Removal} {call : Removal} {q : String}
    (h : Shrunk first calls m) (hc : call ∈ calls) (hq : call.Removes q) :
    Shrunk first calls (m.unlink q).1 := by
  refine ⟨fun p n hn => ?_, fun p hp => ?_⟩
  · obtain ⟨n', hn', ha⟩ := Memory.agrees_unlink hn
    obtain ⟨n'', hn'', ha'⟩ := h.kept p n' hn'
    exact ⟨n'', hn'', ha'.trans ha⟩
  · by_cases hpq : p = q
    · subst hpq
      exact .inr ⟨call, hc, hq⟩
    · refine (h.lost p hp).imp_left fun hhas => ?_
      rw [Memory.has_unlink, decide_eq_true hpq, hhas]
      rfl

/-- Recursive deletions that go on side by side, with no other client about. -/
structure Shrinking (first : Memory) (calls : List Removal) (width height : Nat) (s : System) :
    Prop where
  /-- The operations carry out the calls. -/
  removing : Removing calls s
  /-- Nobody has created a node. -/
  unpaid : ∀ p, births s.history p = 0
  /-- The store has lost nodes that are to be deleted. -/
  shrunk : Shrunk first calls s.memory
  /-- It is no larger than it was. -/
  bounded : s.memory.Bounded width height

namespace Shrinking

variable {first : Memory} {calls : List Removal} {width height : Nat} {s : System}

/-- Calls that have not begun have taken nothing away. -/
theorem start (hm : first.Consistent) (ho : first.closed = false)
    (hbounded : first.Bounded width height) (asked : Bool) (hcalls : ∀ call ∈ calls, call.Proper) :
    Shrinking first calls width height (System.start first asked (calls.map Removal.operation)) :=
  ⟨Removing.start hm ho asked hcalls, fun _ => rfl, ⟨fun _ n hn => ⟨n, hn, .refl n⟩, fun _ => .inl⟩,
    hbounded⟩

/-- What is left shrinks with the turns. -/
theorem turn (h : Shrinking first calls width height s) (turn : Turn) :
    Shrinking first calls width height (s.step (.turn turn)) := by
  obtain ⟨hbirths, hmemory⟩ := h.removing.memory_turn turn
  refine ⟨h.removing.turn turn, fun p => by rw [hbirths, h.unpaid], ?_, ?_⟩
  · obtain hsame | ⟨call, hc, q, node, hq, -, -, hgone⟩ := hmemory
    · rw [hsame]
      exact h.shrunk
    · rw [hgone]
      exact h.shrunk.unlink hc hq
  · obtain hsame | ⟨call, hc, q, node, hq, -, -, hgone⟩ := hmemory
    · rw [hsame]
      exact h.bounded
    · rw [hgone]
      exact h.bounded.unlink q

/-- An operation that is under way has a turn less to go after each of its own. -/
theorem turnsToClear_turn (h : Shrinking first calls width height s) (turn : Turn)
    {operation : Operation} (ho : s.operations[turn.operation]? = some operation)
    (hout : operation.outcome? = none) :
    ∃ rest, (s.step (.turn turn)).operations[turn.operation]? = some rest ∧
      rest.turnsToClear width height < operation.turnsToClear width height := by
  obtain ⟨number, order⟩ := turn
  obtain ⟨call, -, hcall, state, rfl, hsound⟩ := System.exists_call h.removing.follows ho
  have hlt : number < s.operations.length := (List.getElem?_eq_some_iff.mp ho).1
  cases state with
  | listing limit frame outer =>
    have hnest := hsound.knows.2
    obtain ⟨answer, he⟩ := h.removing.step_listing ho (hnest.isValid hcall) order
    rw [he]
    exact ⟨_, List.getElem?_set_self hlt,
      Clear.turnsLeft_afterListing width height hcall h.removing.consistent h.bounded hnest order⟩
  | deleting limit frame outer =>
    have hnest := hsound.knows.2.2.2
    obtain ⟨answer, he⟩ := h.removing.step_deleting ho (hnest.isValid hcall)
      (hnest.ne_root hcall hsound.knows.1) order
    rw [he]
    exact ⟨_, List.getElem?_set_self hlt,
      Clear.turnsLeft_afterDeleting width height hcall h.removing.consistent hsound.knows
        h.unpaid⟩
  | done => cases hout

/-- A call that ended made one attempt, and the nodes that it deletes are gone. -/
theorem outcome (h : Shrinking first calls width height s) {number : Nat} {call : Removal}
    (hc : calls[number]? = some call) {outcome : Answer} (ho : s.outcome number = some outcome) :
    outcome = .ok (.int 1) ∧ ∀ q, call.Removes q → s.memory.has q = false := by
  cases h.removing.outcome hc ho with
  | exhausted q attempts most _ hreached _ hpaid =>
    rw [h.unpaid] at hpaid
    omega
  | returned attempts hpos hpaid hcovered hgone =>
    rw [h.unpaid] at hpaid
    obtain rfl : attempts = 1 := by omega
    refine ⟨rfl, fun q hq => ?_⟩
    rw [← Bool.not_eq_true]
    intro hhas
    have hchildren : ∀ name, Path.IsName name →
        s.memory.has (Path.join [call.path, name]) = false := by
      intro name hname
      rw [← Bool.not_eq_true]
      rcases hcovered with hpaid' | hnone
      · rw [h.unpaid] at hpaid'
        omega
      · exact hnone name hname
    obtain rfl := h.removing.consistent.eq_of_isAbove hchildren hhas hq.isAbove
    have hself := hq.self.resolve_right fun hne => hne rfl
    rw [hgone hself (h.unpaid _)] at hhas
    cases hhas

/-- When all calls are over, the nodes are the first ones that none of the calls deletes. -/
theorem has_iff (h : Shrinking first calls width height s)
    (hall : ∀ i < calls.length, s.outcome i ≠ none) (q : String) :
    s.memory.has q = true ↔ first.has q = true ∧ ¬ ∃ call ∈ calls, call.Removes q := by
  constructor
  · intro hhas
    obtain ⟨n', hn'⟩ := Memory.has_iff.mp hhas
    obtain ⟨n, hn, -⟩ := h.shrunk.kept q n' hn'
    refine ⟨Memory.has_of_find? hn, ?_⟩
    rintro ⟨call, hc, hq⟩
    obtain ⟨i, outcome, hi, hout⟩ := System.exists_outcome hall hc
    rw [(h.outcome hi hout).2 q hq] at hhas
    cases hhas
  · rintro ⟨hfirst, hnone⟩
    exact (h.shrunk.lost q hfirst).resolve_right hnone

end Shrinking

/-- Recursive deletions by any number of callers agree, however their requests are interleaved, if
nobody creates nodes. Each of them returns after a single attempt, whatever the limit, and is over
after a bounded number of its own turns. When all are over, the nodes that were to be deleted are
gone, and the others are as they were. -/
theorem removals_agree {m : Memory} (hm : m.Reachable) (ho : m.closed = false) (asked : Bool)
    {calls : List Removal} (hpaths : ∀ call ∈ calls, Path.IsValid call.path)
    (hroot : ∀ call ∈ calls, call.deletesSelf = true → call.path ≠ Path.root) :
    ∃ enough : Nat, ∀ turns : List Turn,
      let s := (System.start m asked (calls.map Removal.operation)).interleave turns
      (∀ i outcome, s.outcome i = some outcome → outcome = .ok (.int 1)) ∧
      (∀ i < calls.length, enough ≤ turns.countP (·.operation = i) →
        s.outcome i = some (.ok (.int 1))) ∧
      ((∀ i < calls.length, s.outcome i ≠ none) →
        (∀ q, s.memory.has q = true ↔ m.has q = true ∧ ¬ ∃ call ∈ calls, call.Removes q) ∧
        (∀ q n', s.memory.find? q = some n' → ∃ n, m.find? q = some n ∧ n.Agrees n')) := by
  obtain ⟨width, height, hbounded⟩ := m.exists_bounded
  have hcalls : ∀ call ∈ calls, call.Proper := fun call hc => ⟨hpaths call hc, hroot call hc⟩
  have hstart := Shrinking.start hm.consistent ho hbounded asked hcalls
  have hturn : ∀ s turn, Shrinking m calls width height s →
      Shrinking m calls width height (s.step (.turn turn)) := fun s turn h => h.turn turn
  refine ⟨Clear.cost width (height + 1), fun turns => ?_⟩
  intro s
  have hs : Shrinking m calls width height s := System.interleave_induction hstart hturn turns
  refine ⟨?_, ?_, fun hall => ⟨hs.has_iff hall, hs.shrunk.kept⟩⟩
  · intro i outcome hout
    obtain ⟨call, -, hc, -⟩ := System.exists_call_of_outcome hs.removing.follows hout
    exact (hs.outcome hc hout).1
  · intro i hi hturns
    have hc : calls[i]? = some calls[i] := List.getElem?_eq_getElem hi
    have hoper := System.operations_start m asked Removal.operation hc
    have hrank : calls[i].operation.turnsToClear width height ≤
        turns.countP (·.operation = i) := by
      refine Nat.le_trans ?_ hturns
      have hvalid := hpaths calls[i] (List.getElem_mem hi)
      simp only [Removal.operation, Operation.deleteChildren, Operation.turnsToClear,
        Clear.start_of_validate hvalid.validate, Clear.turnsLeft, Clear.owed, Nat.add_zero]
      exact Clear.cost_levels_le width height calls[i].path
    obtain ⟨outcome, hout⟩ := System.outcome_interleave hturn
      (fun s turn operation h => h.turnsToClear_turn turn) hstart hoper hrank
    rw [show s.outcome i = some outcome from hout, (hs.outcome hc hout).1]

/-- A caller that deletes a node and one that deletes all nodes make one attempt each. -/
theorem removals_agree_nested :
    let m := ({} : Memory).run [.call (.create "/a" [] [] .persistent),
      .call (.create "/a/b" [] [] .persistent), .call (.create "/c" [] [] .persistent)]
    let calls : List Removal :=
      [⟨[], "/a", some (.bool true), none⟩, ⟨[], "/", none, some (some 1)⟩]
    ∃ turns : List Turn,
      let s := (System.start m false (calls.map Removal.operation)).interleave turns
      s.outcome 0 = some (.ok (.int 1)) ∧ s.outcome 1 = some (.ok (.int 1)) ∧
        ∀ q, s.memory.has q = true ↔ m.has q = true ∧ ¬ ∃ call ∈ calls, call.Removes q := by
  intro m calls
  have hreachable : m.Reachable := ⟨true, _, rfl⟩
  have hopen : m.closed = false := by decide +kernel
  have hpaths : ∀ call ∈ calls, Path.IsValid call.path := by decide
  have hroot : ∀ call ∈ calls, call.deletesSelf = true → call.path ≠ Path.root := by decide
  obtain ⟨enough, hall⟩ := removals_agree hreachable hopen false hpaths hroot
  let order : Arrangement := ⟨id, fun _ => .refl _⟩
  refine ⟨List.replicate enough ⟨1, order⟩ ++ List.replicate enough ⟨0, order⟩, ?_⟩
  obtain ⟨-, hdone, hover⟩ :=
    hall (List.replicate enough ⟨1, order⟩ ++ List.replicate enough ⟨0, order⟩)
  intro s
  have hfirst : s.outcome 0 = some (.ok (.int 1)) :=
    hdone 0 (by decide) (by simp [List.countP_replicate])
  have hsecond : s.outcome 1 = some (.ok (.int 1)) :=
    hdone 1 (by decide) (by simp [List.countP_replicate])
  have hboth : ∀ i < calls.length, s.outcome i ≠ none := by
    intro i hi
    obtain rfl | rfl : i = 0 ∨ i = 1 := by
      simp only [calls, List.length_cons, List.length_nil] at hi
      omega
    · simp [hfirst]
    · simp [hsecond]
  exact ⟨hfirst, hsecond, (hover hboth).1⟩

end Concurrency

end TreeStore
