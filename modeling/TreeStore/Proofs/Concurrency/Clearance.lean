import TreeStore.Proofs.Concurrency.Alone

/-!
# The effect of an undisturbed deletion

A recursive deletion that nobody disturbs walks down a tree that only it takes apart. On its way it
keeps a stack of the nodes that it has listed and not left yet, each of which has children that are
there still and that it has yet to come to. So it lists each node that goes once and deletes it
once, after all those below it, in whatever order the store lists names. What stays is left as it
was, but for the names of the children that went.
-/

namespace TreeStore.Concurrency

/-- The calls to a store, the earliest first. -/
def callsOf (history : List Event) : List Call :=
  history.filterMap fun event => match event.request with
    | .call call => some call
    | _ => none

theorem callsOf_concat (history : List Event) (number : Option Nat) (call : Call)
    (answer : Answer) :
    callsOf (history ++ [⟨number, .call call, answer⟩]) = callsOf history ++ [call] := by
  simp [callsOf]

namespace Removal

variable {call : Removal} {first m : Memory} {frame : Clear.Frame} {outer : List Clear.Frame}
  {path q : String} {goes : Bool} {limit : Value} {current : Option String}

/-- The children that a level has yet to come to are there, each named once, and the one that it is
clearing is none of them. -/
def Lists (m : Memory) (frame : Clear.Frame) (current : Option String) : Prop :=
  ∃ names : List String, frame.pending = names.map .str ∧ names.Nodup ∧
    ∀ name ∈ names, Path.IsName name ∧ m.has (Path.join [frame.path, name]) = true ∧
      current ≠ some name

/-- The levels above one for a path: their nodes are there, and what they have yet to come to. -/
inductive Standing (call : Removal) (m : Memory) : String → Bool → List Clear.Frame → Prop
  | top : Standing call m call.path call.deletesSelf []
  | child (frame : Clear.Frame) {outer : List Clear.Frame} {name : String}
      (above : Standing call m frame.path frame.deleteSelf outer)
      (present : m.has frame.path = true) (lists : Lists m frame (some name))
      (isName : Path.IsName name) :
      Standing call m (Path.join [frame.path, name]) true (frame :: outer)

/-- The nodes that are listed and not left yet, from the innermost. -/
def At (call : Removal) (m : Memory) (stack : List String) : Clear → Prop
  | .listing _ frame outer => stack = outer.map Clear.Frame.path ∧
      Standing call m frame.path frame.deleteSelf outer ∧ m.has frame.path = true
  | .deleting _ frame outer => stack = frame.path :: outer.map Clear.Frame.path ∧
      Standing call m frame.path frame.deleteSelf outer ∧ m.has frame.path = true
  | .done _ _ => ∀ q ∈ stack, ¬ call.Removes q

/-- A level goes on with the next child, with its node, or back to the level above it. -/
theorem at_next (hpresent : m.has frame.path = true) (hvalid : Path.IsValid frame.path)
    (hlists : Lists m frame current)
    (hstanding : Standing call m frame.path frame.deleteSelf outer) (attempts : Nat)
    (active : Context) :
    call.At m (frame.path :: outer.map Clear.Frame.path)
      (Clear.proceed limit attempts active (frame :: outer)) := by
  obtain ⟨names, hpending, hnodup, hnames⟩ := hlists
  rw [Clear.proceed, hpending]
  cases names with
  | cons name rest =>
    obtain ⟨hname, hhas, -⟩ := hnames name List.mem_cons_self
    obtain ⟨hnew, hrest⟩ := List.nodup_cons.mp hnodup
    rw [List.map_cons]
    dsimp only
    rw [Clear.enterChild, Path.joinValues_str hvalid hname]
    dsimp only
    rw [Clear.enter, (hvalid.join hname).validate]
    let waiting : Clear.Frame := { frame with context := active, pending := rest.map .str }
    refine ⟨rfl, .child waiting hstanding hpresent ?_ hname, hhas⟩
    refine ⟨rest, rfl, hrest, fun other hother => ?_⟩
    obtain ⟨hisname, hthere, -⟩ := hnames other (List.mem_cons_of_mem name hother)
    refine ⟨hisname, hthere, ?_⟩
    rintro he
    obtain rfl := Option.some.inj he
    exact hnew hother
  | nil =>
    rw [List.map_nil]
    dsimp only
    split
    · exact ⟨rfl, hstanding, hpresent⟩
    · rename_i hstays
      generalize hpath : frame.path = path at hstanding
      generalize hself : frame.deleteSelf = goes at hstanding hstays
      cases hstanding with
      | child => exact absurd rfl hstays
      | top =>
        intro q hq hremoves
        obtain rfl := List.mem_singleton.mp hq
        exact hremoves.self.elim hstays fun hne => hne rfl

/-- A level that is done with its node goes back to the level above it. -/
theorem at_proceed (hm : m.Consistent) (hstanding : Standing call m path goes outer)
    (attempts : Nat) (active : Context) :
    call.At m (outer.map Clear.Frame.path) (Clear.proceed limit attempts active outer) := by
  cases hstanding with
  | top => exact fun q hq => nomatch hq
  | child frame above present lists isName =>
    exact at_next present (hm.valid _ present) lists above attempts active

/-- The nodes above a level do not change when one below it is deleted. -/
theorem Standing.unlink (hm : m.Consistent) (h : Standing call m path goes outer)
    (hbelow : Path.IsAbove path q) : Standing call (m.unlink q).1 path goes outer := by
  induction h with
  | top => exact .top
  | @child frame outer name above present lists isName ih =>
    have hvalid := hm.valid _ present
    have hparent := Path.isAbove_join hvalid isName
    have hkept : ∀ p, p ≠ q → m.has p = true → (m.unlink q).1.has p = true := by
      intro p hne hp
      rw [Memory.has_unlink, decide_eq_true hne, hp, Bool.true_and]
    refine .child frame (ih (hparent.trans hbelow)) (hkept _ ?_ present) ?_ isName
    · rintro rfl
      exact Path.not_isAbove_of_join hvalid isName hbelow
    · obtain ⟨names, hpending, hnodup, hnames⟩ := lists
      refine ⟨names, hpending, hnodup, fun other hother => ?_⟩
      obtain ⟨hisname, hhas, hne⟩ := hnames other hother
      refine ⟨hisname, hkept _ ?_ hhas, hne⟩
      rintro rfl
      obtain he | hup := (Path.isAbove_join_iff hvalid hisname).mp hbelow
      · have hleaf := congrArg Path.leaf he
        rw [Path.leaf_join hvalid isName, Path.leaf_join hvalid hisname] at hleaf
        exact hne (by rw [hleaf])
      · exact Path.not_isAbove_of_join hvalid isName hup

/-- The nodes above a level do not lie at its path or below. -/
theorem Standing.not_mem (hm : m.Consistent) (h : Standing call m path goes outer)
    (hvalid : Path.IsValid path) : path ∉ outer.map Clear.Frame.path := by
  suffices hall : ∀ frame ∈ outer, ¬ Path.IsAbove path frame.path by
    intro hmem
    obtain ⟨frame, hframe, he⟩ := List.mem_map.mp hmem
    refine hall frame hframe ?_
    rw [he]
    exact hvalid.isAbove
  clear hvalid
  induction h with
  | top => exact fun _ hframe => nomatch hframe
  | @child frame outer name above present lists isName ih =>
    have hvalid := hm.valid _ present
    intro other hother hup
    obtain rfl | hother := List.mem_cons.mp hother
    · exact Path.not_isAbove_of_join hvalid isName hup
    · exact ih other hother ((Path.isAbove_join hvalid isName).trans hup)

/-- The calls about a node that goes: it is listed as it joins the stack, deleted as it leaves. -/
def received (m : Memory) (stack : List String) (q : String) : List Call :=
  if m.has q = false then [.children q, .delete q anyVersion]
  else if q ∈ stack then [.children q]
  else []

/-- The calls so far, when the nodes on the stack are listed and not left yet. -/
structure Walked (call : Removal) (first m : Memory) (stack : List String) (calls : List Call) :
    Prop where
  /-- The calls about each node that goes. -/
  received : ∀ q, first.has q = true → call.Removes q →
    calls.filter (fun other => other.path = q) = received m stack q
  /-- After a node is gone, there are no calls about it or about nodes below it. -/
  ordered : ∀ q, first.has q = true → m.has q = false →
    ∃ before after, calls = before ++ .delete q anyVersion :: after ∧
      ∀ later ∈ after, ¬ Path.IsAbove q later.path

variable {stack : List String} {calls : List Call}

/-- One more call about a node that is there comes after none of the deletions above it. -/
theorem Walked.ordered_concat (h : Walked call first m stack calls) (hm : m.Consistent)
    {last : Call} (hlast : m.has last.path = true) (hq : first.has q = true)
    (hgone : m.has q = false) :
    ∃ before after, calls ++ [last] = before ++ .delete q anyVersion :: after ∧
      ∀ later ∈ after, ¬ Path.IsAbove q later.path := by
  obtain ⟨before, after, hcalls, hafter⟩ := h.ordered q hq hgone
  refine ⟨before, after ++ [last], by rw [hcalls, List.append_assoc, List.cons_append], ?_⟩
  intro later hlater hup
  obtain hlater | hlater := List.mem_append.mp hlater
  · exact hafter later hlater hup
  · obtain rfl := List.mem_singleton.mp hlater
    rw [hm.has_of_isAbove hlast hup] at hgone
    cases hgone

/-- A node that is there is listed and joins the stack. -/
theorem Walked.list (h : Walked call first m stack calls) (hm : m.Consistent)
    (hpath : m.has path = true) (hnew : path ∉ stack) :
    Walked call first m (path :: stack) (calls ++ [.children path]) := by
  refine ⟨fun q hq hremoves => ?_, fun q => h.ordered_concat hm hpath⟩
  rw [List.filter_append, h.received q hq hremoves]
  by_cases he : q = path
  · subst he
    simp [Removal.received, Call.path, hpath, hnew]
  · have hne : path ≠ q := Ne.symm he
    simp [Removal.received, Call.path, he, hne]

/-- A node that is there is deleted and leaves the stack. -/
theorem Walked.delete (h : Walked call first m (path :: stack) calls) (hm : m.Consistent)
    (hpath : m.has path = true) :
    Walked call first (m.unlink path).1 stack (calls ++ [.delete path anyVersion]) := by
  refine ⟨fun q hq hremoves => ?_, fun q hq hgone => ?_⟩
  · rw [List.filter_append, h.received q hq hremoves]
    by_cases he : q = path
    · subst he
      simp [Removal.received, Call.path, Memory.has_unlink, hpath]
    · have hne : path ≠ q := Ne.symm he
      simp [Removal.received, Call.path, Memory.has_unlink, he, hne]
  · by_cases he : q = path
    · subst he
      exact ⟨calls, [], rfl, fun _ hlater => nomatch hlater⟩
    · rw [Memory.has_unlink, decide_eq_true he, Bool.true_and] at hgone
      exact h.ordered_concat hm hpath hq hgone

end Removal

/-- A call on its own is on its way through the nodes that go. -/
structure Clearing (first : Memory) (call : Removal) (s : System) : Prop where
  /-- The operation carries out the call. -/
  removing : Removing [call] s
  /-- Nobody creates a node. -/
  unpaid : ∀ p, births s.history p = 0
  /-- It stands at some node, with others on the stack. -/
  walked : ∃ stack state, s.operations = [.clear state] ∧ call.At s.memory stack state ∧
    call.Walked first s.memory stack (callsOf s.history)

namespace Clearing

variable {first : Memory} {call : Removal} {s : System}

theorem start (hm : first.Consistent) (ho : first.closed = false) (asked : Bool)
    (hcall : call.Proper) (hpath : first.has call.path = true) :
    Clearing first call (System.start first asked [call.operation]) := by
  have hcalls : ∀ call' ∈ [call], call'.Proper := by simpa using hcall
  refine ⟨Removing.start hm ho asked hcalls, fun _ => rfl, [], _, rfl, ?_, ?_⟩
  · rw [Clear.start_of_validate hcall.valid.validate]
    exact ⟨rfl, .top, hpath⟩
  · refine ⟨fun q hq _ => ?_, fun q hq hgone => ?_⟩
    · have hhas : (System.start first asked [call.operation]).memory.has q = true := hq
      rw [Removal.received, hhas]
      rfl
    · have hhas : (System.start first asked [call.operation]).memory.has q = true := hq
      rw [hhas] at hgone
      cases hgone

/-- The call lists the node where it stands. -/
private theorem step_listing (h : Clearing first call s) {limit : Value} {frame : Clear.Frame}
    {outer : List Clear.Frame} {stack : List String}
    (ho : s.operations = [.clear (.listing limit frame outer)])
    (hat : call.At s.memory stack (.listing limit frame outer))
    (hwalked : call.Walked first s.memory stack (callsOf s.history)) (order : Arrangement)
    (hremoving : Removing [call] (s.step (.turn ⟨0, order⟩)))
    (hunpaid : ∀ p, births (s.step (.turn ⟨0, order⟩)).history p = 0) :
    Clearing first call (s.step (.turn ⟨0, order⟩)) := by
  obtain ⟨rfl, hstanding, hpresent⟩ := hat
  have hm := h.removing.consistent
  have hvalid := hm.valid _ hpresent
  have ho' : s.operations[0]? = some (.clear (.listing limit frame outer)) :=
    System.operation_of_alone ho
  obtain ⟨answer, he⟩ := h.removing.step_listing ho' hvalid order
  obtain ⟨node, hn⟩ := Memory.has_iff.mp hpresent
  rw [he] at hremoving hunpaid ⊢
  refine ⟨hremoving, hunpaid, frame.path :: outer.map Clear.Frame.path, _, by rw [ho]; rfl, ?_, ?_⟩
  · rw [Clear.afterListing, hn]
    let listed : Clear.Frame := { frame with pending := (order.apply node.children).map .str }
    have hthere : s.memory.has listed.path = true := hpresent
    have hlists : Removal.Lists s.memory listed none := by
      refine ⟨order.apply node.children, rfl, ?_, fun name hname => ?_⟩
      · exact (order.perm _).nodup_iff.mpr (hm.children_nodup _ _ hn)
      · have hchild := (hm.mem_children_iff hn).mp ((order.perm _).mem_iff.mp hname)
        exact ⟨hchild.1, hchild.2, fun he => by cases he⟩
    exact Removal.at_next hthere hvalid hlists hstanding 0 _
  · refine (congrArg _ (callsOf_concat ..)).mpr ?_
    exact hwalked.list hm hpresent (hstanding.not_mem hm hvalid)

/-- The call deletes the node where it stands. It has no children left. -/
private theorem step_deleting (h : Clearing first call s) {limit : Value} {frame : Clear.Frame}
    {outer : List Clear.Frame} {stack : List String} (hcall : call.Proper)
    (hsound : call.Sound s.memory (births s.history) (.deleting limit frame outer))
    (ho : s.operations = [.clear (.deleting limit frame outer)])
    (hat : call.At s.memory stack (.deleting limit frame outer))
    (hwalked : call.Walked first s.memory stack (callsOf s.history)) (order : Arrangement)
    (hremoving : Removing [call] (s.step (.turn ⟨0, order⟩)))
    (hunpaid : ∀ p, births (s.step (.turn ⟨0, order⟩)).history p = 0) :
    Clearing first call (s.step (.turn ⟨0, order⟩)) := by
  obtain ⟨rfl, hstanding, hpresent⟩ := hat
  have hm := h.removing.consistent
  have hvalid := hm.valid _ hpresent
  have ho' : s.operations[0]? = some (.clear (.deleting limit frame outer)) :=
    System.operation_of_alone ho
  obtain ⟨answer, he⟩ := h.removing.step_deleting ho' hvalid
    (hsound.knows.2.2.2.ne_root hcall hsound.knows.1) order
  obtain ⟨node, hn⟩ := Memory.has_iff.mp hpresent
  have hchildless := Clear.childless_of_knows hm hsound.knows h.unpaid hn
  rw [he] at hremoving hunpaid ⊢
  simp only [Clear.afterDeleting, hn, hchildless, if_true] at hremoving hunpaid ⊢
  refine ⟨hremoving, hunpaid, outer.map Clear.Frame.path, _, by rw [ho]; rfl, ?_, ?_⟩
  · exact Removal.at_proceed (hm.unlink hn hchildless) (hstanding.unlink hm hvalid.isAbove) _ _
  · refine (congrArg _ (callsOf_concat ..)).mpr ?_
    exact hwalked.delete hm hpresent

theorem turn (h : Clearing first call s) (turn : Turn) :
    Clearing first call (s.step (.turn turn)) := by
  obtain ⟨hbirths, -⟩ := h.removing.memory_turn turn
  have hremoving := h.removing.turn turn
  have hunpaid : ∀ p, births (s.step (.turn turn)).history p = 0 := by
    rw [hbirths]
    exact h.unpaid
  obtain ⟨number, order⟩ := turn
  obtain ⟨stack, state, ho, hat, hwalked⟩ := h.walked
  cases number with
  | succ number =>
    rw [System.step_of_absent (by rw [ho]; rfl)]
    exact h
  | zero =>
    have ho' : s.operations[0]? = some (.clear state) := System.operation_of_alone ho
    obtain ⟨call', hc', hcall, state', hstate, hsound⟩ := System.exists_call h.removing.follows ho'
    obtain rfl : call = call' := by simpa using hc'
    obtain rfl : state = state' := by simpa using hstate
    cases state with
    | listing limit frame outer =>
      exact h.step_listing ho hat hwalked order hremoving hunpaid
    | deleting limit frame outer =>
      exact h.step_deleting hcall hsound ho hat hwalked order hremoving hunpaid
    | done outcome =>
      rw [System.step_of_finished ho' rfl]
      exact h

end Clearing

/-- A store that has lost nodes that the call deletes, and no others. -/
structure Removal.Pruned (call : Removal) (first m : Memory) : Prop where
  /-- The nodes that stay are as they were, but for their children. -/
  kept : ∀ q n, first.find? q = some n → ¬ call.Removes q →
    ∃ children, m.find? q = some { n with children }
  /-- Only parents of nodes that go lose children. -/
  same : ∀ q, ¬ call.Removes q →
    (∀ r, Path.IsValid r → call.Removes r → Path.parent r ≠ q) → m.find? q = first.find? q

theorem Removal.Pruned.unlink {call : Removal} {first m : Memory} {p : String}
    (h : call.Pruned first m) (hvalid : Path.IsValid p) (hp : call.Removes p) :
    call.Pruned first (m.unlink p).1 := by
  have hne : ∀ q, ¬ call.Removes q → q ≠ p := by
    rintro q hq rfl
    exact hq hp
  constructor
  · intro q n hn hq
    obtain ⟨children, hold⟩ := h.kept q n hn hq
    rw [Memory.find?_unlink, if_neg (hne q hq), hold]
    split
    · exact ⟨_, rfl⟩
    · exact ⟨_, rfl⟩
  · intro q hq hparents
    rw [Memory.find?_unlink, if_neg (hne q hq), if_neg (Ne.symm (hparents p hvalid hp))]
    exact h.same q hq hparents

/-- The one node that stays and loses children is the path, or its parent if the path goes. -/
theorem Removal.parent_ne_of_removes {call : Removal} {q r : String} (hr : call.Removes r)
    (hvalid : Path.IsValid r) (hq : ¬ call.Removes q)
    (hbrink : q ≠ if call.deletesSelf then Path.parent call.path else call.path) :
    Path.parent r ≠ q := by
  rintro rfl
  by_cases hpath : r = call.path
  · -- The path itself goes, so that its parent is the node that loses a child.
    subst hpath
    rw [if_pos (hr.self.resolve_right fun hne => hne rfl)] at hbrink
    exact hbrink rfl
  · have hup := hr.isAbove.parent hvalid hpath
    split at hbrink
    · rename_i hself
      exact hq ⟨hup, .inl hself⟩
    · exact hq ⟨hup, .inr hbrink⟩

namespace System

variable {m : Memory} {call : Removal}

theorem pruned_alone (hm : m.Consistent) (ho : m.closed = false) (asked : Bool)
    (hcall : call.Proper) (orders : List Arrangement) :
    let s := alone m asked call.operation orders
    call.Pruned m s.memory ∧ (m.has call.path = false → s.memory = m) := by
  have hcalls : ∀ call' ∈ [call], call'.Proper := by simpa using hcall
  suffices h : ∀ s : System, Removing [call] s ∧ call.Pruned m s.memory ∧
      (m.has call.path = false → s.memory = m) → ∀ turn : Turn,
      Removing [call] (s.step (.turn turn)) ∧ call.Pruned m (s.step (.turn turn)).memory ∧
        (m.has call.path = false → (s.step (.turn turn)).memory = m) from
    (interleave_induction
      (motive := fun s => Removing [call] s ∧ call.Pruned m s.memory ∧
        (m.has call.path = false → s.memory = m))
      ⟨Removing.start hm ho asked hcalls, ⟨fun q n hn _ => ⟨n.children, hn⟩, fun q _ _ => rfl⟩,
        fun _ => rfl⟩ (fun s turn hs => h s hs turn) _).2
  rintro s ⟨hremoving, hpruned, hmissing⟩ turn
  refine ⟨hremoving.turn turn, ?_⟩
  obtain ⟨-, hsame | ⟨call', hc, q, node, hq, hn, -, hgone⟩⟩ := hremoving.memory_turn turn
  · rw [hsame]
    exact ⟨hpruned, hmissing⟩
  · obtain rfl := List.mem_singleton.mp hc
    rw [hgone]
    have hvalid := hremoving.consistent.valid q (Memory.has_of_find? hn)
    refine ⟨hpruned.unlink hvalid hq, fun hpath => ?_⟩
    rw [hmissing hpath] at hn
    rw [hm.has_of_isAbove (Memory.has_of_find? hn) hq.isAbove] at hpath
    cases hpath

theorem clearing_alone (hm : m.Consistent) (ho : m.closed = false) (asked : Bool)
    (hcall : call.Proper) (hpath : m.has call.path = true) (orders : List Arrangement) :
    Clearing m call (alone m asked call.operation orders) :=
  interleave_induction (.start hm ho asked hcall hpath) (fun _ turn h => h.turn turn) _

end System

/-- A recursive deletion that nobody disturbs returns after one attempt, whatever its limit and in
whatever orders names are listed. Afterwards all nodes below its path are gone, and the one at the
path if that is to go; the others are as they were, but that one of them has lost the children that
went, which is the path or, if that went, its parent. If the path is missing, nothing changes. Each
node that went was listed once and then deleted once, and after its deletion there were no calls
about nodes below it. -/
theorem deletion_clears {m : Memory} (hm : m.Reachable) (ho : m.closed = false) {call : Removal}
    (hpath : Path.IsValid call.path) (hroot : call.deletesSelf = true → call.path ≠ Path.root) :
    ∃ enough, ∀ (asked : Bool) (orders : List Arrangement), enough ≤ orders.length →
      let s := System.alone m asked call.operation orders
      s.outcome 0 = some (.ok (.int 1)) ∧
      (∀ q, s.memory.has q = true ↔ m.has q = true ∧ ¬ call.Removes q) ∧
      (∀ q n, m.find? q = some n → ¬ call.Removes q →
        ∃ children, s.memory.find? q = some { n with children } ∧
          ∀ name, name ∈ children ↔ name ∈ n.children ∧ ¬ call.Removes (Path.join [q, name])) ∧
      (∀ q, ¬ call.Removes q →
        q ≠ (if call.deletesSelf then Path.parent call.path else call.path) →
        s.memory.find? q = m.find? q) ∧
      (m.has call.path = false → s.memory = m) ∧
      ∀ q, m.has q = true → call.Removes q →
        (callsOf s.history).filter (fun other => other.path = q) =
          [.children q, .delete q anyVersion] ∧
        ∃ before after, callsOf s.history = before ++ .delete q anyVersion :: after ∧
          ∀ later ∈ after, ¬ Path.IsAbove q later.path := by
  have hcall : call.Proper := ⟨hpath, hroot⟩
  obtain ⟨enough, halone⟩ := System.alone_removal hm.consistent ho hcall
  refine ⟨enough, fun asked orders horders => ?_⟩
  intro s
  obtain ⟨hout, hcompleted⟩ := halone asked orders horders
  obtain ⟨hpruned, hmissing⟩ := System.pruned_alone hm.consistent ho asked hcall orders
  refine ⟨hout, hcompleted.has_iff, ?_, ?_, hmissing, ?_⟩
  · intro q n hn hq
    obtain ⟨children, hkept⟩ := hpruned.kept q n hn hq
    refine ⟨children, hkept, fun name => ?_⟩
    rw [hm.consistent.mem_children_iff hn, and_assoc, ← hcompleted.has_iff]
    exact hcompleted.consistent.mem_children_iff hkept
  · intro q hq hbrink
    exact hpruned.same q hq fun r hvalid hr => Removal.parent_ne_of_removes hr hvalid hq hbrink
  · intro q hq hremoves
    have hwalked := System.clearing_alone hm.consistent ho asked hcall
      (hm.consistent.has_of_isAbove hq hremoves.isAbove) orders
    obtain ⟨stack, state, -, -, hwalked⟩ := hwalked.walked
    have hgone : s.memory.has q = false := by
      rw [← Bool.not_eq_true, hcompleted.has_iff]
      exact fun h => h.2 hremoves
    refine ⟨?_, hwalked.ordered q hq hgone⟩
    have hreceived := hwalked.received q hq hremoves
    rwa [Removal.received, if_pos hgone] at hreceived

/-- A node with a child and a grandchild is taken away, and its sibling is not. -/
theorem deletion_clears_below :
    let m := ({} : Memory).run [.call (.create "/a" [] [] .persistent),
      .call (.create "/a/b" [] [] .persistent), .call (.create "/a/b/c" [] [] .persistent),
      .call (.create "/d" [1] [] .persistent)]
    let call : Removal := ⟨[], "/a", some (.bool true), some (some 0)⟩
    ∃ orders : List Arrangement,
      let s := System.alone m false call.operation orders
      s.outcome 0 = some (.ok (.int 1)) ∧ s.memory.find? "/d" = m.find? "/d" ∧
        (callsOf s.history).filter (fun other => other.path = "/a/b") =
          [.children "/a/b", .delete "/a/b" anyVersion] := by
  intro m call
  have hreachable : m.Reachable := ⟨true, _, rfl⟩
  have ho : m.closed = false := by decide +kernel
  have hpath : Path.IsValid call.path := by decide
  have hroot : call.deletesSelf = true → call.path ≠ Path.root := by decide
  obtain ⟨enough, hall⟩ := deletion_clears hreachable ho hpath hroot
  let order : Arrangement := ⟨id, fun _ => .refl _⟩
  refine ⟨List.replicate enough order, ?_⟩
  obtain ⟨hout, -, -, hsame, -, hcalls⟩ :=
    hall false (List.replicate enough order) (by rw [List.length_replicate])
  have hstays : ¬ call.Removes "/d" := fun h => absurd h.isAbove.segments (by decide +kernel)
  have hgoes : call.Removes "/a/b" := ⟨⟨hpath, by decide +kernel⟩, .inl (by decide)⟩
  have hthere : m.has "/a/b" = true := by decide +kernel
  exact ⟨hout, hsame "/d" hstays (by decide +kernel), (hcalls "/a/b" hthere hgoes).1⟩

end TreeStore.Concurrency
