import TreeStore.Proofs.Concurrency.System
import TreeStore.Proofs.Operation.Scopes

/-!
# Recursive deletion among other clients

What a recursive deletion knows about a store that others change at the same time. Each of its
levels has listed the children of a node and clears them one after the other. A child that turns up
although it was cleared, or was never listed, was created by another client since the listing; so an
attempt that fails is paid for by a creation that no earlier attempt has been paid with. The
creations are counted for each node: its credit is how many of its children other clients have
created so far.
-/

namespace TreeStore

namespace Clear

variable {m : Memory} {limit : Value} {frame : Frame} {outer : List Frame}

/-- How recursive deletion goes on when it has listed the innermost node. -/
def afterListing (m : Memory) (order : List String → List String) (limit : Value) (frame : Frame)
    (outer : List Frame) : Clear :=
  match m.find? frame.path with
  | none => proceed limit frame.attempts frame.outside outer
  | some node =>
    proceed limit 0 frame.context
      ({ frame with pending := (order node.children).map .str } :: outer)

/-- The store after the innermost node was to be deleted, and how recursive deletion goes on. -/
def afterDeleting (m : Memory) (limit : Value) (frame : Frame) (outer : List Frame) :
    Memory × Clear :=
  match m.find? frame.path with
  | none => (m, proceed limit frame.attempts frame.outside outer)
  | some node =>
    if node.children = [] then
      ((m.unlink frame.path).1, proceed limit frame.attempts frame.outside outer)
    else (m, (retry limit frame outer (Problem.ofStore .notEmpty frame.path)).2)

/-- An answered listing leads to the state after listing. -/
theorem resume_children (hp : Path.IsValid frame.path) (ho : m.closed = false)
    (order : List String → List String) {resume : Answer → List LogRecord × Clear}
    (h : (listing limit frame outer).next = .calling (.children frame.path) resume) :
    (resume (m.serve order (.children frame.path)).2).2 =
      afterListing m order limit frame outer := by
  obtain ⟨-, rfl⟩ := Next.calling.inj h
  simp only [Memory.serve, Memory.children_of_open hp ho, afterListing]
  cases m.find? frame.path <;> rfl

theorem resume_delete (hp : Path.IsValid frame.path) (ho : m.closed = false) (hm : m.Consistent)
    (hne : frame.path ≠ Path.root) (order : List String → List String)
    {resume : Answer → List LogRecord × Clear}
    (h : (deleting limit frame outer).next = .calling (.delete frame.path anyVersion) resume) :
    let served := m.serve order (.delete frame.path anyVersion)
    (served.1, (resume served.2).2) = afterDeleting m limit frame outer := by
  obtain ⟨-, rfl⟩ := Next.calling.inj h
  simp only [Memory.serve, Memory.delete_any hp ho, afterDeleting]
  cases hn : m.find? frame.path with
  | none => rfl
  | some node =>
    dsimp only
    by_cases hc : node.children = []
    · rw [if_neg (not_not_intro hc), if_pos hc, hm.unlink_eq_ok (Memory.has_of_find? hn) hne]
      rfl
    · rw [if_pos hc, if_neg hc]
      rfl

/-- The store is left as it is, or the innermost node, which has no children, is gone. -/
theorem afterDeleting_cases (m : Memory) (limit : Value) (frame : Frame) (outer : List Frame) :
    (afterDeleting m limit frame outer).1 = m ∨
    ∃ node, m.find? frame.path = some node ∧ node.children = [] ∧
      (afterDeleting m limit frame outer).1 = (m.unlink frame.path).1 := by
  rw [afterDeleting]
  split
  · exact .inl rfl
  · rename_i node hn
    split
    · rename_i hc
      exact .inr ⟨node, hn, hc, rfl⟩
    · exact .inl rfl

variable {ambient own : Context}

/-- Scopes are kept when a listing is answered. -/
theorem scoped_afterListing (h : Scoped limit ambient own (listing limit frame outer))
    (hown : Covers limit own) (m : Memory) (order : List String → List String) :
    Scoped limit ambient own (afterListing m order limit frame outer) := by
  obtain ⟨-, hnested⟩ := h
  rw [afterListing]
  split
  · exact scoped_leave hnested hown ""
  · rename_i node _
    have hframe : Nested limit ambient own
        ({ frame with pending := (order node.children).map .str } :: outer) :=
      hnested.replace rfl rfl rfl
    exact scoped_proceed hown 0 (.inr hframe)

/-- Scopes are kept when a deletion is answered. -/
theorem scoped_afterDeleting (h : Scoped limit ambient own (deleting limit frame outer))
    (hown : Covers limit own) (m : Memory) :
    Scoped limit ambient own (afterDeleting m limit frame outer).2 := by
  obtain ⟨-, hnested⟩ := h
  rw [afterDeleting]
  split
  · exact scoped_leave hnested hown ""
  · split
    · exact scoped_leave hnested hown ""
    · exact scoped_retry hnested hown _

end Clear

namespace Concurrency

/-- A call of recursive deletion. -/
structure Removal where
  /-- The context that the call is made in. -/
  ambient : Context
  /-- The path below which to delete. -/
  path : String
  /-- Whether the node itself goes, too, if that is said. -/
  deleteSelf : Option Value
  /-- The most attempts for each node, if that is said and if there is such a limit. -/
  limit : Option (Option Int)

namespace Removal

/-- A limit, or the lack of one, as a value. -/
def limitValue : Option Int → Value
  | none => .null
  | some most => .int most

/-- The operation that carries out the call. -/
def operation (call : Removal) : Operation :=
  .deleteChildren call.ambient call.path call.deleteSelf (call.limit.map limitValue)

/-- The context inside of the call. -/
def context (call : Removal) : Context :=
  Operation.deletionContext call.ambient call.path call.deleteSelf (call.limit.map limitValue)

/-- Whether the node itself goes, too; it stays unless the caller says otherwise. -/
def deletesSelf (call : Removal) : Bool := (call.deleteSelf.getD (.bool false)).truthy

/-- The most attempts for each node; there is no limit unless the caller gives one. -/
def most (call : Removal) : Option Int := call.limit.getD none

/-- The context inside of the level for a node: that of the call at its own path, and below it the
one for a child. -/
def contextAt (call : Removal) (q : String) : Context :=
  if q = call.path then call.context
  else Clear.childContext (limitValue call.most) call.context q

/-- The failure with which a level gives up after some attempts, as it leaves the level. -/
def exhausted (call : Removal) (q : String) (attempts : Nat) : Failure :=
  Failure.leaving
    { problem := .retriesExhausted q attempts, source := some (.ofStore .notEmpty q) }
    (call.contextAt q)

/-- The path is valid, and the root is not to be deleted. -/
structure Proper (call : Removal) : Prop where
  /-- The path is valid. -/
  valid : Path.IsValid call.path
  /-- The root stays. -/
  keepsRoot : call.deletesSelf = true → call.path ≠ Path.root

/-- The nodes that the call deletes: those below its path, and the node there if that goes, too. -/
structure Removes (call : Removal) (q : String) : Prop where
  /-- The node is at the path or below it. -/
  isAbove : Path.IsAbove call.path q
  /-- It is not the one at the path, or that one goes, too. -/
  self : call.deletesSelf = true ∨ q ≠ call.path

/-- The limit is reached when there were as many attempts; no limit never is. -/
theorem reached?_limitValue (most : Option Int) (attempts : Nat) :
    Clear.reached? (limitValue most) attempts =
      some (most.any fun n => decide (n ≤ (attempts : Int))) := by
  cases most with
  | none => rfl
  | some n => rw [limitValue, Clear.reached?_int, Option.any_some]

variable {call : Removal} {m m' : Memory} {credit credit' : String → Nat}

/-- A node that is new in a store was paid for, at its parent. -/
structure Paid (m m' : Memory) (credit credit' : String → Nat) : Prop where
  /-- What was paid before still counts. -/
  mono : ∀ p, credit p ≤ credit' p
  /-- Each new node was paid for. -/
  new : ∀ q, m'.has q = true → m.has q = true ∨ credit (Path.parent q) < credit' (Path.parent q)

/-- The attempt at a node is paid for, or the node has no children but some. -/
def Covered (m : Memory) (credit : String → Nat) (path : String) (attempts : Nat)
    (known : String → Prop) : Prop :=
  attempts ≤ credit path ∨
    ∀ name, Path.IsName name → m.has (Path.join [path, name]) = true → known name

/-- A node goes on to be covered while the known children that are there stay known. -/
theorem Covered.imp {path : String} {attempts : Nat} {known known' : String → Prop}
    (h : Covered m credit path attempts known)
    (hknown : ∀ name, m.has (Path.join [path, name]) = true → known name → known' name) :
    Covered m credit path attempts known' :=
  h.imp_right fun h name hname hhas => hknown name hhas (h name hname hhas)

/-- A new child pays for the attempt that it disturbs. -/
theorem Covered.mono {path : String} {attempts : Nat} {known : String → Prop}
    (h : Covered m credit path attempts known) (hpath : Path.IsValid path)
    (hfund : attempts ≤ credit path + 1) (hp : Paid m m' credit credit') :
    Covered m' credit' path attempts known := by
  have hle := hp.mono path
  rcases h with h | h
  · exact .inl (Nat.le_trans h hle)
  by_cases hlt : credit path < credit' path
  · exact .inl (by omega)
  · refine .inr fun name hname hhas => h name hname ?_
    rcases hp.new _ hhas with hold | hnew
    · exact hold
    · rw [Path.parent_join hpath hname] at hnew
      exact absurd hnew hlt

/-- The attempts at a node so far: all but the present one are paid for, and there may be so many.
-/
structure Funded (call : Removal) (credit : String → Nat) (path : String) (attempts : Nat) :
    Prop where
  /-- There is a present attempt. -/
  pos : 1 ≤ attempts
  /-- The earlier ones are paid for. -/
  paid : attempts ≤ credit path + 1
  /-- The first attempt is always made, the others within the limit. -/
  within : attempts = 1 ∨ ∀ most, call.most = some most → (attempts : Int) ≤ most

/-- Attempts that were paid for stay so. -/
theorem Funded.mono {path : String} {attempts : Nat} (h : Funded call credit path attempts)
    (hp : Paid m m' credit credit') : Funded call credit' path attempts :=
  ⟨h.pos, Nat.le_trans h.paid (Nat.succ_le_succ (hp.mono _)), h.within⟩

/-- A level that has listed its node and is clearing one of the children, or none at the moment. -/
structure Working (call : Removal) (m : Memory) (credit : String → Nat) (frame : Clear.Frame)
    (current : Option String) : Prop where
  /-- The attempts are accounted for. -/
  funded : Funded call credit frame.path frame.attempts
  /-- The children that are left to clear have proper names. -/
  names : ∀ child ∈ frame.pending, ∃ name, child = .str name ∧ Path.IsName name
  /-- No other child is there, unless the attempt is paid for. -/
  covered : Covered m credit frame.path frame.attempts fun name =>
    .str name ∈ frame.pending ∨ current = some name

/-- A level keeps what it knows when others change the store, as they pay for it. -/
theorem Working.mono {frame : Clear.Frame} {current : Option String}
    (h : Working call m credit frame current) (hpath : Path.IsValid frame.path)
    (hp : Paid m m' credit credit') : Working call m' credit' frame current :=
  ⟨h.funded.mono hp, h.names, h.covered.mono hpath h.funded.paid hp⟩

/-- A level for a path is in its place: it is the one of the call, or it clears a child of the level
above it. -/
inductive Nested (call : Removal) (m : Memory) (credit : String → Nat) :
    String → Bool → List Clear.Frame → Prop
  | top : Nested call m credit call.path call.deletesSelf []
  | child (frame : Clear.Frame) {outer : List Clear.Frame} {name : String} :
      Nested call m credit frame.path frame.deleteSelf outer →
      Working call m credit frame (some name) → Path.IsName name →
      Nested call m credit (Path.join [frame.path, name]) true (frame :: outer)

namespace Nested

variable {path : String} {goes : Bool} {outer : List Clear.Frame}

/-- A level in its place is at a valid path. -/
theorem isValid (h : Nested call m credit path goes outer) (hcall : call.Proper) :
    Path.IsValid path := by
  induction h with
  | top => exact hcall.valid
  | child _ _ _ hname ih => exact ih.join hname

/-- A level in its place is at the path of the call or below. -/
theorem isAbove (h : Nested call m credit path goes outer) (hcall : call.Proper) :
    Path.IsAbove call.path path := by
  induction h with
  | top => exact hcall.valid.isAbove
  | child _ h _ hname ih => exact ih.trans (Path.isAbove_join (h.isValid hcall) hname)

/-- A node that is to be deleted is not the root. -/
theorem ne_root (h : Nested call m credit path goes outer) (hcall : call.Proper)
    (hself : goes = true) : path ≠ Path.root := by
  cases h with
  | top => exact hcall.keepsRoot hself
  | child _ h _ hname => exact Path.join_ne_root (h.isValid hcall) hname

/-- A level inside of another one is not at the path of the call. -/
theorem ne_path {frame : Clear.Frame} (h : Nested call m credit path goes (frame :: outer))
    (hcall : call.Proper) : path ≠ call.path := by
  cases h with
  | child _ h _ hname =>
    refine fun he => Path.not_isAbove_of_join (h.isValid hcall) hname ?_
    rw [he]
    exact h.isAbove hcall

/-- A node that is to be deleted is one of those that the call deletes. -/
theorem removes (h : Nested call m credit path goes outer) (hcall : call.Proper)
    (hself : goes = true) : call.Removes path := by
  refine ⟨h.isAbove hcall, ?_⟩
  cases outer with
  | cons frame outer => exact .inr (h.ne_path hcall)
  | nil =>
    cases h with
    | top => exact .inl hself

/-- The context of a level is the one for its path. -/
theorem context_eq {frame : Clear.Frame}
    (h : Nested call m credit frame.path frame.deleteSelf outer) (hcall : call.Proper)
    (hnested : Clear.Nested (limitValue call.most) call.ambient call.context (frame :: outer)) :
    frame.context = call.contextAt frame.path := by
  rw [contextAt]
  cases hnested with
  | child _ inside => rw [inside, if_neg (h.ne_path hcall)]
  | outermost inside =>
    generalize hpath : frame.path = path at h
    generalize frame.deleteSelf = goes at h
    cases h with
    | top => rw [inside, if_pos rfl]

/-- A level keeps its place when others change the store. -/
theorem mono (h : Nested call m credit path goes outer) (hcall : call.Proper)
    (hp : Paid m m' credit credit') : Nested call m' credit' path goes outer := by
  induction h with
  | top => exact .top
  | child frame h hwork hname ih => exact .child frame ih (hwork.mono (h.isValid hcall) hp) hname

end Nested

/-- The node that a level returned from has been cleared, and is gone if it was to go. -/
structure Finished (m : Memory) (credit : String → Nat) (path : String) (goes : Bool)
    (attempts : Nat) : Prop where
  /-- There was an attempt. -/
  pos : 1 ≤ attempts
  /-- All but the last one are paid for. -/
  paid : attempts ≤ credit path + 1
  /-- There are no children, unless all attempts are paid for. -/
  covered : Covered m credit path attempts fun _ => False
  /-- The node is gone if it was to go. -/
  gone : goes = true → m.has path = false

/-- A level whose node is missing is done with it. -/
theorem Finished.of_missing {frame : Clear.Frame} {goes : Bool} (hm : m.Consistent)
    (hpath : Path.IsValid frame.path) (hfund : Funded call credit frame.path frame.attempts)
    (hgone : m.has frame.path = false) : Finished m credit frame.path goes frame.attempts := by
  refine ⟨hfund.pos, hfund.paid, .inr fun name hname hhas => ?_, fun _ => hgone⟩
  rw [hm.not_has_join hpath hgone hname] at hhas
  cases hhas

/-- How the call may end, given the creations that were paid with. -/
inductive Ends (call : Removal) (m : Memory) (credit : String → Nat) : Answer → Prop
  | returned (attempts : Nat) (pos : 1 ≤ attempts) (paid : attempts ≤ credit call.path + 1)
      (covered : Covered m credit call.path attempts fun _ => False)
      (gone : call.deletesSelf = true → credit (Path.parent call.path) = 0 →
        m.has call.path = false) :
      Ends call m credit (.ok (.int attempts))
  | exhausted (q : String) (attempts : Nat) (most : Int) (limit : call.most = some most)
      (reached : (attempts : Int) = max most 1) (isAbove : Path.IsAbove call.path q)
      (paid : attempts ≤ credit q) : Ends call m credit (.error (call.exhausted q attempts))

/-- What a recursive deletion that carries out the call knows of the store. -/
def Knows (call : Removal) (m : Memory) (credit : String → Nat) : Clear → Prop
  | .listing _ frame outer => Funded call credit frame.path frame.attempts ∧
      Nested call m credit frame.path frame.deleteSelf outer
  | .deleting _ frame outer => frame.deleteSelf = true ∧ frame.pending = [] ∧
      Working call m credit frame none ∧ Nested call m credit frame.path frame.deleteSelf outer
  | .done outcome _ => Ends call m credit outcome

/-- Changes of the store that are paid for make nothing wrong that a recursive deletion knows. -/
theorem Knows.mono {state : Clear} (h : Knows call m credit state) (hcall : call.Proper)
    (hp : Paid m m' credit credit') : Knows call m' credit' state := by
  cases state with
  | listing limit frame outer =>
    obtain ⟨hfund, hnest⟩ := h
    exact ⟨hfund.mono hp, hnest.mono hcall hp⟩
  | deleting limit frame outer =>
    obtain ⟨hself, hpending, hwork, hnest⟩ := h
    exact ⟨hself, hpending, hwork.mono (hnest.isValid hcall) hp, hnest.mono hcall hp⟩
  | done outcome =>
    cases h with
    | returned attempts pos paid covered gone =>
      have hle := hp.mono call.path
      refine .returned attempts pos (by omega) (covered.mono hcall.valid paid hp) ?_
      intro hself hzero
      have hle' := hp.mono (Path.parent call.path)
      rw [← Bool.not_eq_true]
      intro hhas
      rcases hp.new _ hhas with hold | hnew
      · rw [gone hself (by omega)] at hold
        cases hold
      · omega
    | exhausted q attempts most limit reached isAbove paid =>
      exact .exhausted q attempts most limit reached isAbove (Nat.le_trans paid (hp.mono q))

/-- A recursive deletion that carries out the call, with its levels nested in one another. -/
structure Sound (call : Removal) (m : Memory) (credit : String → Nat) (state : Clear) : Prop where
  /-- The levels are nested. -/
  nested : state.Scoped (limitValue call.most) call.ambient call.context
  /-- What it knows holds. -/
  knows : Knows call m credit state

/-- The limit is among the arguments of the call. -/
theorem covers (call : Removal) : Clear.Covers (limitValue call.most) call.context := by
  have hlimit : (call.limit.map limitValue).getD .null = limitValue call.most := by
    rw [most]
    cases call.limit <;> rfl
  rw [← hlimit]
  exact Operation.covers_deletionContext _ _ _ _

/-- If the context inside of a level cannot be written, neither can that of the call. -/
theorem isOverlong_context {q : String} (h : (call.contextAt q).isOverlong = true) :
    call.context.isOverlong = true := by
  rw [contextAt] at h
  split at h
  · exact h
  · exact (Clear.isOverlong_of_childContext h).elim id call.covers

/-- That there may be no more attempts gets lost where the context cannot be written. -/
theorem exhausted_problem (q : String) (attempts : Nat) :
    (call.exhausted q attempts).problem =
      if (call.contextAt q).isOverlong then .argument .overlongNumber
      else .retriesExhausted q attempts := by
  rw [exhausted]
  cases hcontext : (call.contextAt q).isOverlong with
  | true =>
    rw [Failure.leaving_of_overlong rfl rfl hcontext]
    rfl
  | false => exact (Failure.leaving_problem _ hcontext).1

variable {limit : Value} {frame : Clear.Frame} {outer : List Clear.Frame}

/-- At first the call knows nothing. -/
theorem sound_start (hcall : call.Proper) :
    Sound call m credit
      (Clear.start (limitValue call.most) call.ambient call.context call.path
        call.deletesSelf) := by
  refine ⟨Clear.scoped_start call.covers _ _, ?_⟩
  rw [Clear.start_of_validate hcall.valid.validate]
  exact ⟨⟨Nat.le_refl 1, Nat.le_add_left 1 _, .inl rfl⟩, .top⟩

/-- A level that has listed its node goes on to the next child, to the node or out. -/
theorem knows_next (hcall : call.Proper) (hwork : Working call m credit frame none)
    (hnest : Nested call m credit frame.path frame.deleteSelf outer) (attempts : Nat)
    (active : Context) :
    Knows call m credit (Clear.proceed limit attempts active (frame :: outer)) := by
  have hvalid := hnest.isValid hcall
  rw [Clear.proceed]
  cases hpending : frame.pending with
  | cons child rest =>
    obtain ⟨name, rfl, hname⟩ := hwork.names child (by rw [hpending]; exact List.mem_cons_self)
    have hchild : Working call m credit { frame with context := active, pending := rest }
        (some name) := by
      refine ⟨hwork.funded, fun other ho => hwork.names other ?_, hwork.covered.imp ?_⟩
      · rw [hpending]
        exact List.mem_cons_of_mem _ ho
      · rintro other - (hmem | hnone)
        · rw [hpending, List.mem_cons] at hmem
          rcases hmem with he | hmem
          · exact .inr (congrArg some (Value.str.inj he).symm)
          · exact .inl hmem
        · cases hnone
    dsimp only
    rw [Clear.enterChild, Path.joinValues_str hvalid hname]
    dsimp only
    rw [Clear.enter, (hvalid.join hname).validate]
    exact ⟨⟨Nat.le_refl 1, Nat.le_add_left 1 _, .inl rfl⟩,
      .child { frame with context := active, pending := rest } hnest hchild hname⟩
  | nil =>
    dsimp only
    by_cases hself : frame.deleteSelf = true
    · rw [if_pos hself]
      have hactive : Working call m credit { frame with context := active } none :=
        ⟨hwork.funded, hwork.names, hwork.covered⟩
      rw [hpending] at hactive
      exact ⟨hself, rfl, hactive, hnest⟩
    · rw [if_neg hself]
      generalize hpath : frame.path = path at hnest
      generalize hdelete : frame.deleteSelf = goes at hnest
      cases hnest with
      | child _ _ _ _ => exact absurd hdelete hself
      | top =>
        have hcovered := hwork.covered
        have hpaid := hwork.funded.paid
        rw [hpath] at hpaid
        rw [hpath, hpending] at hcovered
        refine Ends.returned frame.attempts hwork.funded.pos hpaid (hcovered.imp ?_) ?_
        · rintro name - (hmem | hnone)
          · cases hmem
          · cases hnone
        · intro htrue
          exact absurd (hdelete.trans htrue) hself

/-- A level returns to the one above it, or from the call. -/
theorem knows_proceed (hcall : call.Proper) {path : String} {goes : Bool} {attempts : Nat}
    (hfinished : Finished m credit path goes attempts)
    (hnest : Nested call m credit path goes outer) (active : Context) :
    Knows call m credit (Clear.proceed limit attempts active outer) := by
  cases hnest with
  | top =>
    exact Ends.returned attempts hfinished.pos hfinished.paid hfinished.covered
      fun hself _ => hfinished.gone hself
  | child _ hnest hwork hname =>
    refine knows_next hcall ⟨hwork.funded, hwork.names, hwork.covered.imp ?_⟩ hnest attempts active
    rintro other hhas (hmem | hcurrent)
    · exact .inl hmem
    · obtain rfl := Option.some.inj hcurrent
      rw [hfinished.gone rfl] at hhas
      cases hhas

/-- What is known after a listing. -/
theorem sound_afterListing (hcall : call.Proper) (hm : m.Consistent)
    (h : Sound call m credit (.listing limit frame outer)) (order : Arrangement) :
    Sound call m credit (Clear.afterListing m order.apply limit frame outer) := by
  obtain ⟨hnested, hfund, hnest⟩ := h
  obtain rfl := hnested.1
  refine ⟨Clear.scoped_afterListing hnested call.covers m order.apply, ?_⟩
  have hvalid := hnest.isValid hcall
  rw [Clear.afterListing]
  cases hn : m.find? frame.path with
  | none =>
    have hgone := Memory.find?_eq_none_iff.mp hn
    exact knows_proceed hcall (.of_missing hm hvalid hfund hgone) hnest _
  | some node =>
    have hmem : ∀ name, name ∈ order.apply node.children ↔
        Path.IsName name ∧ m.has (Path.join [frame.path, name]) = true := by
      intro name
      rw [(order.perm _).mem_iff]
      exact hm.mem_children_iff hn
    have hwork : Working call m credit
        { frame with pending := (order.apply node.children).map .str } none := by
      refine ⟨hfund, ?_, .inr fun name hname hhas => .inl ?_⟩
      · intro child hchild
        obtain ⟨name, hname, rfl⟩ := List.mem_map.mp hchild
        exact ⟨name, rfl, ((hmem name).mp hname).1⟩
      · exact List.mem_map_of_mem ((hmem name).mpr ⟨hname, hhas⟩)
    exact knows_next hcall hwork hnest 0 _

/-- What is known when a node has children although it was to be deleted: someone paid for the
attempt. -/
theorem knows_retry (hcall : call.Proper)
    (hnested : Clear.Nested (limitValue call.most) call.ambient call.context (frame :: outer))
    (hfund : Funded call credit frame.path frame.attempts)
    (hpaid : frame.attempts ≤ credit frame.path)
    (hnest : Nested call m credit frame.path frame.deleteSelf outer) :
    Knows call m credit (Clear.retry (limitValue call.most) frame outer
      (Problem.ofStore .notEmpty frame.path)).2 := by
  rw [Clear.retry, reached?_limitValue]
  have hpos := hfund.pos
  have hwithin := hfund.within
  cases hmost : call.most with
  | none =>
    refine ⟨⟨Nat.le_add_left 1 _, Nat.succ_le_succ hpaid, .inr ?_⟩, hnest⟩
    intro most hsome
    rw [hmost] at hsome
    cases hsome
  | some most =>
    rw [Option.any_some]
    by_cases hle : most ≤ (frame.attempts : Int)
    · rw [decide_eq_true hle]
      have hreached : (frame.attempts : Int) = max most 1 := by
        rcases hwithin with hone | hall
        · omega
        · have hge := hall most hmost
          omega
      dsimp only
      rw [Clear.failed_eq hnested call.covers, hnest.context_eq hcall hnested]
      exact Ends.exhausted frame.path frame.attempts most hmost hreached (hnest.isAbove hcall) hpaid
    · rw [decide_eq_false hle]
      refine ⟨⟨Nat.le_add_left 1 _, Nat.succ_le_succ hpaid, .inr ?_⟩, hnest⟩
      intro most' hsome
      rw [hmost] at hsome
      obtain rfl := Option.some.inj hsome
      dsimp only
      omega

/-- Whoever deletes a node pays nothing and owes nothing. -/
theorem paid_unlink (m : Memory) (credit : String → Nat) (path : String) :
    Paid m (m.unlink path).1 credit credit := by
  refine ⟨fun p => Nat.le_refl _, fun q hq => .inl ?_⟩
  rw [Memory.has_unlink, Bool.and_eq_true] at hq
  exact hq.2

/-- What is known after a deletion. -/
theorem sound_afterDeleting (hcall : call.Proper) (hm : m.Consistent)
    (h : Sound call m credit (.deleting limit frame outer)) :
    Sound call (Clear.afterDeleting m limit frame outer).1 credit
      (Clear.afterDeleting m limit frame outer).2 := by
  obtain ⟨hnested, hself, hpending, hwork, hnest⟩ := h
  obtain rfl := hnested.1
  refine ⟨Clear.scoped_afterDeleting hnested call.covers m, ?_⟩
  have hvalid := hnest.isValid hcall
  rw [Clear.afterDeleting]
  cases hn : m.find? frame.path with
  | none =>
    have hgone := Memory.find?_eq_none_iff.mp hn
    exact knows_proceed hcall (.of_missing hm hvalid hwork.funded hgone) hnest _
  | some node =>
    dsimp only
    by_cases hc : node.children = []
    · rw [if_pos hc]
      have hgone : (m.unlink frame.path).1.has frame.path = false := by
        rw [Memory.has_unlink, decide_eq_false (not_not_intro rfl), Bool.false_and]
      have hm' := hm.unlink hn hc
      exact knows_proceed hcall (.of_missing hm' hvalid hwork.funded hgone)
        (hnest.mono hcall (paid_unlink m credit frame.path)) _
    · rw [if_neg hc]
      obtain ⟨name, hname⟩ := List.exists_mem_of_ne_nil _ hc
      obtain ⟨hisname, hhas⟩ := (hm.mem_children_iff hn).mp hname
      refine knows_retry hcall hnested.2 hwork.funded ?_ hnest
      rcases hwork.covered with hpaid | hcovered
      · exact hpaid
      · rcases hcovered name hisname hhas with hmem | hnone
        · rw [hpending] at hmem
          cases hmem
        · cases hnone

/-- A request of another client pays for the node that it adds. -/
theorem paid_after (m : Memory) (history : List Event) (request : Memory.Request) :
    Paid m (m.after request) (births history)
      (births (history ++ [⟨none, request, (m.handle request).2⟩])) := by
  refine ⟨fun p => ?_, fun q hq => ?_⟩
  · rw [births_append]
    exact Nat.le_add_right _ _
  · refine (Memory.has_of_after hq).imp_right ?_
    rintro ⟨⟨path, data, acl, mode, rfl⟩, hanswer⟩
    rw [births_append, hanswer]
    simp [births, Event.created?]

/-- The requests of the operations are not those of other clients. -/
theorem births_own (history : List Event) (number : Nat) (request : Memory.Request)
    (answer : Answer) :
    births (history ++ [⟨some number, request, answer⟩]) = births history := by
  ext p
  rw [births_append]
  simp [births]

/-- The operation is some state of the call, and what it knows holds. -/
def Follows (m : Memory) (credit : String → Nat) (call : Removal) (operation : Operation) : Prop :=
  call.Proper ∧ ∃ state, operation = .clear state ∧ Sound call m credit state

/-- What an operation knows goes on to hold when others change the store. -/
theorem Follows.mono {operation : Operation} (h : Follows m credit call operation)
    (hp : Paid m m' credit credit') : Follows m' credit' call operation := by
  obtain ⟨hcall, state, rfl, hsound⟩ := h
  exact ⟨hcall, state, rfl, hsound.nested, hsound.knows.mono hcall hp⟩

end Removal

/-- Calls of recursive deletion that go on side by side, among other clients. -/
structure Removing (calls : List Removal) (s : System) : Prop where
  /-- The table describes one tree. -/
  consistent : s.memory.Consistent
  /-- The session is there. -/
  opened : s.memory.closed = false
  /-- Each operation carries out its call. -/
  follows : List.Forall₂ (Removal.Follows s.memory (births s.history)) calls s.operations

namespace Removing

variable {calls : List Removal} {s : System} {number : Nat} {call : Removal} {limit : Value}
  {frame : Clear.Frame} {outer : List Clear.Frame}

/-- Calls that have not begun go on side by side. -/
theorem start {m : Memory} (hm : m.Consistent) (ho : m.closed = false) (asked : Bool)
    (hcalls : ∀ call ∈ calls, call.Proper) :
    Removing calls (System.start m asked (calls.map Removal.operation)) := by
  refine ⟨hm, ho, ?_⟩
  rw [System.start, List.forall₂_map_right_iff, List.forall₂_same]
  intro call hcall
  refine ⟨hcalls call hcall, _, rfl, ?_⟩
  have hlimit : (call.limit.map Removal.limitValue).getD .null = Removal.limitValue call.most := by
    rw [Removal.most]
    cases call.limit <;> rfl
  rw [hlimit]
  exact Removal.sound_start (hcalls call hcall)

/-- The turn of a call that lists a node. -/
theorem step_listing (h : Removing calls s)
    (ho : s.operations[number]? = some (.clear (.listing limit frame outer)))
    (hp : Path.IsValid frame.path) (order : Arrangement) :
    ∃ answer, s.step (.turn ⟨number, order⟩) =
      ⟨{ s.shared with
          history := s.history ++ [⟨some number, .call (.children frame.path), answer⟩] },
        s.operations.set number
          (.clear (Clear.afterListing s.memory order.apply limit frame outer))⟩ := by
  refine ⟨(s.memory.serve order.apply (.children frame.path)).2, ?_⟩
  rw [System.step_of_calling ho rfl, ← Clear.resume_children hp h.opened order.apply rfl]
  rfl

/-- The turn of a call that deletes a node. -/
theorem step_deleting (h : Removing calls s)
    (ho : s.operations[number]? = some (.clear (.deleting limit frame outer)))
    (hp : Path.IsValid frame.path) (hne : frame.path ≠ Path.root) (order : Arrangement) :
    ∃ answer, s.step (.turn ⟨number, order⟩) =
      ⟨{ s.shared with
          memory := (Clear.afterDeleting s.memory limit frame outer).1
          history := s.history ++ [⟨some number, .call (.delete frame.path anyVersion), answer⟩] },
        s.operations.set number (.clear (Clear.afterDeleting s.memory limit frame outer).2)⟩ := by
  refine ⟨(s.memory.serve order.apply (.delete frame.path anyVersion)).2, ?_⟩
  rw [System.step_of_calling ho rfl,
    ← Clear.resume_delete hp h.opened h.consistent hne order.apply rfl]
  rfl

/-- One of the operations goes on, and the store has at most lost nodes. -/
private theorem advance (h : Removing calls s) {m' : Memory} (hm : m'.Consistent)
    (ho : m'.closed = false)
    (hp : Removal.Paid s.memory m' (births s.history) (births s.history))
    (hc : calls[number]? = some call) (hcall : call.Proper) {state : Clear}
    (hown : call.Sound m' (births s.history) state) (request : Memory.Request) (answer : Answer) :
    Removing calls
      ⟨{ s.shared with memory := m', history := s.history ++ [⟨some number, request, answer⟩] },
        s.operations.set number (.clear state)⟩ := by
  refine ⟨hm, ho, ?_⟩
  simp only [System.memory, System.history, Removal.births_own] at hp hown ⊢
  exact System.forall₂_set h.follows (fun call operation hf => hf.mono hp) hc
    ⟨hcall, state, rfl, hown⟩

/-- Calls go on side by side after a turn of one of them. -/
theorem turn (h : Removing calls s) (turn : Turn) : Removing calls (s.step (.turn turn)) := by
  obtain ⟨number, order⟩ := turn
  cases ho : s.operations[number]? with
  | none =>
    rw [System.step_of_absent ho]
    exact h
  | some operation =>
    obtain ⟨call, hc, hcall, state, rfl, hsound⟩ := System.exists_call h.follows ho
    cases state with
    | listing limit frame outer =>
      have hvalid := hsound.knows.2.isValid hcall
      obtain ⟨answer, he⟩ := h.step_listing ho hvalid order
      rw [he]
      exact h.advance h.consistent h.opened ⟨fun p => Nat.le_refl _, fun q hq => .inl hq⟩ hc hcall
        (Removal.sound_afterListing hcall h.consistent hsound order) _ answer
    | deleting limit frame outer =>
      have hnest := hsound.knows.2.2.2
      obtain ⟨answer, he⟩ := h.step_deleting ho (hnest.isValid hcall)
        (hnest.ne_root hcall hsound.knows.1) order
      have hown := Removal.sound_afterDeleting hcall h.consistent hsound
      rw [he]
      obtain hsame | ⟨node, hn, hc', hgone⟩ := Clear.afterDeleting_cases s.memory limit frame outer
      · rw [hsame] at hown ⊢
        exact h.advance h.consistent h.opened ⟨fun p => Nat.le_refl _, fun q hq => .inl hq⟩ hc hcall
          hown _ answer
      · rw [hgone] at hown ⊢
        exact h.advance (h.consistent.unlink hn hc') (Memory.closed_unlink.trans h.opened)
          (Removal.paid_unlink _ _ _) hc hcall hown _ answer
    | done outcome context =>
      rw [System.step_of_finished ho rfl]
      exact h

/-- A turn leaves the store as it is, or takes away a node without children that one of the calls
deletes; it is no request of another client. -/
theorem memory_turn (h : Removing calls s) (turn : Turn) :
    births (s.step (.turn turn)).history = births s.history ∧
    ((s.step (.turn turn)).memory = s.memory ∨
      ∃ call ∈ calls, ∃ q node, call.Removes q ∧ s.memory.find? q = some node ∧ node.children = [] ∧
        (s.step (.turn turn)).memory = (s.memory.unlink q).1) := by
  obtain ⟨number, order⟩ := turn
  cases ho : s.operations[number]? with
  | none =>
    rw [System.step_of_absent ho]
    exact ⟨rfl, .inl rfl⟩
  | some operation =>
    obtain ⟨call, hc, hcall, state, rfl, hsound⟩ := System.exists_call h.follows ho
    cases state with
    | listing limit frame outer =>
      obtain ⟨answer, he⟩ := h.step_listing ho (hsound.knows.2.isValid hcall) order
      rw [he]
      exact ⟨Removal.births_own _ _ _ _, .inl rfl⟩
    | deleting limit frame outer =>
      have hnest := hsound.knows.2.2.2
      obtain ⟨answer, he⟩ := h.step_deleting ho (hnest.isValid hcall)
        (hnest.ne_root hcall hsound.knows.1) order
      rw [he]
      refine ⟨Removal.births_own _ _ _ _, ?_⟩
      obtain hsame | ⟨node, hn, hc', hgone⟩ := Clear.afterDeleting_cases s.memory limit frame outer
      · exact .inl hsame
      · exact .inr ⟨call, List.mem_of_getElem? hc, frame.path, node,
          hnest.removes hcall hsound.knows.1, hn, hc', hgone⟩
    | done outcome context =>
      rw [System.step_of_finished ho rfl]
      exact ⟨rfl, .inl rfl⟩

/-- Another client may send any request but one that closes the store. -/
theorem foreign (h : Removing calls s) {request : Memory.Request} (hr : request ≠ .close) :
    Removing calls (s.step (.foreign request)) := by
  rw [System.step_foreign]
  refine ⟨h.consistent.after request, (Memory.closed_after hr).trans h.opened, ?_⟩
  exact h.follows.imp fun call operation hf =>
    hf.mono (Removal.paid_after s.memory s.history request)

/-- How an operation that ended did so. -/
theorem outcome (h : Removing calls s) (hc : calls[number]? = some call) {outcome : Answer}
    (ho : s.outcome number = some outcome) : call.Ends s.memory (births s.history) outcome := by
  obtain ⟨call', operation, hc', ⟨-, state, rfl, hsound⟩, hout⟩ :=
    System.exists_call_of_outcome h.follows ho
  rw [hc] at hc'
  obtain rfl := Option.some.inj hc'
  cases state with
  | done outcome context =>
    obtain rfl := Option.some.inj hout
    exact hsound.knows
  | _ => cases hout

end Removing

end Concurrency

end TreeStore
