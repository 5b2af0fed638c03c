import TreeStore.Proofs.Operation.Propagation
import TreeStore.Proofs.Path.Walks
import TreeStore.Proofs.Tree.Demand

/-!
# Isolation below a namespace

Nobody checks a namespace, and a store may answer anything. Still an operation of a tree stays where
it belongs: a namespace that spoils the joined path has the operation refused before the store is
called, and otherwise every path that it calls the store for is valid and was made from the joined
path, upwards by recursive creation and downwards by recursive deletion.
-/

namespace TreeStore

/-- The calls that an operation at a path is limited to: about the beginnings of the path, about
nodes below it, or about the path itself. -/
def Tree.Demand.Permits (demand : Tree.Demand) (full : String) (call : Call) : Prop :=
  match demand, call with
  | .mkdirs _, .probe q => q ∈ Path.prefixes full
  | .mkdirs _, .create q _ _ mode => q ∈ Path.prefixes full ∧ mode.isSequential = false
  | .mkdirs _, .capability => True
  | .deleteChildren _, .children q | .deleteChildren _, .delete q _ =>
    Path.IsValid q ∧ Path.IsAbove full q
  | .sortedChildren, .children q => q = full
  | _, _ => False

namespace Ensure

/-- Recursive creation goes about the beginnings of a path and nothing else, in plain modes. -/
def Confined (full : String) : Ensure → Prop
  | probing _ path above missing => ∀ q ∈ path :: (above ++ missing), q ∈ Path.prefixes full
  | choosing _ missing => ∀ q ∈ missing, q ∈ Path.prefixes full
  | creating _ mode path below =>
    mode.isSequential = false ∧ ∀ q ∈ path :: below, q ∈ Path.prefixes full
  | done _ => True

variable {full : String} {job : Job} {state : Ensure}

/-- Creation goes on with nodes along the path. -/
theorem confined_create {mode : CreateMode} (hmode : mode.isSequential = false)
    {rest : List String} (h : ∀ q ∈ rest, q ∈ Path.prefixes full) :
    (create job mode rest).Confined full := by
  cases rest with
  | nil => trivial
  | cons path below => exact ⟨hmode, h⟩

/-- Recursive creation keeps to the path once the deepest existing node is found. -/
theorem confined_found {missing : List String} (h : ∀ q ∈ missing, q ∈ Path.prefixes full) :
    (found job missing).Confined full := by
  have hwanted : ∀ q ∈ if job.makeLast then missing else missing.dropLast,
      q ∈ Path.prefixes full := by
    intro q hq
    split at hq
    · exact h q hq
    · exact h q (List.dropLast_subset _ hq)
  rw [found]
  split
  · exact hwanted
  · exact confined_create rfl hwanted

/-- Recursive creation keeps to the path as long as it asks. -/
theorem confined_probe {missing above : List String}
    (h : ∀ q ∈ above ++ missing, q ∈ Path.prefixes full) :
    (probe job missing above).Confined full := by
  cases above with
  | nil => exact confined_found h
  | cons path above => exact h

/-- Recursive creation begins with the paths along its own. -/
theorem confined_start (hfull : Path.IsValid full) : (start job full).Confined full := by
  rw [start, hfull.validate]
  refine confined_probe fun q hq => ?_
  simpa using hq

/-- Whatever a store answers, recursive creation stays with the beginnings of its path. -/
theorem Confined.calling (h : state.Confined full) {call : Call}
    {resume : Answer → List LogRecord × Ensure} (hn : state.next = .calling call resume) :
    (∀ makeLast, (Tree.Demand.mkdirs makeLast).Permits full call) ∧
      ∀ answer, (resume answer).2.Confined full := by
  cases state with
  | probing job path above missing =>
    cases hn
    refine ⟨fun makeLast => h path List.mem_cons_self, fun answer => ?_⟩
    cases answer with
    | error failure => trivial
    | ok value =>
      dsimp only
      split
      · exact confined_found fun q hq =>
          h q (List.mem_cons_of_mem path (List.mem_append_right _ hq))
      · refine confined_probe fun q hq => h q ?_
        simp only [List.mem_append, List.mem_cons] at hq ⊢
        tauto
  | creating job mode path below =>
    cases hn
    obtain ⟨hmode, hall⟩ := h
    refine ⟨fun makeLast => ⟨hall path List.mem_cons_self, hmode⟩, fun answer => ?_⟩
    have hnext : (create job mode below).Confined full :=
      confined_create hmode fun q hq => hall q (List.mem_cons_of_mem path hq)
    cases answer with
    | ok value => exact hnext
    | error failure =>
      dsimp only
      split
      · exact hnext
      · trivial
  | choosing | done => cases hn

/-- Recursive creation keeps to the path when it is told a plain mode for containers, or fails to
find out. -/
theorem Confined.choosing (h : state.Confined full)
    {resume : Except Failure CreateMode → List LogRecord × Ensure}
    (hn : state.next = .choosing resume) {answer : Except Failure CreateMode}
    (hmode : ∀ mode, answer = .ok mode → mode.isSequential = false) :
    (resume answer).2.Confined full := by
  cases state with
  | choosing job missing =>
    cases hn
    cases answer with
    | error failure => trivial
    | ok mode => exact confined_create (hmode mode rfl) h
  | probing | creating | done => cases hn

end Ensure

namespace Clear

/-- A level of recursive deletion is at a valid path below a path. -/
structure Frame.Confined (full : String) (frame : Frame) : Prop where
  /-- The path of the level is valid. -/
  valid : Path.IsValid frame.path
  /-- It lies below. -/
  isAbove : Path.IsAbove full frame.path

/-- All levels of recursive deletion are at valid paths below a path. -/
def Confined (full : String) : Clear → Prop
  | listing _ frame outer | deleting _ frame outer =>
    frame.Confined full ∧ ∀ f ∈ outer, f.Confined full
  | done _ _ => True

variable {full : String} {limit : Value} {frame : Frame} {outer : List Frame} {state : Clear}

/-- A failure leaves no level behind. -/
theorem confined_failed {failure : Failure} : (failed failure frame outer).Confined full := by
  obtain ⟨f, context, he⟩ := exists_unwind failure frame.context (frame :: outer)
  rw [failed, he]
  trivial

/-- A level that is entered at or below the path is confined to it. -/
theorem confined_enter {outside context : Context} {path : String} {deleteSelf : Bool}
    (hpath : Path.IsValid path → Path.IsAbove full path) (h : ∀ f ∈ outer, f.Confined full) :
    (enter limit outside context path deleteSelf outer).Confined full := by
  rw [enter]
  cases hv : Path.validate path false with
  | error problem => exact confined_failed
  | ok p =>
    obtain ⟨hfault, rfl⟩ := Path.validate_eq_ok_iff.mp hv
    exact ⟨⟨⟨hfault⟩, hpath ⟨hfault⟩⟩, h⟩

/-- Whatever a store lists as a child, the level for it is below the node that was listed. -/
theorem confined_enterChild {child : Value} (hframe : frame.Confined full)
    (h : ∀ f ∈ outer, f.Confined full) :
    (enterChild limit frame child outer).Confined full := by
  rw [enterChild]
  cases hj : Path.joinValues [.str frame.path, child] with
  | error problem => exact confined_failed
  | ok path =>
    refine confined_enter (fun hp => ?_) (List.forall_mem_cons.mpr ⟨hframe, h⟩)
    exact hframe.isAbove.trans (Path.isAbove_of_joinValues hframe.valid hj hp)

/-- The levels that a deletion proceeds with are confined if they were. -/
theorem confined_proceed {attempts : Nat} {active : Context} {frames : List Frame}
    (h : ∀ f ∈ frames, f.Confined full) : (proceed limit attempts active frames).Confined full := by
  induction frames generalizing attempts active with
  | nil => trivial
  | cons frame outer ih =>
    obtain ⟨hframe, houter⟩ := List.forall_mem_cons.mp h
    rw [proceed]
    split
    · exact confined_enterChild ⟨hframe.valid, hframe.isAbove⟩ houter
    · split
      · exact ⟨⟨hframe.valid, hframe.isAbove⟩, houter⟩
      · exact ih houter

/-- The levels are confined when a deletion tries again. -/
theorem confined_retry {failure : Failure} (hframe : frame.Confined full)
    (h : ∀ f ∈ outer, f.Confined full) :
    (retry limit frame outer failure).2.Confined full := by
  rw [retry]
  split
  · exact confined_failed
  · exact confined_failed
  · exact ⟨⟨hframe.valid, hframe.isAbove⟩, h⟩

/-- Whatever a store answers, recursive deletion stays below its path. -/
theorem Confined.calling (h : state.Confined full) {call : Call}
    {resume : Answer → List LogRecord × Clear} (hn : state.next = .calling call resume) :
    (∀ deleteSelf, (Tree.Demand.deleteChildren deleteSelf).Permits full call) ∧
      ∀ answer, (resume answer).2.Confined full := by
  cases state with
  | listing limit frame outer =>
    cases hn
    obtain ⟨hframe, houter⟩ := h
    refine ⟨fun deleteSelf => ⟨hframe.valid, hframe.isAbove⟩, fun answer => ?_⟩
    cases answer with
    | error failure =>
      dsimp only
      split
      · exact confined_proceed houter
      · exact confined_failed
    | ok value =>
      dsimp only
      split
      · exact confined_failed
      · exact confined_proceed
          (List.forall_mem_cons.mpr ⟨⟨hframe.valid, hframe.isAbove⟩, houter⟩)
  | deleting limit frame outer =>
    cases hn
    obtain ⟨hframe, houter⟩ := h
    refine ⟨fun deleteSelf => ⟨hframe.valid, hframe.isAbove⟩, fun answer => ?_⟩
    cases answer with
    | ok value => exact confined_proceed houter
    | error failure =>
      dsimp only
      split
      · exact confined_retry hframe houter
      · split
        · exact confined_proceed houter
        · exact confined_failed
  | done => cases hn

end Clear

namespace Tree.Demand

/-- The operation carries out the demand and keeps to the path. -/
def Confines (demand : Demand) (full : String) (operation : Operation) : Prop :=
  match demand, operation with
  | .mkdirs _, .ensure state => state.Confined full
  | .deleteChildren _, .clear state => state.Confined full
  | .sortedChildren, .listing (.waiting path) => path = full
  | .sortedChildren, .listing (.done _) => True
  | _, _ => False

variable {demand : Demand} {full : String} {operation : Operation}

/-- An operation that keeps to a path makes no other calls than it is limited to, and keeps to the
path whatever the answer is. -/
theorem Confines.calling (h : demand.Confines full operation) {call : Call}
    {resume : Answer → List LogRecord × Operation} (hn : operation.next = .calling call resume) :
    demand.Permits full call ∧ ∀ answer, demand.Confines full (resume answer).2 := by
  cases demand with
  | mkdirs makeLast =>
    cases operation with
    | ensure state =>
      rw [Operation.next] at hn
      cases hs : state.next with
      | calling call' resume' =>
        rw [hs] at hn
        cases hn
        obtain ⟨hcall, hnext⟩ := Ensure.Confined.calling h hs
        exact ⟨hcall makeLast, hnext⟩
      | finished | choosing => rw [hs] at hn; cases hn
    | clear | listing => cases h
  | deleteChildren deleteSelf =>
    cases operation with
    | clear state =>
      rw [Operation.next] at hn
      cases hs : state.next with
      | calling call' resume' =>
        rw [hs] at hn
        cases hn
        obtain ⟨hcall, hnext⟩ := Clear.Confined.calling h hs
        exact ⟨hcall deleteSelf, hnext⟩
      | finished | choosing => rw [hs] at hn; cases hn
    | ensure | listing => cases h
  | sortedChildren =>
    cases operation with
    | listing state =>
      cases state with
      | waiting path =>
        cases hn
        exact ⟨h, fun answer => trivial⟩
      | done => cases hn
    | ensure | clear => cases h

/-- An operation keeps to the path when it is told a plain mode for containers, or fails to find
out. -/
theorem Confines.choosing (h : demand.Confines full operation)
    {resume : Except Failure CreateMode → List LogRecord × Operation}
    (hn : operation.next = .choosing resume) :
    demand.Permits full .capability ∧ ∀ answer : Except Failure CreateMode,
      (∀ mode, answer = .ok mode → mode.isSequential = false) →
        demand.Confines full (resume answer).2 := by
  cases demand with
  | mkdirs makeLast =>
    cases operation with
    | ensure state =>
      rw [Operation.next] at hn
      cases hs : state.next with
      | choosing resume' =>
        rw [hs] at hn
        cases hn
        exact ⟨trivial, fun answer hmode => Ensure.Confined.choosing h hs hmode⟩
      | finished | calling => rw [hs] at hn; cases hn
    | clear | listing => cases h
  | deleteChildren deleteSelf =>
    cases operation with
    | clear state => cases state <;> cases hn
    | ensure | listing => cases h
  | sortedChildren =>
    cases operation with
    | listing state => cases state <;> cases hn
    | ensure | clear => cases h

/-- At a valid path, an operation keeps to the path from the beginning. -/
theorem confines_operationAt (t : Tree) (ambient : Context) (demand : Demand)
    (hfull : Path.IsValid full) : demand.Confines full (t.operationAt ambient full demand) := by
  cases demand with
  | mkdirs makeLast => exact Ensure.confined_start hfull
  | deleteChildren deleteSelf => exact Clear.confined_enter (fun _ => hfull.isAbove) (by simp)
  | sortedChildren =>
    simp only [operationAt, Operation.sortedChildren, Listing.start, hfull.validate]
    rfl

/-- At a valid path, an operation begins with a call. -/
theorem calling_operationAt (t : Tree) (ambient : Context) (demand : Demand)
    (hfull : Path.IsValid full) :
    ∃ call resume, (t.operationAt ambient full demand).next = .calling call resume := by
  cases demand with
  | mkdirs makeLast =>
    obtain ⟨path, above, he⟩ : ∃ path above, (Path.prefixes full).reverse = path :: above :=
      List.exists_cons_of_ne_nil (by simpa using Path.prefixes_ne_nil hfull)
    simp only [operationAt, Operation.mkdirs, Ensure.start, hfull.validate, Path.upwards_eq,
      he]
    exact ⟨_, _, rfl⟩
  | deleteChildren deleteSelf =>
    simp only [operationAt, Operation.deleteChildren, Clear.start_of_validate hfull.validate]
    exact ⟨_, _, rfl⟩
  | sortedChildren =>
    simp only [operationAt, Operation.sortedChildren, Listing.start, hfull.validate]
    exact ⟨_, _, rfl⟩

/-- The context of an operation at a path. A listing has none of its own. -/
def context? (t : Tree) (ambient : Context) (full : String) : Demand → Option Context
  | .mkdirs makeLast =>
    some (Operation.creationContext ambient full (some makeLast) (some t.settings.useContainers))
  | .deleteChildren deleteSelf =>
    some (Operation.deletionContext ambient full (some deleteSelf)
      (some t.settings.maxDeleteAttempts))
  | .sortedChildren => none

/-- A failure as it leaves an operation at a path. -/
def leave (demand : Demand) (t : Tree) (ambient : Context) (full : String) (failure : Failure) :
    Failure :=
  (demand.context? t ambient full).elim failure failure.leaving

/-- A failure leaves as it was, up to the notes, unless the context cannot be written. -/
theorem leave_problem (demand : Demand) (t : Tree) (ambient : Context) (full : String)
    (failure : Failure)
    (h : ∀ context, demand.context? t ambient full = some context → context.isOverlong = false) :
    (demand.leave t ambient full failure).problem = failure.problem := by
  rw [leave]
  cases hcontext : demand.context? t ambient full with
  | none => rfl
  | some context => exact (Failure.leaving_problem failure (h context hcontext)).1

/-- At a malformed path, an operation fails before it calls anyone. -/
theorem refused_operationAt (t : Tree) (ambient : Context) (demand : Demand) {fault : Path.Fault}
    (hfull : Path.fault full false = some fault) :
    (t.operationAt ambient full demand).next = .finished (.error
      (demand.leave t ambient full (Problem.invalidPath (.str full) fault : Problem))) := by
  have hv : Path.validate full false = .error (.invalidPath (.str full) fault) :=
    Path.validate_eq_error_iff.mpr ⟨fault, hfull, rfl⟩
  cases demand with
  | mkdirs makeLast =>
    simp only [operationAt, Operation.mkdirs, Ensure.start, hv]
    rfl
  | deleteChildren deleteSelf =>
    simp only [operationAt, Operation.deleteChildren, Clear.start, Clear.enter, hv]
    rfl
  | sortedChildren =>
    simp only [operationAt, Operation.sortedChildren, Listing.start, hv]
    rfl

end Tree.Demand

namespace Respondent

variable {store : Respondent} {ambient : Context} {demand : Tree.Demand} {full : String}
  {operation : Operation} {d : Dialogue}

/-- What an operation that keeps to a path has called a store for, and how it may go on. -/
structure Confined (demand : Tree.Demand) (full : String) (here : Operation × Dialogue) : Prop where
  /-- It keeps to the path. -/
  operation : demand.Confines full here.1
  /-- So it did. -/
  permitted : ∀ exchange ∈ here.2.exchanges, demand.Permits full exchange.call
  /-- The mode for containers is a plain one, if it is known. -/
  known : ∀ mode, here.2.known = some mode → mode.isSequential = false

/-- Neither of the modes that are chosen counts. -/
theorem isSequential_modeOf (value : Value) :
    (Client.modeOf value).isSequential = false := by
  rw [Client.modeOf]
  split <;> rfl

/-- A step keeps to the path. -/
theorem Confined.step {here there : Operation × Dialogue} (h : Confined demand full here)
    (hstep : store.Steps ambient here there) : Confined demand full there := by
  obtain ⟨operation, d⟩ := here
  obtain ⟨call, resume, hn, rfl⟩ | ⟨resume, hn, rfl⟩ := hstep.cases
  · obtain ⟨hcall, hnext⟩ := h.operation.calling hn
    refine ⟨hnext _, fun exchange hmem => ?_, h.known⟩
    rcases List.mem_append.mp hmem with hmem | hmem
    · exact h.permitted exchange hmem
    · obtain rfl := List.mem_singleton.mp hmem
      exact hcall
  · obtain ⟨hcall, hnext⟩ := h.operation.choosing hn
    have hasked : ∀ answer, ∀ exchange ∈ (d.heard .capability answer).exchanges,
        demand.Permits full exchange.call := by
      intro answer exchange hmem
      rcases List.mem_append.mp hmem with hmem | hmem
      · exact h.permitted exchange hmem
      · obtain rfl := List.mem_singleton.mp hmem
        exact hcall
    have hplain : ∀ value mode, some (Client.modeOf value) = some mode →
        mode.isSequential = false := by
      rintro value mode hm
      obtain rfl := Option.some.inj hm
      exact isSequential_modeOf value
    rw [choice]
    cases hk : d.known with
    | some mode =>
      refine ⟨hnext _ ?_, h.permitted, h.known⟩
      rintro mode' hm
      obtain rfl := Except.ok.inj hm
      exact h.known mode hk
    | none =>
      dsimp only
      cases store.answer d.exchanges .capability with
      | error failure => exact ⟨hnext _ (fun mode hm => by cases hm), hasked _, h.known⟩
      | ok value =>
        refine ⟨hnext _ ?_, hasked _, hplain value⟩
        rintro mode hm
        exact hplain value mode (congrArg some (Except.ok.inj hm))

/-- All steps to come keep to the path. -/
theorem Reaches.confined {here there : Operation × Dialogue} (h : store.Reaches ambient here there)
    (hd : Confined demand full here) : Confined demand full there := by
  induction h with
  | refl => exact hd
  | tail _ hstep ih => exact ih.step hstep

/-- What was heard stays heard. -/
theorem Steps.exchanges_prefix {here there : Operation × Dialogue}
    (h : store.Steps ambient here there) : here.2.exchanges <+: there.2.exchanges := by
  obtain ⟨operation, d⟩ := here
  obtain ⟨call, resume, hn, rfl⟩ | ⟨resume, hn, rfl⟩ := h.cases
  · exact List.prefix_append _ _
  · rw [choice]
    cases d.known with
    | some mode => exact List.prefix_rfl
    | none =>
      dsimp only
      cases store.answer d.exchanges .capability <;> exact List.prefix_append _ _

/-- All along a run an operation keeps to the path. -/
theorem Reaches.exchanges_prefix {here there : Operation × Dialogue}
    (h : store.Reaches ambient here there) : here.2.exchanges <+: there.2.exchanges := by
  induction h with
  | refl => exact List.prefix_rfl
  | tail _ hstep ih => exact ih.trans (Steps.exchanges_prefix hstep)

/-- An operation that begins with a call does not end before it. -/
theorem not_ends_of_calling {call : Call} {resume : Answer → List LogRecord × Operation}
    (hn : operation.next = .calling call resume) (outcome : Answer) :
    ¬ store.Ends ambient (operation, d) outcome d := by
  intro hend
  obtain ⟨there, hreach, hfinished, hd⟩ := hend.reaches
  obtain he | ⟨first, hstep, hrest⟩ := Relation.ReflTransGen.cases_head hreach
  · rw [← he, hn] at hfinished
    cases hfinished
  · have hfirst := (steps_of_calling hn store ambient d).unique hstep
    have hle := (Reaches.exchanges_prefix hrest).length_le
    rw [hfirst, hd] at hle
    simp only [Dialogue.heard, Dialogue.reported, List.length_append, List.length_singleton] at hle
    omega

end Respondent

namespace Tree

/-- A path that is accepted is a text without a fault. -/
theorem eq_str_of_checked {path : Value} {isOpen : Bool} {p : String}
    (h : Path.checked path isOpen = .ok p) : path = .str p ∧ Path.fault p isOpen = none := by
  cases path with
  | str q =>
    obtain ⟨hfault, rfl⟩ := Path.validate_eq_ok_iff.mp h
    exact ⟨rfl, hfault⟩
  | _ => cases h

/-- Where a call lies that an operation is limited to. -/
structure Demand.Lies (top : String) (call : Call) : Prop where
  /-- A call about a node is about a valid path. -/
  valid : call ≠ .capability → Path.IsValid call.path
  /-- Nothing but what lies below is deleted. -/
  deletes : ∀ q version, call = .delete q version → Path.IsAbove top q
  /-- What is created lies below or above. -/
  creates : ∀ q data acl mode, call = .create q data acl mode →
    Path.IsAbove top q ∨ Path.IsAbove q top

/-- A call that is permitted at a path behind another lies at that or below, or on the way there. -/
theorem Demand.Permits.lies {demand : Demand} {front p : String} {call : Call}
    (hfront : Path.IsValid front) (hp : Path.IsValid p)
    (h : demand.Permits (Path.join [front, p]) call) : Demand.Lies front call := by
  have hfull := hfront.append hp
  have hup := Path.isAbove_append hfront hp
  cases call with
  | probe q =>
    cases demand with
    | mkdirs makeLast =>
      exact ⟨fun _ => (Path.isAbove_of_mem_prefixes hfull h).valid, by simp, by simp⟩
    | _ => cases h
  | children q =>
    cases demand with
    | mkdirs makeLast => cases h
    | deleteChildren deleteSelf => exact ⟨fun _ => h.1, by simp, by simp⟩
    | sortedChildren =>
      obtain rfl : q = _ := h
      exact ⟨fun _ => hfull, by simp, by simp⟩
  | create q data acl mode =>
    cases demand with
    | mkdirs makeLast =>
      have habove := Path.isAbove_of_mem_prefixes hfull h.1
      refine ⟨fun _ => habove.valid, by simp, ?_⟩
      rintro q' data' acl' mode' he
      obtain ⟨rfl, -⟩ := Call.create.inj he
      exact hup.total habove
    | _ => cases h
  | delete q version =>
    cases demand with
    | deleteChildren deleteSelf =>
      refine ⟨fun _ => h.1, ?_, by simp⟩
      rintro q' version' he
      obtain ⟨rfl, -⟩ := Call.delete.inj he
      exact hup.trans h.2
    | _ => cases h
  | capability => exact ⟨fun hne => absurd rfl hne, by simp, by simp⟩

/-- An operation that a tree was to start fails before the store is called or anything else happens.
-/
def FailsAtOnce (store : Respondent) (ambient : Context) (known : Option CreateMode)
    (failure : Failure) : Except Problem Operation → Prop
  | .error problem => failure = problem
  | .ok operation => store.Ends ambient (operation, { known }) (.error failure) { known }

section Starting

variable {t : Tree} {nameSpace : Option String} {ambient : Context} {path : Value} {p : String}
  {demand : Demand} {store : Respondent} {known : Option CreateMode} {failure : Failure}

/-- A path that the tree rejects is what it fails with. -/
theorem failsAtOnce_of_checked {problem : Problem} (h : Path.checked path false = .error problem) :
    FailsAtOnce store ambient known failure ((t.below nameSpace).operation ambient path demand) ↔
      failure = problem := by
  rw [operation_eq, fixPath_below_of_error h]
  rfl

/-- A path that is malformed below the namespace is what the operation fails with. -/
theorem failsAtOnce_of_fault {full : String} {fault : Path.Fault}
    (hfull : (t.below nameSpace).fixPath path false = .ok full)
    (hfault : Path.fault full false = some fault) :
    FailsAtOnce store ambient known failure ((t.below nameSpace).operation ambient path demand) ↔
      failure = demand.leave (t.below nameSpace) ambient full
        (Problem.invalidPath (.str full) fault : Problem) := by
  have hn := Demand.refused_operationAt (t.below nameSpace) ambient demand hfault
  rw [operation_eq, hfull]
  constructor
  · intro hend
    exact Except.error.inj (hend.unique (Respondent.ends_of_finished hn)).1
  · rintro rfl
    exact Respondent.ends_of_finished hn

/-- Below a malformed namespace every path is malformed. -/
theorem exists_fault (hp : Path.IsValid p) (htop : ¬ Path.IsValid (top nameSpace)) :
    ∃ full fault, (t.below nameSpace).fixPath (.str p) false = .ok full ∧
      Path.fault full false = some fault := by
  have hfull := mt (isValid_below hp).mp htop
  obtain ⟨fault, hfault⟩ := Option.ne_none_iff_exists'.mp fun h => hfull ⟨h⟩
  exact ⟨_, fault, fixPath_below hp.fault, hfault⟩

/-- Below a valid namespace, the operation that a tree starts is the one at the joined path. -/
theorem operation_below_top (hp : Path.IsValid p) (htop : Path.IsValid (top nameSpace)) :
    (t.below nameSpace).operation ambient (.str p) demand =
      .ok ((t.below nameSpace).operationAt ambient (Path.join [top nameSpace, p]) demand) := by
  rw [operation_below hp, below_eq_join hp htop]

/-- Below a valid namespace no operation at a valid path fails at once. -/
theorem not_failsAtOnce (hp : Path.IsValid p) (htop : Path.IsValid (top nameSpace)) :
    ¬ FailsAtOnce store ambient known failure
      ((t.below nameSpace).operation ambient (.str p) demand) := by
  rw [operation_below_top hp htop]
  intro hend
  obtain ⟨call, resume, hn⟩ :=
    Demand.calling_operationAt (t.below nameSpace) ambient demand (htop.append hp)
  exact Respondent.not_ends_of_calling hn _ hend

/-- Below a valid namespace an operation at a valid path keeps to the joined path, whatever mode for
containers is known. -/
theorem permits_of_reaches (hp : Path.IsValid p) (htop : Path.IsValid (top nameSpace))
    (asked : Option Value) {there : Operation × Dialogue}
    (hreach : store.Reaches ambient ((t.below nameSpace).operationAt ambient
      (Path.join [top nameSpace, p]) demand, { known := asked.map Client.modeOf }) there) :
    ∀ exchange ∈ there.2.exchanges, demand.Permits (Path.join [top nameSpace, p]) exchange.call ∧
      Demand.Lies (top nameSpace) exchange.call := by
  have hbegin : Respondent.Confined demand (Path.join [top nameSpace, p])
      ((t.below nameSpace).operationAt ambient (Path.join [top nameSpace, p]) demand,
        { known := asked.map Client.modeOf }) := by
    refine ⟨Demand.confines_operationAt _ _ _ (htop.append hp), by simp, fun mode hmode => ?_⟩
    obtain ⟨value, -, rfl⟩ := Option.map_eq_some_iff.mp hmode
    exact Respondent.isSequential_modeOf value
  intro exchange hmem
  have hpermits := (hreach.confined hbegin).permitted exchange hmem
  exact ⟨hpermits, hpermits.lies htop hp⟩

end Starting

/-- Whatever the namespace of a tree is and whatever a store answers, an operation fails without a
call exactly if its path or that of the namespace is malformed, and this is what it fails with: the
path is rejected as it is given, or below the namespace by the operation, from which the rejection
takes its leave. A text is rejected as an invalid path, unless the operation's context cannot be
written. Otherwise all calls are about valid paths: about the joined path or paths below it, or for
recursive creation about the beginnings of the joined path. So what is deleted lies below the
namespace, and what is created lies below or above it. -/
theorem namespace_isolates (t : Tree) (nameSpace : Option String) (ambient : Context) (path : Value)
    (demand : Demand) (store : Respondent) (asked : Option Value) :
    let known := asked.map Client.modeOf
    let tree := t.below nameSpace
    let start := tree.operation ambient path demand
    ((∃ failure, FailsAtOnce store ambient known failure start) ↔
      (∃ problem, Path.checked path false = .error problem) ∨
        ∃ problem, Path.validate (top nameSpace) false = .error problem) ∧
    (∀ failure, FailsAtOnce store ambient known failure start →
      ((∃ problem : Problem, Path.checked path false = .error problem ∧ failure = problem) ∨
        ∃ full fault, tree.fixPath path false = .ok full ∧ Path.fault full false = some fault ∧
          failure = demand.leave tree ambient full
            (Problem.invalidPath (.str full) fault : Problem)) ∧
      ((∃ p, path = .str p) →
        (∀ full context, tree.fixPath path false = .ok full →
          demand.context? tree ambient full = some context → context.isOverlong = false) →
        ∃ q fault, failure.problem = .invalidPath (.str q) fault)) ∧
    ((∀ failure, ¬ FailsAtOnce store ambient known failure start) →
      ∃ p operation, path = .str p ∧ start = .ok operation ∧
        ∀ there, store.Reaches ambient (operation, { known }) there →
          ∀ exchange ∈ there.2.exchanges,
            demand.Permits (Path.join [top nameSpace, p]) exchange.call ∧
              Demand.Lies (top nameSpace) exchange.call) := by
  intro known tree start
  cases hc : Path.checked path false with
  | error problem =>
    have hfails (failure : Failure) :
        FailsAtOnce store ambient known failure start ↔ failure = problem :=
      failsAtOnce_of_checked hc
    refine ⟨iff_of_true ⟨problem, (hfails _).mpr rfl⟩ (.inl ⟨problem, rfl⟩), fun failure hf => ?_,
      fun hnone => absurd ((hfails _).mpr rfl) (hnone problem)⟩
    obtain rfl := (hfails failure).mp hf
    refine ⟨.inl ⟨problem, rfl, rfl⟩, ?_⟩
    rintro ⟨p, rfl⟩ -
    obtain ⟨fault, -, rfl⟩ := Path.validate_eq_error_iff.mp hc
    exact ⟨p, fault, rfl⟩
  | ok p =>
    obtain ⟨rfl, hfault⟩ := eq_str_of_checked hc
    have hp : Path.IsValid p := ⟨hfault⟩
    cases hv : Path.validate (top nameSpace) false with
    | error problem =>
      obtain ⟨fault, hfault, -⟩ := Path.validate_eq_error_iff.mp hv
      have htop : ¬ Path.IsValid (top nameSpace) := by
        rintro ⟨h⟩
        rw [h] at hfault
        cases hfault
      obtain ⟨full, fault, hfull, hfault⟩ : ∃ full fault, tree.fixPath (.str p) false = .ok full ∧
          Path.fault full false = some fault := exists_fault hp htop
      have hfails (failure : Failure) : FailsAtOnce store ambient known failure start ↔
          failure = demand.leave tree ambient full
            (Problem.invalidPath (.str full) fault : Problem) :=
        failsAtOnce_of_fault hfull hfault
      refine ⟨iff_of_true ⟨_, (hfails _).mpr rfl⟩ (.inr ⟨problem, rfl⟩), fun failure hf => ?_,
        fun hnone => absurd ((hfails _).mpr rfl) (hnone _)⟩
      obtain rfl := (hfails failure).mp hf
      refine ⟨.inr ⟨full, fault, hfull, hfault, rfl⟩, fun _ hwritable => ⟨full, fault, ?_⟩⟩
      exact Demand.leave_problem demand tree ambient full _
        fun context => hwritable full context hfull
    | ok q =>
      have htop : Path.IsValid (top nameSpace) := ⟨(Path.validate_eq_ok_iff.mp hv).1⟩
      have hnone (failure : Failure) : ¬ FailsAtOnce store ambient known failure start :=
        not_failsAtOnce hp htop
      refine ⟨iff_of_false (fun ⟨failure, h⟩ => hnone failure h) (by simp),
        fun failure h => absurd h (hnone failure), fun _ => ?_⟩
      exact ⟨p, _, rfl, operation_below_top hp htop,
        fun there hreach => permits_of_reaches hp htop asked hreach⟩

/-- If the limit has too many digits to be written, a malformed namespace is not reported as an
invalid path: the failure to write the context takes its place. -/
theorem dots_replaced :
    let tree : Tree := { settings := { maxDeleteAttempts := .int (2 ^ 14400 : Nat) } }
    let store : Respondent := { className := "Store", answer _ _ := .ok .null }
    let start := (tree.below (some "..")).operation [] (.str "/a") (.deleteChildren (.bool false))
    (∃ problem, Path.validate (top (some "..")) false = .error problem) ∧
      FailsAtOnce store [] none Failure.overlong start ∧
      ¬ ∃ failure q fault, FailsAtOnce store [] none failure start ∧
        failure.problem = .invalidPath q fault := by
  have hlong := Value.isOverlong_two_pow
  generalize (2 ^ 14400 : Nat) = n at hlong ⊢
  intro tree store start
  have hrejected : ∃ problem, Path.validate (top (some "..")) false = .error problem := ⟨_, by cbv⟩
  have hfull : (tree.below (some "..")).fixPath (.str "/a") false = .ok "/../a" := by cbv
  have hown := Operation.covers_deletionContext [] "/../a" (some (.bool false)) (some (.int n))
    hlong
  let rejection : Failure := (Problem.invalidPath (.str "/../a") .relative : Problem)
  have hreplaced : rejection.leaving _ = Failure.overlong :=
    Failure.leaving_of_overlong rfl rfl hown
  have hfails (failure : Failure) : FailsAtOnce store [] none failure start ↔
      failure = Failure.overlong := by
    rw [← hreplaced]
    exact failsAtOnce_of_fault hfull (by cbv)
  refine ⟨hrejected, (hfails _).mpr rfl, ?_⟩
  rintro ⟨failure, q, fault, hfailure, hproblem⟩
  obtain rfl := (hfails failure).mp hfailure
  cases hproblem

end Tree

end TreeStore
