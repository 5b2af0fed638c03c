import TreeStore.Tree

/-!
# What operations ask a store for

Recursive creation gives the nodes no payload and creates them in the plain mode, unless it was to
create containers and was told a mode for that. Recursive deletion names no version. Beyond that
nothing is said here about the nodes that a call is about.
-/

namespace TreeStore

/-- The operations with their arguments as given. -/
inductive Task where
  /-- Make sure that every node along a path exists. -/
  | mkdirs (ambient : Context) (path : String) (makeLast : Option Value)
    (provider : Option AclPolicy) (asContainers : Option Value)
  /-- Delete every descendant of a node and perhaps the node itself. -/
  | deleteChildren (ambient : Context) (path : String) (deleteSelf limit : Option Value)
  /-- List the names of a node's children in order. -/
  | sortedChildren (path : String)

namespace Task

/-- The operation that carries out the task. -/
def operation : Task → Operation
  | mkdirs ambient path makeLast provider asContainers =>
    .mkdirs ambient path makeLast provider asContainers
  | deleteChildren ambient path deleteSelf limit => .deleteChildren ambient path deleteSelf limit
  | sortedChildren path => .sortedChildren path

/-- The path that the task is about. -/
def path : Task → String
  | mkdirs _ path _ _ _ | deleteChildren _ path _ _ | sortedChildren path => path

/-- The context of the operation. A listing has none of its own. -/
def context? : Task → Option Context
  | mkdirs ambient path makeLast _ asContainers =>
    some (Operation.creationContext ambient path makeLast asContainers)
  | deleteChildren ambient path deleteSelf limit =>
    some (Operation.deletionContext ambient path deleteSelf limit)
  | sortedChildren _ => none

/-- Whether nodes are to be created as containers; they are not unless the caller says so. -/
def wantsContainers : Task → Bool
  | mkdirs _ _ _ _ asContainers => (asContainers.getD (.bool false)).truthy
  | deleteChildren .. | sortedChildren _ => false

end Task

/-- The calls that operations make by themselves if they create nodes in certain modes. -/
def Call.Suits (allowed : CreateMode → Prop) : Call → Prop
  | create _ data _ mode => data = [] ∧ allowed mode
  | delete _ version => version = anyVersion
  | probe _ | children _ => True
  | capability => False

/-- A call suits more modes, too. -/
theorem Call.Suits.mono {allowed allowed' : CreateMode → Prop} {call : Call}
    (h : call.Suits allowed) (himp : ∀ mode, allowed mode → allowed' mode) :
    call.Suits allowed' := by
  cases call with
  | create path data acl mode => exact ⟨h.1, himp mode h.2⟩
  | _ => exact h

/-- Recursive creation asks for the mode for containers only if it is to create such, and creates
nodes in certain modes only. -/
def Ensure.Uses (wants : Bool) (allowed : CreateMode → Prop) : Ensure → Prop
  | probing job _ _ _ => job.asContainers = wants
  | choosing _ _ => wants = true
  | creating _ mode _ _ => allowed mode
  | done _ => True

/-- An operation asks for the mode for containers only if it is to create such, and creates nodes in
certain modes only. -/
def Operation.Uses (wants : Bool) (allowed : CreateMode → Prop) : Operation → Prop
  | ensure state => state.Uses wants allowed
  | clear _ | listing _ => True

variable {wants : Bool} {allowed allowed' : CreateMode → Prop}

namespace Ensure

variable {job : Job} {state : Ensure}

/-- Creation goes on with the mode that was chosen. -/
theorem uses_create {mode : CreateMode} (hmode : allowed mode) (missing : List String) :
    (create job mode missing).Uses wants allowed := by
  cases missing with
  | nil => trivial
  | cons path below => exact hmode

/-- Once the deepest existing node is found, a mode is chosen if containers are wanted. -/
theorem uses_found (hjob : job.asContainers = wants) (hplain : wants = false → allowed .persistent)
    (missing : List String) : (found job missing).Uses wants allowed := by
  subst hjob
  cases hcontainers : job.asContainers with
  | true =>
    simp only [found, hcontainers, if_true]
    rfl
  | false =>
    simp only [found, hcontainers, Bool.false_eq_true, if_false]
    exact uses_create (hplain hcontainers) _

theorem uses_probe (hjob : job.asContainers = wants) (hplain : wants = false → allowed .persistent)
    (missing above : List String) : (probe job missing above).Uses wants allowed := by
  cases above with
  | nil => exact uses_found hjob hplain missing
  | cons path above => exact hjob

/-- An operation that begins has yet to choose. -/
theorem uses_start (hplain : job.asContainers = false → allowed .persistent) (path : String) :
    (start job path).Uses job.asContainers allowed := by
  rw [start]
  split
  · trivial
  · exact uses_probe rfl hplain _ _

theorem Uses.mono (h : state.Uses wants allowed) (himp : ∀ mode, allowed mode → allowed' mode) :
    state.Uses wants allowed' := by
  cases state with
  | creating job mode path below => exact himp mode h
  | _ => exact h

/-- Whatever a store answers, recursive creation stays with its mode. -/
theorem Uses.calling (h : state.Uses wants allowed) (hplain : wants = false → allowed .persistent)
    {call : Call} {resume : Answer → List LogRecord × Ensure}
    (hn : state.next = .calling call resume) :
    call.Suits allowed ∧ ∀ answer, (resume answer).2.Uses wants allowed := by
  cases state with
  | probing job path above missing =>
    cases hn
    refine ⟨trivial, fun answer => ?_⟩
    cases answer with
    | error failure => trivial
    | ok value =>
      dsimp only
      split
      · exact uses_found h hplain missing
      · exact uses_probe h hplain _ _
  | creating job mode path below =>
    cases hn
    refine ⟨⟨rfl, h⟩, fun answer => ?_⟩
    cases answer with
    | ok value => exact uses_create h below
    | error failure =>
      dsimp only
      split
      · exact uses_create h below
      · trivial
  | choosing | done => cases hn

/-- Creation goes on with the mode that it is told. -/
theorem Uses.choosing (h : state.Uses wants allowed)
    {resume : Except Failure CreateMode → List LogRecord × Ensure}
    (hn : state.next = .choosing resume) :
    wants = true ∧ ∀ answer, (∀ mode, answer = .ok mode → allowed' mode) →
      (resume answer).2.Uses wants allowed' := by
  cases state with
  | choosing job missing =>
    cases hn
    refine ⟨h, fun answer hmode => ?_⟩
    cases answer with
    | error failure => trivial
    | ok mode => exact uses_create (hmode mode rfl) missing
  | probing | creating | done => cases hn

end Ensure

namespace Operation

variable {operation : Operation}

theorem Uses.mono (h : operation.Uses wants allowed) (himp : ∀ mode, allowed mode → allowed' mode) :
    operation.Uses wants allowed' := by
  cases operation with
  | ensure state => exact Ensure.Uses.mono h himp
  | clear | listing => trivial

/-- Whatever a store answers, an operation makes no other calls by itself. -/
theorem Uses.calling (h : operation.Uses wants allowed)
    (hplain : wants = false → allowed .persistent) {call : Call}
    {resume : Answer → List LogRecord × Operation} (hn : operation.next = .calling call resume) :
    call.Suits allowed ∧ ∀ answer, (resume answer).2.Uses wants allowed := by
  cases operation with
  | ensure state =>
    rw [next] at hn
    cases hs : state.next with
    | calling call' resume' =>
      rw [hs] at hn
      cases hn
      exact Ensure.Uses.calling h hplain hs
    | finished | choosing => rw [hs] at hn; cases hn
  | clear state => cases state <;> cases hn <;> exact ⟨by trivial, fun _ => trivial⟩
  | listing state =>
    cases state <;> cases hn
    exact ⟨by trivial, fun _ => trivial⟩

/-- An operation that asks for the mode for containers is to create such, and goes on with the mode
that it is told. -/
theorem Uses.choosing (h : operation.Uses wants allowed)
    {resume : Except Failure CreateMode → List LogRecord × Operation}
    (hn : operation.next = .choosing resume) :
    wants = true ∧ ∀ answer, (∀ mode, answer = .ok mode → allowed' mode) →
      (resume answer).2.Uses wants allowed' := by
  cases operation with
  | ensure state =>
    rw [next] at hn
    cases hs : state.next with
    | choosing resume' =>
      rw [hs] at hn
      cases hn
      exact Ensure.Uses.choosing h hs
    | finished | calling => rw [hs] at hn; cases hn
  | clear state => cases state <;> cases hn
  | listing state => cases state <;> cases hn

/-- An operation that has not begun is to create containers if its caller says so, and plain nodes
else. -/
theorem uses_start (task : Task) (hplain : task.wantsContainers = false → allowed .persistent) :
    task.operation.Uses task.wantsContainers allowed := by
  cases task with
  | mkdirs => exact Ensure.uses_start hplain _
  | deleteChildren | sortedChildren => trivial

end Operation

end TreeStore
