import TreeStore.Memory
import TreeStore.Session.Request
import TreeStore.Settings.File
import TreeStore.Workspace
import TreeStore.Yaml.Reader
import TreeStore.Yaml.Writer

/-!
# Sessions

Requests carried out one after the other on a row of stores. The owner of a session has its calls
recorded and raced; another client, acting in a race, reaches the same stores directly and remembers
for itself what it learnt about containers.
-/

namespace TreeStore.Session

/-- A store of a session. -/
inductive Entry where
  /-- A store in memory, the actions waiting for calls, and what the owner and the other client
  learnt about containers. -/
  | memory (store : Memory) (races : List Race) (known peerKnown : Option CreateMode)
  /-- A store of workspace directories over a scripted service. -/
  | workspace (host : Value) (script : Script) (known : Option CreateMode)

namespace Entry

/-- A store in memory at the beginning of a session. -/
def ofMemory (containers : Bool) : Entry := memory { containers } [] none none

/-- A store of workspace directories at the beginning of a session. -/
def ofWorkspace (host : Value) (script : Script) : Entry := workspace host script none

/-- The name of the store's kind. -/
def className : Entry → String
  | memory .. => Memory.className
  | workspace .. => Workspace.className

/-- The text of a store. -/
def literal : Entry → String
  | memory store .. => store.literal
  | workspace host .. => Workspace.literal host

/-- The paths of a store in memory. -/
def paths? : Entry → Option (List String)
  | memory store .. => some store.paths
  | workspace .. => none

end Entry

/-- A call as it was seen by a store or by the service behind it. -/
inductive Seen
  | call (call : Call)
  | request (request : ServiceRequest)
  deriving DecidableEq, Repr

/-- The state of a session. -/
structure State where
  /-- The stores. -/
  entries : List Entry
  /-- The bound tree and the number of its store. -/
  tree : Option (Nat × Tree) := none
  /-- The calls of the present request, the last one first, with the number of their store. -/
  calls : List (Nat × Seen) := []
  /-- The log records of the present request, the last one first. -/
  records : List LogRecord := []

/-- Something done in a session. -/
abbrev Run := StateM State

/-- Report a record. -/
def log (record : LogRecord) : Run Unit := modify fun s => { s with records := record :: s.records }

/-- Record a call. -/
def see (store : Nat) (seen : Seen) : Run Unit :=
  modify fun s => { s with calls := (store, seen) :: s.calls }

/-- A store of the session. -/
def entry? (store : Nat) : Run (Option Entry) := return (← get).entries[store]?

/-- Replace a store of the session. -/
def setEntry (store : Nat) (entry : Entry) : Run Unit :=
  modify fun s => { s with entries := s.entries.set store entry }

/-- The component for settings in YAML files. -/
def yaml : Settings.Codec where
  read := Yaml.readBytes
  write fields :=
    if (Value.object fields).isOverlong then .error (.argument .overlongNumber)
    else .ok (Yaml.document fields)

/-- Refuse a request that the store does not know. -/
def unknown : Answer := .error (Problem.noMember : Problem)

/-- Carry out a call on a store in memory. Children are listed in order. -/
def carryOut (store : Nat) (call : Call) : Run Answer := do
  match ← entry? store with
  | some (.memory m races known peerKnown) =>
    let (after, answer) := m.serve Sorting.sortTexts call
    setEntry store (.memory after races known peerKnown)
    return answer
  | _ => return unknown

/-- Put a request to the service of a store of workspace directories. -/
def put (store : Nat) (request : ServiceRequest) : Run Answer := do
  match ← entry? store with
  | some (.workspace host script known) =>
    see store (.request request)
    let (answer, rest) := script.answer request
    setEntry store (.workspace host rest known)
    return answer
  | _ => return unknown

/-- Carry out a call on a store of workspace directories. -/
def consult (store : Nat) (context : Context) (call : Call) : Run Answer := do
  match ← entry? store with
  | some (.workspace ..) =>
    let remark message := log ⟨.debug, .workspace, message, context⟩
    Workspace.carryOut remark (put store) call
  | _ => return unknown

/-- The name of a store's kind. -/
def classNameOf (store : Nat) : Run String :=
  return ((← entry? store).map Entry.className).getD ""

/-- Another client of a store in memory. -/
def peer (store : Nat) : Client Run where
  className := classNameOf store
  call _ call := carryOut store call
  known := do
    match ← entry? store with
    | some (.memory _ _ _ peerKnown) => return peerKnown
    | _ => return none
  learn mode := do
    if let some (.memory m races known _) ← entry? store then
      setEntry store (.memory m races known (some mode))
  log := log

/-- Answer with a text for each entry of a list. -/
def texts (xs : List String) : Value := .list (xs.map .str)

/-- Bytes as hexadecimal digits. -/
def hexText (bytes : List UInt8) : String :=
  String.ofList (bytes.flatMap fun b => Digits.hex .lower 2 b.toNat)

/-- An access control list as nested lists. -/
def aclValue (acl : List Acl) : Value :=
  .list (acl.map fun a => .list [.int a.perms.bits, .str a.scheme, .str a.id])

/-- All that is known about a node. -/
def nodeValue (path : String) (node : Node) : Value :=
  .list [.str path, .str node.mode.word, .str (hexText node.data), aclValue node.acl]

/-- Ask a store in memory something. -/
def ask {α : Type} (store : Nat) (toValue : α → Value) (question : Memory → Except Problem α) :
    Run Answer := do
  match ← entry? store with
  | some (.memory m ..) => return .of toValue (question m)
  | _ => return unknown

/-- Change a store in memory. -/
def change {α : Type} (store : Nat) (toValue : α → Value)
    (request : Memory → Memory × Except Problem α) : Run Answer := do
  match ← entry? store with
  | some (.memory m races known peerKnown) =>
    let (after, result) := request m
    setEntry store (.memory after races known peerKnown)
    return .of toValue result
  | _ => return unknown

/-- Queue an action that waits for a call. -/
def queue (store : Nat) (race : Race) : Run Answer := do
  match ← entry? store with
  | some (.memory m races known peerKnown) =>
    setEntry store (.memory m (races ++ [race]) known peerKnown)
    return .ok .null
  | _ => return unknown

/-- Run an operation. -/
def operate (client : Client Run) (context : Context) (budget : Nat) (operation : Operation) :
    Run Answer := do
  match ← client.run context budget operation with
  | some answer => return answer
  | none => return .error (Problem.runtime "operation without end" : Problem)

/-- The text of a store. -/
def literalOf (store : Nat) : Run String :=
  return ((← entry? store).map Entry.literal).getD ""

/-- Bind a tree to a store. -/
def bindTree (store : Nat) (tree : Tree) : Run Answer := do
  modify fun s => { s with tree := some (store, tree) }
  return .of .str (tree.literal (← literalOf store))

/-- Do something with the bound tree and the number of its store. -/
def withTree (action : Nat → Tree → Run Answer) : Run Answer := do
  match (← get).tree with
  | some (store, tree) => action store tree
  | none => return unknown

/-- Run an operation of a tree unless its path is refused. -/
def operateChecked (client : Client Run) (context : Context) (budget : Nat)
    (operation : Except Problem Operation) : Run Answer := do
  match operation with
  | .error problem => return .error problem
  | .ok operation => operate client context budget operation

/-- Carry out a request on a store for a client, inside of a context. -/
def perform (client : Nat → Client Run) (budget store : Nat) (context : Context) :
    Request → Run Answer
  | .probe path => (client store).call context (.probe path)
  | .create path mode data acl =>
    match CreateMode.ofValue mode with
    | .ok mode => (client store).call context (.create path data acl mode)
    | .error problem => return .error problem
  | .delete path version => (client store).call context (.delete path version)
  | .children path => (client store).call context (.children path)
  | .capability => (client store).call context .capability
  | .setData path data version =>
    change store (fun n : Nat => .int n) fun m => m.setData path data version
  | .dataOf path => ask store (fun n : Node => .str (hexText n.data)) fun m => m.lookup path
  | .aclOf path => ask store (fun n : Node => aclValue n.acl) fun m => m.lookup path
  | .modeOf path => ask store (fun n : Node => .str n.mode.word) fun m => m.lookup path
  | .paths => ask store texts fun m => .ok m.paths
  | .reap => do
    let answer ← change store texts Memory.reap
    if let .ok (.list removed) := answer then
      if !removed.isEmpty then
        log ⟨.debug, .memory, Memory.reapedMessage removed.length, context⟩
    return answer
  | .close => change store (fun _ : Unit => .null) fun m => (m.close, .ok ())
  | .dump => ask store Value.list fun m =>
    m.paths.mapM fun path => (m.lookup path).map (nodeValue path)
  | .literal => do return .ok (.str (← literalOf store))
  | .mkdirs path makeLast provider asContainers =>
    operate (client store) context budget
      (.mkdirs context path makeLast (provider.map AclProvider.policy) asContainers)
  | .deleteChildren path deleteSelf limit =>
    operate (client store) context budget (.deleteChildren context path deleteSelf limit)
  | .sortedChildren path => operate (client store) context budget (.sortedChildren path)
  | .containerMode => do
    match ← (client store).containerMode context with
    | .ok mode => return .ok (.str mode.word)
    | .error failure => return .error failure
  | .containerSupport => do
    match ← (client store).containerMode context with
    | .ok mode => return .ok (.bool (mode ≠ .persistent))
    | .error failure => return .error failure
  | .within pairs request => do
    let inner := context.extend pairs
    match ← perform client budget store inner request with
    | .ok value => return .ok value
    | .error failure => return .error (failure.leaving inner)
  | .bind keywords provider =>
    match Settings.ofKeywords keywords with
    | .ok settings => bindTree store { settings, provider := provider.map AclProvider.policy }
    | .error problem => return .error problem
  | .bindFile file content provider => do
    let (records, result) := Settings.load {} (some yaml) context file (some content)
    records.forM log
    match result with
    | .ok settings =>
      if settings.isOverlong then return .error Failure.overlong
      log ⟨.debug, .binding, "Loaded " ++ file ++ ": " ++ settings.literal, context⟩
      bindTree store { settings, provider := provider.map AclProvider.policy }
    | .error failure => return .error failure
  | .treeMkdirs path makeLast => withTree fun store tree => do
    match tree.mkdirs context path makeLast with
    | .error problem => return .error problem
    | .ok (full, operation) =>
      return (← operate (client store) context budget operation).map fun _ => .str full
  | .treeDeleteChildren path deleteSelf => withTree fun store tree =>
    operateChecked (client store) context budget (tree.deleteChildren context path deleteSelf)
  | .treeSortedChildren path => withTree fun store tree =>
    operateChecked (client store) context budget (tree.sortedChildren path)
  | .treeFixPath path isOpen => withTree fun _ tree => return .of .str (tree.fixPath path isOpen)
  | .treeSettings => withTree fun _ tree =>
    return .ok (.object (tree.settings.stored ({} : Schema).current))
  | .treeLiteral => withTree fun store tree => do
    return .of .str (tree.literal (← literalOf store))
  | .race primitive path action => queue store ⟨primitive, path, action⟩

/-- Take the action that waits for a call. -/
def interfere (store : Nat) (call : Call) : Run (Option Action) := do
  match ← entry? store with
  | some (.memory m races known peerKnown) =>
    let (action, rest) := takeRace call races
    setEntry store (.memory m rest known peerKnown)
    return action
  | _ => return none

/-- A call by the owner of the session: it is recorded, then what waits for it happens. -/
def ownCall (budget store : Nat) (context : Context) (call : Call) : Run Answer := do
  match ← entry? store with
  | some (.memory ..) =>
    see store (.call call)
    match ← interfere store call with
    | some (.fail failure) => return .error failure
    | some (.answer value) => return .ok value
    | some (.act request) =>
      match ← perform peer budget store context request with
      | .ok _ => carryOut store call
      | .error failure => return .error failure
    | none => carryOut store call
  | _ => consult store context call

/-- The owner of the session. -/
def owner (budget store : Nat) : Client Run where
  className := classNameOf store
  call := ownCall budget store
  known := do
    match ← entry? store with
    | some (.memory _ _ known _) | some (.workspace _ _ known) => return known
    | none => return none
  learn mode := do
    match ← entry? store with
    | some (.memory m races _ peerKnown) => setEntry store (.memory m races (some mode) peerKnown)
    | some (.workspace host script _) => setEntry store (.workspace host script (some mode))
    | none => return ()
  log := log

/-- What a request led to. -/
structure Report where
  /-- The answer. -/
  answer : Answer
  /-- The calls, with the number of their store. -/
  calls : List (Nat × Seen)
  /-- The paths of the stores in memory where these changed, with the number of the store. -/
  changed : List (Nat × List String)
  /-- The log records. -/
  records : List LogRecord

/-- The stores in memory whose paths differ, with their paths. -/
def changes (before after : List Entry) : List (Nat × List String) :=
  ((before.zip after).zipIdx).filterMap fun ((b, a), i) =>
    if b.paths? = a.paths? then none else a.paths?.map fun paths => (i, paths)

/-- Carry out a request of the owner. -/
def step (budget store : Nat) (request : Request) (s : State) : Report × State :=
  let (answer, after) := (perform (owner budget) budget store [] request).run
    { s with calls := [], records := [] }
  ({ answer
     calls := after.calls.reverse
     changed := changes s.entries after.entries
     records := after.records.reverse }, after)

/-- Carry out requests one after the other. -/
def steps (budget : Nat) : List (Nat × Request) → State → List Report
  | [], _ => []
  | (store, request) :: rest, s =>
    let (report, after) := step budget store request s
    report :: steps budget rest after

end TreeStore.Session
