import TreeStore.Operation.Step

/-!
# Recursive creation

Makes sure that every node along a path exists. The deepest existing node is found from the leaf
upwards, so that nothing is asked about the nodes above it; then the missing ones are created
downwards. A node that someone else created in the meantime counts as created.
-/

namespace TreeStore

/-- What recursive creation was asked for. -/
structure Ensure.Job where
  /-- Whether the last node of the path is created, too. -/
  makeLast : Bool
  /-- Who chooses the access control lists. -/
  provider : Option AclPolicy
  /-- Whether the nodes are to be containers, if the store can create them. -/
  asContainers : Bool
  /-- The context of the operation. -/
  context : Context

/-- The states of recursive creation. -/
inductive Ensure where
  /-- Asking whether a node is there; the paths above it are left to ask about, and the ones below
  it are missing. -/
  | probing (job : Ensure.Job) (path : String) (above missing : List String)
  /-- Asking which mode to create the missing nodes in. -/
  | choosing (job : Ensure.Job) (missing : List String)
  /-- Creating a node; the ones below it follow. -/
  | creating (job : Ensure.Job) (mode : CreateMode) (path : String) (below : List String)
  /-- Done. -/
  | done (outcome : Answer)

namespace Ensure

/-- The operation fails in its own context. -/
def failed (job : Job) (failure : Failure) : Ensure := done (.error (failure.leaving job.context))

/-- Create the first of the missing nodes. -/
def create (job : Job) (mode : CreateMode) : List String → Ensure
  | [] => done (.ok .null)
  | path :: below => creating job mode path below

/-- The deepest existing node is found: go on to the missing ones. -/
def found (job : Job) (missing : List String) : Ensure :=
  let wanted := if job.makeLast then missing else missing.dropLast
  if job.asContainers then choosing job wanted else create job .persistent wanted

/-- Ask about the first of the paths, which are listed upwards. -/
def probe (job : Job) (missing : List String) : List String → Ensure
  | [] => found job missing
  | path :: above => probing job path above missing

/-- The operation before its first request. -/
def start (job : Job) (path : String) : Ensure :=
  match Path.validate path false with
  | .error problem => failed job problem
  | .ok p => probe job [] (Path.upwards p)

/-- What is logged about a node that was created. -/
def createdMessage (path : String) (mode : CreateMode) : String :=
  "Created " ++ path ++ " as " ++ mode.name

/-- What is logged about a node that someone else created. -/
def concurrentMessage (path : String) : String :=
  path ++ " was created concurrently, moving on"

/-- A debug record about the operation. -/
def record (job : Job) (message : String) : LogRecord := ⟨.debug, .tree, message, job.context⟩

/-- What the operation does next. -/
def next : Ensure → Next Ensure
  | probing job path above missing => .calling (.probe path) fun
    | .error failure => ([], failed job failure)
    | .ok answer =>
      ([], if answer.truthy then found job missing else probe job (path :: missing) above)
  | choosing job missing => .choosing fun
    | .error failure => ([], failed job failure)
    | .ok mode => ([], create job mode missing)
  | creating job mode path below =>
    .calling (.create path [] (AclPolicy.resolve job.provider path) mode) fun
      | .ok _ => ([record job (createdMessage path mode)], create job mode below)
      | .error failure =>
        if failure.problem.isNodeExists then
          ([record job (concurrentMessage path)], create job mode below)
        else ([], failed job failure)
  | done outcome => .finished outcome

/-- The context that requests are made in. -/
def context : Ensure → Context
  | probing job .. | choosing job _ | creating job .. => job.context
  | done _ => []

end Ensure

end TreeStore
