import TreeStore.Call

/-!
# The store of workspace directories

Nodes are directories of a workspace service. A directory has no payload, version, counter or
container mode, so that anything but an empty, persistent node and an unconditional deletion is
refused before the service is asked. Access control lists are ignored. The reports of the service
that mean "missing", "there already" and "not empty" become the outcomes of the primitive; all
others pass through.
-/

namespace TreeStore

/-- One request to the workspace service. -/
inductive ServiceRequest
  /-- Look up an object. -/
  | status (path : String)
  /-- Create a directory and those above it. -/
  | makeDirectories (path : String)
  /-- Delete an object, but not what is below it. -/
  | delete (path : String)
  /-- List the objects in a directory. -/
  | list (path : String)
  deriving DecidableEq, Repr

namespace Workspace

/-- The code of a deletion that was refused because the directory is not empty. -/
def notEmptyCode : String := "DIRECTORY_NOT_EMPTY"

/-- How a call is carried out. -/
inductive Plan where
  /-- Without the service: the call makes no sense for directories. -/
  | refuse (fault : ArgumentFault)
  /-- Without the service: the answer is known. -/
  | answer (value : Value)
  /-- By a request, whose answer is then interpreted; a remark may be logged before. -/
  | ask (remark : Option String) (request : ServiceRequest) (interpret : Answer → Answer)

/-- An outcome that the service's report stands for. -/
def translated (fault : StoreFault) (path : String) (failure : Failure) : Failure :=
  { problem := .ofStore fault path, source := some failure.problem }

/-- The failure of a request, with the reports about a missing object translated. -/
def missing (path : String) (failure : Failure) : Failure :=
  match failure.problem with
  | .service fault _ _ =>
    if fault.isAbsence then translated .noNode path failure else failure
  | _ => failure

/-- Whether a lookup found an object: a report that it is missing is an answer, too. -/
def found : Answer → Answer
  | .ok _ => .ok (.bool true)
  | .error failure => match failure.problem with
    | .service fault _ _ => if fault.isAbsence then .ok (.bool false) else .error failure
    | _ => .error failure

/-- The path of a directory that was created. Another object at the path counts as an existing node.
-/
def created (path : String) : Answer → Answer
  | .ok _ => .ok (.str path)
  | .error failure => match failure.problem with
    | .service .resourceExists _ _ => .error (translated .nodeExists path failure)
    | _ => .error failure

/-- The outcome of a deletion. That the object is missing counts more than the code of the report.
-/
def deleted (path : String) : Answer → Answer
  | .ok _ => .ok .null
  | .error failure => .error <| match failure.problem with
    | .service fault _ code =>
      if fault.isAbsence then translated .noNode path failure
      else if code = some notEmptyCode then translated .notEmpty path failure
      else failure
    | _ => failure

/-- The name of a listed object: what follows the last separator of its path. -/
def nameOf : Value → Except Failure Value
  | .str p => .ok (.str (Path.leaf p))
  | _ => .error (Problem.wrongType : Problem)

/-- The paths of the objects in an answer. Texts and mappings have members as well, but none with a
path. -/
def objectPaths : Value → Except Failure (List Value)
  | .list paths | .tuple paths => .ok paths
  | .str s => if s.isEmpty then .ok [] else .error (Problem.noMember : Problem)
  | .object fields => if fields.isEmpty then .ok [] else .error (Problem.noMember : Problem)
  | _ => .error (Problem.wrongType : Problem)

/-- The names of listed objects. Objects without a path are left out. -/
def listed (path : String) : Answer → Answer
  | .ok objects => do
    let paths ← objectPaths objects
    return .list (← (paths.filter Value.truthy).mapM nameOf)
  | .error failure => .error (missing path failure)

/-- What is logged about access control lists. -/
def aclRemark (path : String) (acl : List Acl) : Option String :=
  if acl.isEmpty then none
  else some ("Ignoring ACL for " ++ path ++ ": " ++ ", ".intercalate (acl.map Acl.literal))

/-- How each call is carried out. -/
def plan : Call → Plan
  | .probe path => .ask none (.status path) found
  | .children path => .ask none (.list path) (listed path)
  | .create path data acl mode =>
    if mode ≠ .persistent then .refuse (.directoryMode mode path)
    else if data ≠ [] then .refuse (.directoryData path)
    else .ask (aclRemark path acl) (.makeDirectories path) (created path)
  | .delete path version =>
    if version ≠ anyVersion then
      .refuse (if (Value.int version).isOverlong then .overlongNumber
        else .directoryVersion path version)
    else .ask none (.delete path) (deleted path)
  | .capability => .answer (.bool false)

/-- Carry out a call, by way of what logs a remark and of what puts a request to the service. -/
def carryOut {m : Type → Type} [Monad m] (log : String → m Unit)
    (ask : ServiceRequest → m Answer) (call : Call) : m Answer := do
  match plan call with
  | .refuse fault => return .error (Problem.argument fault : Problem)
  | .answer value => return .ok value
  | .ask remark request interpret =>
    if let some message := remark then log message
    return interpret (← ask request)

/-- The name of this kind of store. -/
def className : String := "WorkspaceStore"

/-- The text of a store in messages. -/
def literal (host : Value) : String := "<" ++ className ++ " for " ++ host.display ++ ">"

end Workspace

/-- The answers that a scripted service has for single requests. -/
abbrev Script := List (ServiceRequest × List Answer)

namespace Script

/-- The answer to a request and the script without it. The last answer to a request stays; a request
that the script does not know is answered by nothing. -/
def take (request : ServiceRequest) : Script → Answer × Script
  | [] => (.ok .null, [])
  | (known, answers) :: rest =>
    if known = request then
      match answers with
      | [] => (.ok .null, (known, []) :: rest)
      | [last] => (last, (known, [last]) :: rest)
      | answer :: more => (answer, (known, more) :: rest)
    else
      let (answer, rest) := take request rest
      (answer, (known, answers) :: rest)

/-- What the service answers and the script without it. Nothing stands for a listing without
objects. -/
def answer (request : ServiceRequest) (script : Script) : Answer × Script :=
  match request, script.take request with
  | .list _, (.ok .null, rest) => (.ok (.list []), rest)
  | _, taken => taken

end Script

end TreeStore
