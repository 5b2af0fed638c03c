import TreeStore.Operation.Client
import TreeStore.Settings.Basic

/-!
# Trees bound to a namespace

The recursive operations with their arguments as given, and trees that apply a namespace to each
path before an operation runs. The arguments that are given, and no defaults, make up the context of
an operation.
-/

namespace TreeStore

namespace Operation

/-- The pair for an argument that is given. -/
def given (name : String) (value : Option Value) : List (String × Value) :=
  value.toList.map fun v => (name, v)

/-- The context of recursive creation. -/
def creationContext (ambient : Context) (path : String) (makeLast asContainers : Option Value) :
    Context :=
  ambient.extend <|
    [("op", .str "mkdirs"), ("path", .str path)] ++ given "make_last_node" makeLast ++
      given "as_containers" asContainers

/-- Make sure that every node along a path exists. -/
def mkdirs (ambient : Context) (path : String) (makeLast : Option Value)
    (provider : Option AclPolicy) (asContainers : Option Value) : Operation :=
  ensure <| Ensure.start
    { makeLast := (makeLast.getD (.bool true)).truthy
      provider
      asContainers := (asContainers.getD (.bool false)).truthy
      context := creationContext ambient path makeLast asContainers } path

/-- The context of the outermost level of recursive deletion. -/
def deletionContext (ambient : Context) (path : String) (deleteSelf limit : Option Value) :
    Context :=
  ambient.extend <|
    [("op", .str "delete_children"), ("path", .str path)] ++ given "delete_self" deleteSelf ++
      given "max_attempts" limit

/-- Delete every descendant of a node and perhaps the node itself. -/
def deleteChildren (ambient : Context) (path : String) (deleteSelf limit : Option Value) :
    Operation :=
  clear <| Clear.start (limit.getD .null) ambient (deletionContext ambient path deleteSelf limit)
    path (deleteSelf.getD (.bool false)).truthy

/-- List the names of a node's children in order. -/
def sortedChildren (path : String) : Operation := listing (Listing.start path)

end Operation

/-- A tree: settings and a choice of access control lists for the operations on some store. -/
structure Tree where
  /-- The settings. -/
  settings : Settings := {}
  /-- Who chooses the access control lists. -/
  provider : Option AclPolicy := none

namespace Tree

/-- A path below the namespace of the tree. -/
def fixPath (t : Tree) (path : Value) (isOpen : Bool) : Except Problem String :=
  Path.inNamespace t.settings.nameSpace path isOpen

/-- Make sure that every node along a path exists; also gives the path below the namespace. -/
def mkdirs (t : Tree) (ambient : Context) (path : Value) (makeLast : Value) :
    Except Problem (String × Operation) := do
  let full ← t.fixPath path false
  return (full, .mkdirs ambient full (some makeLast) t.provider (some t.settings.useContainers))

/-- Delete every descendant of a node and perhaps the node itself. -/
def deleteChildren (t : Tree) (ambient : Context) (path : Value) (deleteSelf : Value) :
    Except Problem Operation := do
  let full ← t.fixPath path false
  return .deleteChildren ambient full (some deleteSelf) (some t.settings.maxDeleteAttempts)

/-- List the names of a node's children in order. -/
def sortedChildren (t : Tree) (path : Value) : Except Problem Operation := do
  return .sortedChildren (← t.fixPath path false)

/-- The text of a tree on a store with the given text. -/
def literal (t : Tree) (store : String) : Except Problem String :=
  let place := if t.settings.nameSpace.truthy then t.settings.nameSpace.display else Path.root
  if t.settings.nameSpace.isOverlong then .error (.argument .overlongNumber)
  else .ok ("<NodeTree " ++ place ++ " on " ++ store ++ ">")

end Tree

end TreeStore
