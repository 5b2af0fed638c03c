import TreeStore.Tree
import TreeStore.Text.Encoding

/-!
# Requests of a session

What a client may ask of the stores of a session: primitives, questions about a store in memory,
recursive operations and operations of a bound tree. A race lets another client act just before a
primitive.
-/

namespace TreeStore.Session

mutual

/-- One request to a store of a session. -/
inductive Request where
  /-- Is there a node? -/
  | probe (path : String)
  /-- Create a node; the mode is given by its word. -/
  | create (path : String) (mode : Value) (data : List UInt8) (acl : List Acl)
  /-- Delete a childless node. -/
  | delete (path : String) (version : Int)
  /-- List the children of a node. -/
  | children (path : String)
  /-- Can the store create containers? -/
  | capability
  /-- Replace the payload of a node. -/
  | setData (path : String) (data : List UInt8) (version : Int)
  /-- The payload of a node. -/
  | dataOf (path : String)
  /-- The access control list of a node. -/
  | aclOf (path : String)
  /-- The create mode of a node. -/
  | modeOf (path : String)
  /-- All paths but the root. -/
  | paths
  /-- Remove spent containers. -/
  | reap
  /-- Lose the session with the store. -/
  | close
  /-- Everything that is known about each node. -/
  | dump
  /-- The text of the store. -/
  | literal
  /-- Recursive creation. -/
  | mkdirs (path : String) (makeLast : Option Value) (provider : Option AclProvider)
    (asContainers : Option Value)
  /-- Recursive deletion. -/
  | deleteChildren (path : String) (deleteSelf limit : Option Value)
  /-- Ordered listing. -/
  | sortedChildren (path : String)
  /-- The mode in which containers are created. -/
  | containerMode
  /-- Are containers created as such? -/
  | containerSupport
  /-- A request inside of a context. -/
  | within (pairs : List (String × Value)) (request : Request)
  /-- Bind a tree to the store, with settings from keywords. -/
  | bind (keywords : List (String × Value)) (provider : Option AclProvider)
  /-- Bind a tree to the store, with settings from a file. -/
  | bindFile (file : String) (content : Encoding.Bytes) (provider : Option AclProvider)
  /-- Recursive creation below the namespace of the tree. -/
  | treeMkdirs (path : Value) (makeLast : Value)
  /-- Recursive deletion below the namespace of the tree. -/
  | treeDeleteChildren (path : Value) (deleteSelf : Value)
  /-- Ordered listing below the namespace of the tree. -/
  | treeSortedChildren (path : Value)
  /-- A path below the namespace of the tree. -/
  | treeFixPath (path : Value) (isOpen : Bool)
  /-- The settings of the tree. -/
  | treeSettings
  /-- The text of the tree. -/
  | treeLiteral
  /-- Let something happen before a later primitive. -/
  | race (primitive : Primitive) (path : String) (action : Action)

/-- What happens when a primitive is called that a race waits for. -/
inductive Action where
  /-- The call fails. -/
  | fail (failure : Failure)
  /-- The call is answered without being carried out. -/
  | answer (value : Value)
  /-- Another client acts first. -/
  | act (request : Request)

end

instance : Inhabited Request := ⟨.paths⟩

/-- An action that waits for a primitive on a path. -/
structure Race where
  /-- The kind of call. -/
  primitive : Primitive
  /-- The path of the call. -/
  path : String
  /-- What happens. -/
  action : Action

/-- Take the first action that waits for a call. -/
def takeRace (call : Call) : List Race → Option Action × List Race
  | [] => (none, [])
  | race :: rest =>
    if race.primitive = call.primitive ∧ race.path = call.path then (some race.action, rest)
    else
      let (found, others) := takeRace call rest
      (found, race :: others)

end TreeStore.Session
