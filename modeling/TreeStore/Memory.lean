import TreeStore.Call
import TreeStore.Sorting

/-!
# The in-process store

A table of nodes by path. Creating a node requires its parent and deleting one requires it to have
no children; both keep the parent's list of children in step with the table. Sequential nodes get a
counter that their parent keeps. A failing request leaves the table as it is, except that a counter
moves on and that the root is gone before its deletion fails.
-/

namespace TreeStore

/-- What the store keeps about one node. -/
structure Node where
  /-- The payload. -/
  data : List UInt8
  /-- The access control list given on creation. -/
  acl : List Acl
  /-- How the node was created. -/
  mode : CreateMode
  /-- How often the payload was replaced. -/
  version : Nat := 0
  /-- The names of the children, each once. -/
  children : List String := []
  /-- The counter for the next sequential child. -/
  sequence : Nat := 0
  /-- Whether the node ever had a child. -/
  hadChildren : Bool := false
  deriving DecidableEq, Repr, Inhabited

namespace Node

/-- A node that has given out its counter. -/
def counted (node : Node) : Node := { node with sequence := node.sequence + 1 }

/-- A node with one more child. -/
def adopt (name : String) (node : Node) : Node :=
  { node with
    children := if name ∈ node.children then node.children else node.children ++ [name]
    hadChildren := true }

/-- A node without one of its children. -/
def disown (name : String) (node : Node) : Node :=
  { node with children := node.children.erase name }

/-- A node with another payload. -/
def written (data : List UInt8) (node : Node) : Node :=
  { node with data, version := node.version + 1 }

/-- Whether a node is a container that is to be removed. -/
def isSpent (node : Node) : Bool :=
  node.mode.isContainer && node.hadChildren && node.children.isEmpty

end Node

/-- A store in memory. -/
structure Memory where
  /-- Whether containers can be created. -/
  containers : Bool := true
  /-- Whether the session with the store is gone. -/
  closed : Bool := false
  /-- The nodes by path, in order of creation. -/
  nodes : List (String × Node) := [(Path.root, ⟨[], [], .persistent, 0, [], 0, false⟩)]
  deriving DecidableEq, Repr, Inhabited

namespace Memory

/-- The node at a path. -/
def find? (m : Memory) (path : String) : Option Node := m.nodes.lookup path

/-- Whether there is a node at a path. -/
def has (m : Memory) (path : String) : Bool := (m.find? path).isSome

/-- Change the node at a path. -/
def modify (m : Memory) (path : String) (f : Node → Node) : Memory :=
  { m with nodes := m.nodes.map fun (p, n) => (p, if p = path then f n else n) }

/-- Add a node. -/
def insert (m : Memory) (path : String) (node : Node) : Memory :=
  { m with nodes := m.nodes ++ [(path, node)] }

/-- Remove the node at a path. -/
def erase (m : Memory) (path : String) : Memory :=
  { m with nodes := m.nodes.filter fun (p, _) => p ≠ path }

/-- The report that the session is gone. -/
def gone (path : String) : Problem := .store .unavailable path ("store is closed: " ++ path)

/-- Whether there is a node at a path. -/
def probe (m : Memory) (path : String) : Except Problem Bool :=
  if m.closed then .error (gone path) else .ok (m.has path)

/-- Add a node to the table and to its parent's children. -/
def attach (m : Memory) (above path : String) (node : Node) : Memory :=
  (m.insert path node).modify above (Node.adopt (Path.leaf path))

/-- Add a node below an existing parent, unless its path is taken. -/
def place (m : Memory) (above path : String) (node : Node) : Memory × Except Problem String :=
  if m.has path then (m, .error (.ofStore .nodeExists path))
  else (m.attach above path node, .ok path)

/-- The number of digits that a counter is filled up to. -/
def counterWidth : Nat := 10

/-- A path with a counter behind it. -/
def numbered (path : String) (n : Nat) : String :=
  path ++ String.ofList (Digits.padded counterWidth n)

/-- Create a node. The answer is its path, which for a sequential mode is the requested one with the
parent's counter behind it. -/
def create (m : Memory) (path : String) (data : List UInt8) (acl : List Acl) (mode : CreateMode) :
    Memory × Except Problem String :=
  match Path.validate path mode.isSequential with
  | .error problem => (m, .error problem)
  | .ok _ =>
    if mode.isContainer && !m.containers then (m, .error (.argument (.noContainers path)))
    else if m.closed then (m, .error (gone path))
    else
      let above := Path.parent path
      match m.find? above with
      | none => (m, .error (.ofStore .noNode above))
      | some parent =>
        let node : Node := { data, acl, mode }
        if mode.isSequential then
          (m.modify above Node.counted).place above (numbered path parent.sequence) node
        else m.place above path node

/-- Remove a node from the table and from its parent's children. The root is its own parent, so that
it is missing already when its parent is looked up. -/
def unlink (m : Memory) (path : String) : Memory × Except Problem Unit :=
  let rest := m.erase path
  let above := Path.parent path
  if rest.has above then
    (rest.modify above (Node.disown (Path.leaf path)), .ok ())
  else (rest, .error (.missingKey above))

/-- Whether a requested version is that of a node. -/
def versionMatches (requested : Int) (node : Node) : Bool :=
  requested == anyVersion || requested == (node.version : Int)

/-- Delete a childless node at a version. -/
def delete (m : Memory) (path : String) (version : Int) : Memory × Except Problem Unit :=
  match Path.validate path false with
  | .error problem => (m, .error problem)
  | .ok _ =>
    if m.closed then (m, .error (gone path))
    else match m.find? path with
      | none => (m, .error (.ofStore .noNode path))
      | some node =>
        if !versionMatches version node then (m, .error (.ofStore .badVersion path))
        else if node.children ≠ [] then (m, .error (.ofStore .notEmpty path))
        else m.unlink path

/-- The names of the children of a node. -/
def children (m : Memory) (path : String) : Except Problem (List String) := do
  let _ ← Path.validate path false
  if m.closed then throw (gone path)
  match m.find? path with
  | none => throw (.ofStore .noNode path)
  | some node => return node.children

/-- The node at a path, for the requests that do not check the path. -/
def lookup (m : Memory) (path : String) : Except Problem Node :=
  if m.closed then .error (gone path)
  else match m.find? path with
    | none => .error (.ofStore .noNode path)
    | some node => .ok node

/-- Replace the payload of a node at a version. The answer is the new version. -/
def setData (m : Memory) (path : String) (data : List UInt8) (version : Int) :
    Memory × Except Problem Nat :=
  match m.lookup path with
  | .error problem => (m, .error problem)
  | .ok node =>
    if !versionMatches version node then (m, .error (.ofStore .badVersion path))
    else
      (m.modify path (Node.written data), .ok (node.version + 1))

/-- The paths of all nodes but the root, in order. A closed store still answers. -/
def paths (m : Memory) : List String :=
  Sorting.sortTexts ((m.nodes.map Prod.fst).filter (· ≠ Path.root))

/-- Lose the session: every later request fails. -/
def close (m : Memory) : Memory := { m with closed := true }

/-- Remove, in the given order, the nodes that are spent when their turn comes. -/
def sweep (m : Memory) : List String → Memory × List String
  | [] => (m, [])
  | path :: rest =>
    match m.find? path with
    | some node =>
      if node.isSpent then
        let (swept, removed) := (m.unlink path).1.sweep rest
        (swept, path :: removed)
      else m.sweep rest
    | none => m.sweep rest

/-- All paths, the deepest first and otherwise in order of creation. -/
def deepestFirst (m : Memory) : List String :=
  Sorting.sortBy (fun a b => decide (Path.depth b ≤ Path.depth a)) (m.nodes.map Prod.fst)

/-- Remove the containers that had children and have none left. Deeper ones go first, so that a
container emptied by the sweep goes in the same one. The answer is their paths. -/
def reap (m : Memory) : Memory × Except Problem (List String) :=
  if m.closed then (m, .error (gone Path.root))
  else
    let (swept, removed) := m.sweep m.deepestFirst
    (swept, .ok removed)

/-- The name of this kind of store. -/
def className : String := "MemoryStore"

/-- The text of a store in messages. -/
def literal (m : Memory) : String :=
  "<" ++ className ++ " with " ++ toString m.nodes.length ++ " nodes>"

/-- What is logged about containers that were removed. -/
def reapedMessage (count : Nat) : String := "Reaped " ++ toString count ++ " empty containers"

/-- Answer a call. The names of children are listed in the order that `arrange` gives them. -/
def serve (arrange : List String → List String) (m : Memory) : Call → Memory × Answer
  | .probe path => (m, .of .bool (m.probe path))
  | .children path =>
    (m, .of (fun names => .list ((arrange names).map .str)) (m.children path))
  | .create path data acl mode =>
    let (after, result) := m.create path data acl mode
    (after, .of .str result)
  | .delete path version =>
    let (after, result) := m.delete path version
    (after, .of (fun _ => .null) result)
  | .capability => (m, .ok (.bool m.containers))

end Memory

end TreeStore
