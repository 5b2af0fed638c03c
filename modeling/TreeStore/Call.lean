import TreeStore.Acl
import TreeStore.Failure

/-!
# Store primitives

The calls that a hierarchical store answers: four on nodes and one on what the store can do.
Recursive operations know a store only through its answers, which may be any value or failure.
-/

namespace TreeStore

/-- The version that matches every version of a node. -/
def anyVersion : Int := -1

/-- One request to a store. -/
inductive Call
  /-- Is there a node? -/
  | probe (path : String)
  /-- What are the names of the direct children of a node? -/
  | children (path : String)
  /-- Create a node; the answer is its actual path. -/
  | create (path : String) (data : List UInt8) (acl : List Acl) (mode : CreateMode)
  /-- Delete a childless node at a version. -/
  | delete (path : String) (version : Int)
  /-- Can the store create containers? -/
  | capability
  deriving DecidableEq, Repr

/-- The kinds of calls. -/
inductive Primitive
  | probe
  | children
  | create
  | delete
  | capability
  deriving DecidableEq, Repr

namespace Call

/-- The kind of a call. -/
def primitive : Call → Primitive
  | probe _ => .probe
  | children _ => .children
  | create .. => .create
  | delete .. => .delete
  | capability => .capability

/-- The path that a call is about, empty for a call about the store as a whole. -/
def path : Call → String
  | probe path | children path => path
  | create path .. => path
  | delete path _ => path
  | capability => ""

end Call

/-- The answer of a store to a call. -/
abbrev Answer := Except Failure Value

/-- The answer that a result is, given how its value is shown. -/
def Answer.of {α : Type} (toValue : α → Value) (result : Except Problem α) : Answer :=
  Failure.ofResult (result.map toValue)

end TreeStore
