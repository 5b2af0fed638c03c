import TreeStore.Value

/-!
# Create modes

How a node lives: until it is deleted, as long as its creator's session, or as a container that goes
away after its last child. Each kind also comes in a sequential form, whose name gets a counter.
-/

namespace TreeStore

/-- How a node is created. -/
inductive CreateMode
  | persistent
  | persistentSequential
  | ephemeral
  | ephemeralSequential
  | container
  | containerSequential
  deriving DecidableEq, Repr, Inhabited

namespace CreateMode

/-- Every mode. -/
def all : List CreateMode :=
  [persistent, persistentSequential, ephemeral, ephemeralSequential, container, containerSequential]

/-- The word that stands for a mode in requests. -/
def word : CreateMode → String
  | persistent => "persistent"
  | persistentSequential => "persistent_sequential"
  | ephemeral => "ephemeral"
  | ephemeralSequential => "ephemeral_sequential"
  | container => "container"
  | containerSequential => "container_sequential"

/-- The name of a mode in messages. -/
def name (mode : CreateMode) : String := mode.word.toUpper

/-- Whether the store appends a counter to the name. -/
def isSequential : CreateMode → Bool
  | persistentSequential | ephemeralSequential | containerSequential => true
  | _ => false

/-- Whether the node ends with its creator's session. -/
def isEphemeral : CreateMode → Bool
  | ephemeral | ephemeralSequential => true
  | _ => false

/-- Whether the node is a container. -/
def isContainer : CreateMode → Bool
  | container | containerSequential => true
  | _ => false

/-- The mode that a word stands for. -/
def ofWord? (w : String) : Option CreateMode := all.find? (·.word == w)

end CreateMode

end TreeStore
