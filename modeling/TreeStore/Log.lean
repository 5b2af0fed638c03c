import TreeStore.Context

/-!
# Log records

What the library reports while it works, each record with the context it was made in.
-/

namespace TreeStore

/-- How important a record is. -/
inductive Severity
  | debug
  | warning
  deriving DecidableEq, Repr

/-- The name of a severity in log output. -/
def Severity.name : Severity → String
  | debug => "DEBUG"
  | warning => "WARNING"

/-- The part of the library that a record is about. -/
inductive Topic
  /-- Recursive operations. -/
  | tree
  /-- The in-process store. -/
  | memory
  /-- The store of workspace directories. -/
  | workspace
  /-- Stored settings. -/
  | settings
  /-- Trees bound to a namespace. -/
  | binding
  deriving DecidableEq, Repr

/-- The logger that records on a topic go to. -/
def Topic.logger : Topic → String
  | tree => "databricks.labs.nodetree.tree"
  | memory => "databricks.labs.nodetree.memory"
  | workspace => "databricks.labs.nodetree.workspace"
  | settings => "databricks.labs.nodetree.config"
  | binding => "databricks.labs.nodetree.namespace"

/-- A log record. -/
structure LogRecord where
  /-- How important it is. -/
  severity : Severity
  /-- What it is about. -/
  topic : Topic
  /-- What it says. -/
  message : String
  /-- The context it was made in. -/
  context : Context

end TreeStore
