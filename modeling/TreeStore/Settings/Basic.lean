import TreeStore.Failure
import TreeStore.Log

/-!
# Settings of a tree

The settings that a tree is used with. They are made from keywords without a check, so that each may
hold any value; what is read from a file is checked.
-/

namespace TreeStore

/-- The settings shared by every operation on a tree. -/
structure Settings where
  /-- The path that all paths are taken below, if any. -/
  nameSpace : Value := .null
  /-- Whether nodes are created as containers where the store can do that. -/
  useContainers : Value := .bool false
  /-- After how many attempts to give up deleting a node, if ever. -/
  maxDeleteAttempts : Value := .null
  deriving Inhabited

namespace Settings

/-- The names of the settings, in order. -/
def names : List String := ["namespace", "use_containers", "max_delete_attempts"]

/-- The settings with one of them set; a name that is none of theirs is refused. -/
def set (s : Settings) (name : String) (value : Value) : Except Problem Settings :=
  match name with
  | "namespace" => .ok { s with nameSpace := value }
  | "use_containers" => .ok { s with useContainers := value }
  | "max_delete_attempts" => .ok { s with maxDeleteAttempts := value }
  | _ => .error .wrongType

/-- Settings from keywords, without a check of the values. -/
def ofKeywords (pairs : List (String × Value)) : Except Problem Settings :=
  pairs.foldlM (fun s (name, value) => s.set name value) {}

/-- The settings by name. -/
def pairs (s : Settings) : List (String × Value) :=
  [("namespace", s.nameSpace), ("use_containers", s.useContainers),
    ("max_delete_attempts", s.maxDeleteAttempts)]

/-- The object that is stored for settings of a version. -/
def stored (s : Settings) (version : Int) : Fields :=
  (.str "version", .int version) :: s.pairs.map fun (name, value) => (.str name, value)

/-- The text of settings in messages. -/
def literal (s : Settings) : String :=
  let pairs := s.pairs.map fun (name, value) => name ++ "=" ++ value.literal
  "TreeConfig(" ++ ", ".intercalate pairs ++ ")"

/-- Whether the text of the settings would hold an integer that is too long to be written. -/
def isOverlong (s : Settings) : Bool := Value.anyOverlong (s.pairs.map Prod.snd)

/-- Check the value of a setting. A truth value is no count, though it is worth a number. -/
def check (name : String) (value : Value) : Except Problem Value :=
  match name, value with
  | "namespace", .str _ => .ok value
  | "namespace", _ => .error (.ofSettings (.wrongKind name "str" value))
  | "use_containers", .bool _ => .ok value
  | "use_containers", _ => .error (.ofSettings (.wrongKind name "bool" value))
  | _, .int n => if n < 1 then .error (.ofSettings (.notPositive name value)) else .ok value
  | _, _ => .error (.ofSettings (.wrongKind name "int" value))

end Settings

end TreeStore
