import TreeStore.Console.Line

/-!
# The console handler

One handler on the root logger takes the place of all others. The root lets records through from its
own level on, and the handler from the level that it was installed with.
-/

namespace TreeStore.Console

/-- A root logger and what hangs on it. -/
structure Root where
  /-- The least level of records that are passed on. -/
  level : Int := 10
  /-- The number of handlers. -/
  handlers : Nat := 0
  deriving DecidableEq, Repr

/-- A console handler. -/
structure Handler where
  /-- The least level of records that are shown, as it was given. -/
  level : Value

/-- The levels by name. -/
def levels : List (String × Int) :=
  [("CRITICAL", 50), ("FATAL", 50), ("ERROR", 40), ("WARN", 30), ("WARNING", 30), ("INFO", 20),
    ("DEBUG", 10), ("NOTSET", 0)]

/-- The level that is given by number or name. -/
def level (given : Value) : Except Problem Value :=
  match given with
  | .int _ | .bool _ => .ok given
  | .str name => match levels.lookup name with
    | some n => .ok (.int n)
    | none => .error (.argument (.unknownLevel name))
  | _ => .error .wrongType

/-- Replace the handlers of a root logger by one for the console. The others are gone even if the
level makes no sense. -/
def install (root : Root) (given : Value) : Root × Except Problem Handler :=
  match level given with
  | .ok value => ({ root with handlers := 1 }, .ok ⟨value⟩)
  | .error problem => ({ root with handlers := 0 }, .error problem)

/-- Whether a root logger passes a record of some level on. Levels that are not positive are off. -/
def Root.passes (root : Root) (level : Int) : Bool := 0 < level && root.level ≤ level

/-- Whether a handler shows a record of some level. -/
def Handler.shows (handler : Handler) (level : Int) : Bool :=
  (Value.int level).before? handler.level == some false

/-- What a record lets appear on the console: a line, or nothing if it is held back or cannot be
shown. -/
def output (root : Root) (handler : Handler) (e : Entry) : String :=
  if root.passes e.level && handler.shows e.level then
    match colored e with
    | .ok text => text ++ "\n"
    | .error _ => ""
  else ""

end TreeStore.Console
