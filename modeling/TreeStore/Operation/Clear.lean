import TreeStore.Operation.Step

/-!
# Recursive deletion

Deletes every descendant of a node and, if asked to, the node itself. Each level lists a node,
clears the children one after the other and then deletes the node. A node that is gone already
counts as deleted; one that gained children in the meantime is cleared again, as often as the limit
allows. While a level runs, the context of its arguments is active; however the level ends, the
context from before is put back.
-/

namespace TreeStore

/-- One level of the recursion: the clearing of one node. -/
structure Clear.Frame where
  /-- The node being cleared. -/
  path : String
  /-- Whether the node itself goes, too. -/
  deleteSelf : Bool
  /-- How many attempts there were, with the present one. -/
  attempts : Nat
  /-- The context that is active inside of this level. -/
  context : Context
  /-- The context that was active before, which is put back at the end of this level. -/
  outside : Context
  /-- The listed children that are left to clear. -/
  pending : List Value

/-- The states of recursive deletion. The levels above the present one are listed from the
innermost. -/
inductive Clear where
  /-- Listing the children of the innermost node. -/
  | listing (limit : Value) (frame : Clear.Frame) (outer : List Clear.Frame)
  /-- Deleting the innermost node. -/
  | deleting (limit : Value) (frame : Clear.Frame) (outer : List Clear.Frame)
  /-- Done, in the context that is active again. -/
  | done (outcome : Answer) (context : Context)

namespace Clear

/-- A failure leaves one level after the other. Each annotates it with the context that is active
and puts back the one from before; none recovers. -/
def unwind (failure : Failure) (active : Context) : List Frame → Clear
  | [] => done (.error failure) active
  | frame :: outer => unwind (failure.leaving active) frame.outside outer

/-- The innermost level fails. -/
def failed (failure : Failure) (frame : Frame) (outer : List Frame) : Clear :=
  unwind failure frame.context (frame :: outer)

/-- Begin a level: its context becomes active in place of the one outside, the path is checked, then
the node is listed. -/
def enter (limit : Value) (outside context : Context) (path : String) (deleteSelf : Bool)
    (outer : List Frame) : Clear :=
  let frame : Frame := ⟨path, deleteSelf, 1, context, outside, []⟩
  match Path.validate path false with
  | .error problem => failed problem frame outer
  | .ok _ => listing limit frame outer

/-- The arguments of the level for a child, in the context of its parent's. -/
def childContext (limit : Value) (context : Context) (path : String) : Context :=
  context.extend [("op", .str "delete_children"), ("path", .str path), ("delete_self", .bool true),
    ("max_attempts", limit)]

/-- Begin the level for a child, below the first of the given frames. -/
def enterChild (limit : Value) (frame : Frame) (child : Value) (outer : List Frame) : Clear :=
  match Path.joinValues [.str frame.path, child] with
  | .error problem => failed problem frame outer
  | .ok path =>
    enter limit frame.context (childContext limit frame.context path) path true (frame :: outer)

/-- Go on after a level returned its number of attempts and put back the context: with the next
child, with the node itself, or by returning as well. -/
def proceed (limit : Value) (attempts : Nat) (active : Context) : List Frame → Clear
  | [] => done (.ok (.int attempts)) active
  | frame :: outer =>
    match frame.pending with
    | child :: rest =>
      enterChild limit { frame with context := active, pending := rest } child outer
    | [] =>
      if frame.deleteSelf then deleting limit { frame with context := active } outer
      else proceed limit frame.attempts frame.outside outer

/-- The operation before its first request. -/
def start (limit : Value) (outside context : Context) (path : String) (deleteSelf : Bool) : Clear :=
  enter limit outside context path deleteSelf []

/-- Whether a number of attempts has reached the limit; no limit is never reached, and a limit that
is no number cannot be compared. -/
def reached? (limit : Value) (attempts : Nat) : Option Bool :=
  match limit with
  | .null => some false
  | _ => match limit.number? with
    | none => none
    | some n => some (match (Value.Number.exact attempts).compare? n with
      | some .lt | none => false
      | some _ => true)

/-- A number as the limit is reached by as many attempts. -/
theorem reached?_int (most : Int) (attempts : Nat) :
    reached? (.int most) attempts = some (decide (most ≤ (attempts : Int))) := by
  simp only [reached?, Value.number?, Value.Number.compare?]
  rcases Int.lt_trichotomy (attempts : Int) most with h | h | h
  · rw [Int.compare_eq_lt.mpr h, decide_eq_false (by omega)]
  · rw [Int.compare_eq_eq.mpr h, decide_eq_true (by omega)]
  · rw [Int.compare_eq_gt.mpr h, decide_eq_true (by omega)]

/-- What is logged about a node that someone else deleted. -/
def goneMessage (path : String) : String := path ++ " was deleted concurrently"

/-- What is logged about a node that was deleted. -/
def deletedMessage (path : String) : String := "Deleted " ++ path

/-- What is logged about a node that gained children. -/
def retryMessage (path : String) (attempts : Nat) : String :=
  path ++ " gained children while being deleted, retrying (attempt " ++ toString attempts ++ ")"

/-- A debug record about a level. -/
def record (frame : Frame) (message : String) : LogRecord := ⟨.debug, .tree, message, frame.context⟩

/-- A level is done with its node. -/
def leave (limit : Value) (frame : Frame) (outer : List Frame) (message : String) :
    List LogRecord × Clear :=
  ([record frame message], proceed limit frame.attempts frame.outside outer)

/-- The node has children after all: give up or clear it again. -/
def retry (limit : Value) (frame : Frame) (outer : List Frame) (failure : Failure) :
    List LogRecord × Clear :=
  match reached? limit frame.attempts with
  | none => ([], failed (Problem.wrongType : Problem) frame outer)
  | some true =>
    ([], failed { problem := .retriesExhausted frame.path frame.attempts
                  source := some failure.problem } frame outer)
  | some false =>
    ([record frame (retryMessage frame.path frame.attempts)],
      listing limit { frame with attempts := frame.attempts + 1 } outer)

/-- What the operation does next. -/
def next : Clear → Next Clear
  | listing limit frame outer => .calling (.children frame.path) fun
    | .error failure =>
      if failure.problem.isNoNode then leave limit frame outer (goneMessage frame.path)
      else ([], failed failure frame outer)
    | .ok answer => match answer.members? with
      | none => ([], failed (Problem.wrongType : Problem) frame outer)
      | some names => ([], proceed limit 0 frame.context ({ frame with pending := names } :: outer))
  | deleting limit frame outer => .calling (.delete frame.path anyVersion) fun
    | .ok _ => leave limit frame outer (deletedMessage frame.path)
    | .error failure =>
      if failure.problem.isNotEmpty then retry limit frame outer failure
      else if failure.problem.isNoNode then leave limit frame outer (goneMessage frame.path)
      else ([], failed failure frame outer)
  | done outcome _ => .finished outcome

/-- The context that is active. -/
def context : Clear → Context
  | listing _ frame _ | deleting _ frame _ => frame.context
  | done _ context => context

end Clear

end TreeStore
