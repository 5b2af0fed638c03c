import TreeStore.Context
import TreeStore.Mode
import TreeStore.Path

/-!
# Failures

Everything that can go wrong, as causes with their data. `Problem.message` is the one place where
most of the wording stands. A failure on its way out is a problem together with the notes it picked
up and the problem that it was raised from.
-/

namespace TreeStore

/-- What a store reports about a node. -/
inductive StoreFault
  /-- An outcome without a kind of its own. -/
  | other
  /-- The node to be created is there already. -/
  | nodeExists
  /-- The node, or the parent of one to be created, is not there. -/
  | noNode
  /-- The node to be deleted has children. -/
  | notEmpty
  /-- The node is not at the expected version. -/
  | badVersion
  /-- The session with the store is gone. -/
  | unavailable
  deriving DecidableEq, Repr

/-- What the workspace service reports. -/
inductive ServiceFault
  /-- A fault without a kind of its own. -/
  | general
  /-- The object is not there. -/
  | notFound
  /-- The resource is not there; a kind of `notFound`. -/
  | noResource
  /-- The caller may not do this. -/
  | permissionDenied
  /-- The request makes no sense. -/
  | badRequest
  /-- The service itself failed. -/
  | internal
  /-- The request collides with another one. -/
  | conflict
  /-- Another object has the path; a kind of `conflict`. -/
  | resourceExists
  /-- Something is there already; a kind of `conflict`. -/
  | alreadyExists
  deriving DecidableEq, Repr

/-- Whether a fault says that the object is not there. -/
def ServiceFault.isAbsence : ServiceFault → Bool
  | notFound | noResource => true
  | _ => false

/-- Arguments of a right kind that make no sense. -/
inductive ArgumentFault
  /-- The store cannot create containers. -/
  | noContainers (path : String)
  /-- No create mode has this word. -/
  | unknownMode (word : Value)
  /-- Directories know one create mode only. -/
  | directoryMode (mode : CreateMode) (path : String)
  /-- Directories hold no data. -/
  | directoryData (path : String)
  /-- Directories have no versions. -/
  | directoryVersion (path : String) (version : Int)
  /-- No logging level has this name. -/
  | unknownLevel (name : String)
  /-- A number has more decimal digits than are read. -/
  | tooManyDigits (count : Nat)
  /-- A number has more decimal digits than are written. -/
  | overlongNumber
  /-- These characters are no number in the given base. -/
  | notInBase (base : Nat) (text : String)
  /-- A template ends inside of a placeholder. -/
  | openPlaceholder
  /-- A template has a placeholder of an unknown kind at this position. -/
  | unknownPlaceholder (kind : Char) (position : Nat)
  /-- The undefined number is no integer. -/
  | undefinedNumber
  /-- No character has such a number. -/
  | noCharacter
  /-- Any other complaint. -/
  | other (text : String)

/-- Numbers that do not fit what they are to become. -/
inductive RangeFault
  /-- The infinite number is no integer. -/
  | infiniteNumber
  /-- The number of a character is beyond 31 bits. -/
  | characterNumber
  deriving DecidableEq, Repr

/-- What is wrong with stored settings. -/
inductive SettingsFault
  /-- A migration did not raise the version. -/
  | stuckMigration (file : String) (version : Value)
  /-- The version is not the current one. -/
  | wrongVersion (expected : Int) (actual : Value)
  /-- The file does not hold an object. -/
  | notObject (file : String) (value : Value)
  /-- A setting has the wrong kind. -/
  | wrongKind (name kind : String) (value : Value)
  /-- A count is zero or negative. -/
  | notPositive (name : String) (value : Value)

/-- Whether settings are rejected because of their version, and not for what they hold. -/
def SettingsFault.isVersion : SettingsFault → Bool
  | stuckMigration .. | wrongVersion .. => true
  | _ => false

/-- The values that the wording of a fault shows. -/
def SettingsFault.shown : SettingsFault → List Value
  | stuckMigration _ version => [version]
  | wrongVersion expected actual => [.int expected, actual]
  | notObject _ value | wrongKind _ _ value | notPositive _ value => [value]

/-- What went wrong. -/
inductive Problem
  /-- A path is malformed. -/
  | invalidPath (path : Value) (fault : Path.Fault)
  /-- A store reports an outcome; `text` replaces the default message unless it is empty. -/
  | store (fault : StoreFault) (path : String) (text : String)
  /-- A node kept gaining children while it was being removed. -/
  | retriesExhausted (path : String) (attempts : Int)
  /-- The workspace service reports a fault, perhaps with a code. -/
  | service (fault : ServiceFault) (text : String) (code : Option String)
  /-- An argument makes no sense. -/
  | argument (fault : ArgumentFault)
  /-- A number does not fit. -/
  | outOfRange (fault : RangeFault)
  /-- Stored settings cannot be used. -/
  | settings (fault : SettingsFault)
  /-- There is nothing under this key. -/
  | missingKey (key : String)
  /-- A value is of a kind that the operation does not take. -/
  | wrongType
  /-- A value of this kind has no such member. -/
  | noMember
  /-- Any other failure while running. -/
  | runtime (text : String)
  /-- The operating system reports a failure. -/
  | system (text : String)
  /-- The user interrupts the program. -/
  | interrupted (text : String)
  /-- A text is no JSON. -/
  | malformedJson
  /-- Bytes are no text in the expected encoding. -/
  | undecodable
  /-- A file is not there. -/
  | noFile
  /-- A text is no YAML, or none of the supported kind. -/
  | malformedYaml
  /-- YAML files cannot be used, for want of a reader. -/
  | noYamlSupport
  /-- An optional component is not there. -/
  | noComponent

namespace Problem

/-- A store's report with the default message. -/
def ofStore (fault : StoreFault) (path : String) : Problem := store fault path ""

/-- A problem whose message shows some values. If one of them is too long to be written, writing the
message fails instead. -/
def showing (values : List Value) (problem : Problem) : Problem :=
  if Value.anyOverlong values then argument .overlongNumber else problem

/-- The rejection of settings, whose message shows the values at fault. -/
def ofSettings (fault : SettingsFault) : Problem := showing fault.shown (settings fault)

/-- Whether a node could not be deleted because of its children. -/
def isNotEmpty : Problem → Bool
  | store .notEmpty .. | retriesExhausted .. => true
  | _ => false

/-- Whether a node was found to be missing. -/
def isNoNode : Problem → Bool
  | store .noNode .. => true
  | _ => false

/-- Whether a node was found to be there already. -/
def isNodeExists : Problem → Bool
  | store .nodeExists .. => true
  | _ => false

/-- Whether the user asked the program to stop; such a failure gets no notes. -/
def isInterrupt : Problem → Bool
  | interrupted _ => true
  | _ => false

/-- The name of a problem's kind. -/
def kind : Problem → String
  | invalidPath .. => "InvalidPath"
  | store .other .. => "NodeStoreError"
  | store .nodeExists .. => "NodeExists"
  | store .noNode .. => "NoNode"
  | store .notEmpty .. => "NotEmpty"
  | store .badVersion .. => "BadVersion"
  | store .unavailable .. => "StoreUnavailable"
  | retriesExhausted .. => "RetriesExhausted"
  | service .general .. => "DatabricksError"
  | service .notFound .. => "NotFound"
  | service .noResource .. => "ResourceDoesNotExist"
  | service .permissionDenied .. => "PermissionDenied"
  | service .badRequest .. => "BadRequest"
  | service .internal .. => "InternalError"
  | service .conflict .. => "ResourceConflict"
  | service .resourceExists .. => "ResourceAlreadyExists"
  | service .alreadyExists .. => "AlreadyExists"
  | argument _ => "ValueError"
  | outOfRange _ => "OverflowError"
  | settings fault => if fault.isVersion then "IllegalState" else "SerdeError"
  | missingKey _ => "KeyError"
  | wrongType => "TypeError"
  | noMember => "AttributeError"
  | runtime _ => "RuntimeError"
  | system _ => "OSError"
  | interrupted _ => "KeyboardInterrupt"
  | malformedJson => "JSONDecodeError"
  | undecodable => "UnicodeDecodeError"
  | noFile => "FileNotFoundError"
  | malformedYaml => "YAMLError"
  | noYamlSupport => "SyntaxError"
  | noComponent => "ModuleNotFoundError"

/-- Where kinds that are not built in are defined. -/
def home : Problem → String
  | invalidPath .. => "databricks.labs.nodetree.paths."
  | store .. | retriesExhausted .. => "databricks.labs.nodetree.store."
  | settings _ => "databricks.labs.nodetree.config."
  | service .general .. => "databricks.sdk.errors.base."
  | service .. => "databricks.sdk.errors.platform."
  | malformedJson => "json.decoder."
  | malformedYaml => "yaml.error."
  | _ => ""

end Problem

/-- The wording for arguments that make no sense. -/
def ArgumentFault.message : ArgumentFault → String
  | noContainers path => "container nodes are not supported: " ++ path
  | unknownMode word => word.literal ++ " is not a valid CreateMode"
  | directoryMode mode path =>
    "Workspace directories cannot be created as " ++ mode.name ++ ": " ++ path
  | directoryData path => "Workspace directories cannot hold data: " ++ path
  | directoryVersion path version =>
    "Workspace objects are not versioned, cannot delete " ++ path ++ " at version " ++
      toString version
  | unknownLevel name => "Unknown level: " ++ Quoted.literal name
  | tooManyDigits count =>
    "Exceeds the limit (4300 digits) for integer string conversion: value has " ++ toString count ++
      " digits; use sys.set_int_max_str_digits() to increase the limit"
  | overlongNumber =>
    "Exceeds the limit (4300 digits) for integer string conversion; use " ++
      "sys.set_int_max_str_digits() to increase the limit"
  | notInBase base text =>
    "invalid literal for int() with base " ++ toString base ++ ": " ++ Quoted.literal text
  | openPlaceholder => "incomplete format"
  | unknownPlaceholder kind position =>
    let shown := if 31 ≤ kind.toNat && kind.toNat ≤ 126 then kind else '?'
    "unsupported format character '" ++ String.singleton shown ++ "' (0x" ++
      String.ofList (Digits.hex .lower 1 kind.toNat) ++ ") at index " ++ toString position
  | undefinedNumber => "cannot convert float NaN to integer"
  | noCharacter => "chr() arg not in range(0x110000)"
  | other text => text

/-- The wording for numbers that do not fit. -/
def RangeFault.message : RangeFault → String
  | infiniteNumber => "cannot convert float infinity to integer"
  | characterNumber => "Python int too large to convert to C int"

/-- The wording for settings that cannot be used. -/
def SettingsFault.message : SettingsFault → String
  | stuckMigration file version => "cannot migrate " ++ file ++ " from v" ++ version.display
  | wrongVersion expected actual =>
    "expected state version=" ++ toString expected ++ ", got=" ++ actual.display
  | notObject file value => file ++ ": not a dict: " ++ value.display
  | wrongKind name kind value => name ++ ": not a " ++ kind ++ ": " ++ value.display
  | notPositive name value => name ++ ": must be positive: " ++ value.display

/-- The message of a problem. Some kinds have no wording of their own. -/
def Problem.message? : Problem → Option String
  | p@(store _ path text) => some (if text.isEmpty then p.kind ++ ": " ++ path else text)
  | invalidPath path fault => some ("Invalid path string " ++ path.literal ++ ": " ++ fault.reason)
  | retriesExhausted path attempts =>
    some (path ++ " still has children after " ++ toString attempts ++ " removal attempts")
  | service _ text _ => some text
  | argument fault => some fault.message
  | outOfRange fault => some fault.message
  | settings fault => some fault.message
  | missingKey key => some key
  | runtime text | system text | interrupted text => some text
  | noYamlSupport => some "PyYAML is not installed. Fix: pip install databricks-labs-nodetree[yaml]"
  | wrongType | noMember | malformedJson | undecodable | noFile | malformedYaml | noComponent =>
    none

/-- A problem on its way out. -/
structure Failure where
  /-- What went wrong. -/
  problem : Problem
  /-- Remarks picked up on the way, the earliest first. -/
  notes : List String := []
  /-- The problem that this one was raised from. -/
  source : Option Problem := none

/-- A problem that is just raised. -/
instance : Coe Problem Failure where
  coe p := { problem := p }

namespace Failure

/-- A context that cannot be written. -/
def overlong : Failure := (Problem.argument .overlongNumber : Problem)

/-- The failure as it leaves an operation with this context: one that has no notes yet gets a note
of the context, except for an interrupt. The note is written while the failure is on its way out; if
the context cannot be written, the failure to do so takes the place of the first one. -/
def leaving (f : Failure) (ctx : Context) : Failure :=
  if f.notes.isEmpty && !f.problem.isInterrupt then
    match ctx.note? with
    | some note => { f with notes := [note] }
    | none => overlong
  else f

variable {f : Failure} {ctx outer : Context}

/-- A failure with notes keeps them. -/
theorem leaving_of_notes (h : f.notes ≠ []) (ctx : Context) : f.leaving ctx = f := by
  have hn : f.notes.isEmpty = false := by simpa using h
  simp [leaving, hn]

/-- An interrupt passes unchanged. -/
theorem leaving_of_interrupt (h : f.problem.isInterrupt = true) (ctx : Context) :
    f.leaving ctx = f := by
  simp [leaving, h]

/-- A failure without notes gets one of a context that can be written. -/
theorem leaving_of_writable (h : f.notes = []) (hi : f.problem.isInterrupt = false)
    (hctx : ctx.isOverlong = false) :
    f.leaving ctx = { f with notes := ["Context: " ++ ctx.display] } := by
  simp [leaving, h, hi, Context.note?, hctx]

/-- A failure without notes is replaced where the context cannot be written. -/
theorem leaving_of_overlong (h : f.notes = []) (hi : f.problem.isInterrupt = false)
    (hctx : ctx.isOverlong = true) : f.leaving ctx = overlong := by
  simp [leaving, h, hi, Context.note?, hctx]

/-- Leaving an operation whose context can be written changes no more than the notes. -/
theorem leaving_problem (f : Failure) (h : ctx.isOverlong = false) :
    (f.leaving ctx).problem = f.problem ∧ (f.leaving ctx).source = f.source := by
  simp only [leaving, Context.note?, h]
  split <;> exact ⟨rfl, rfl⟩

/-- A failure either keeps its problem or is replaced, which takes a context that cannot be written.
-/
theorem leaving_problem_or (f : Failure) (ctx : Context) :
    (f.leaving ctx).problem = f.problem ∧ (f.leaving ctx).source = f.source ∨
      ctx.isOverlong = true ∧ f.leaving ctx = overlong := by
  cases h : ctx.isOverlong with
  | false => exact .inl (leaving_problem f h)
  | true =>
    unfold leaving
    rw [Context.note?, h]
    split
    · exact .inr ⟨rfl, rfl⟩
    · exact .inl ⟨rfl, rfl⟩

/-- Only the innermost of several operations decides what becomes of a failure, provided that the
outer ones cannot be written where it cannot be. -/
theorem leaving_leaving (f : Failure) (h : ctx.isOverlong = true → outer.isOverlong = true) :
    (f.leaving ctx).leaving outer = f.leaving ctx := by
  by_cases hn : f.notes = []
  · cases hi : f.problem.isInterrupt with
    | true => rw [leaving_of_interrupt hi, leaving_of_interrupt hi]
    | false =>
      cases hctx : ctx.isOverlong with
      | false =>
        rw [leaving_of_writable hn hi hctx]
        exact leaving_of_notes (by simp) outer
      | true =>
        rw [leaving_of_overlong hn hi hctx]
        exact leaving_of_overlong rfl rfl (h hctx)
  · rw [leaving_of_notes hn, leaving_of_notes hn]

end Failure

/-- A result whose problem, if it has one, is just raised. -/
def Failure.ofResult {α : Type} : Except Problem α → Except Failure α
  | .ok a => .ok a
  | .error problem => .error problem

/-- The mode that a value stands for, which has to be the word of a mode. -/
def CreateMode.ofValue (v : Value) : Except Problem CreateMode :=
  match v with
  | .str word => match ofWord? word with
    | some mode => .ok mode
    | none => .error (.argument (.unknownMode v))
  | _ => .error (.showing [v] (.argument (.unknownMode v)))

namespace Path

/-- Check a path given as any value. -/
def checked (path : Value) (isOpen : Bool) : Except Problem String :=
  match path with
  | .str p => match fault p isOpen with
    | none => .ok p
    | some fault => .error (.invalidPath path fault)
  | _ => .error (.showing [path] (.invalidPath path .notText))

/-- Check a path. -/
def validate (p : String) (isOpen : Bool) : Except Problem String := checked (.str p) isOpen

/-- The names along a path. -/
def split (path : Value) : Except Problem (List String) := segments <$> checked path false

/-- The last name of a path. -/
def node (path : Value) : Except Problem String := leaf <$> checked path false

/-- The path of the node above a path, and the last name of the path. -/
def parentAndNode (path : Value) : Except Problem (String × String) := do
  let p ← checked path false
  return (parent p, leaf p)

/-- Join values to one path: those that count as false are left out, and of the others each must be
a text. -/
def joinValues (vs : List Value) : Except Problem String := do
  let ps ← (vs.filter Value.truthy).mapM fun
    | .str s => .ok s
    | _ => .error .noMember
  return join ps

/-- A path with a namespace in front of it. The path must be valid in its own right; the namespace
is not checked, and none leaves the path as it is. -/
def inNamespace (nameSpace path : Value) (isOpen : Bool) : Except Problem String := do
  let p ← checked path isOpen
  match nameSpace with
  | .null => return p
  | _ => joinValues [nameSpace, .str p]

end Path

end TreeStore
