import TreeStore.Settings.Migration
import TreeStore.Sorting

/-!
# Settings from stored values

Brings a stored value up to date and checks it. The first setting of a wrong kind, in the order of
the settings, is reported; fields that are no settings are ignored with a warning.
-/

namespace TreeStore.Settings

/-- The file that is named if none is given. -/
def defaultFile : String := "config.yml"

/-- Settings and what was remarked about the fields that were ignored. -/
structure Loaded where
  /-- The settings. -/
  settings : Settings
  /-- The warning, if any field was ignored. -/
  warning : Option String := none

/-- Take one setting from the fields; one that is absent or nothing keeps its default. -/
def take (raw : Fields) (s : Settings) (name : String) : Except Problem Settings :=
  match raw.get? (.str name) with
  | none | some .null => .ok s
  | some value => do s.set name (← check name value)

/-- The keys that are no settings. -/
def unknownKeys (raw : Fields) : List Value :=
  (raw.map Prod.fst).filter fun
    | .str name => !names.contains name
    | _ => true

/-- A key that is a text. -/
def textKey : Value → Except Problem String
  | .str name => .ok name
  | _ => .error .wrongType

/-- What is remarked about unknown keys. They are listed in order, so that each has to be a text. -/
def unknownWarning (file : String) (keys : List Value) : Except Problem (Option String) :=
  if keys.isEmpty then .ok none
  else do
    let found ← keys.mapM textKey
    return some (file ++ ": ignoring unknown keys: " ++ ", ".intercalate (Sorting.sortTexts found))

/-- Settings from fields of the current version. -/
def ofFields (file : String) (raw : Fields) : Except Problem Loaded := do
  let settings ← names.foldlM (take raw) {}
  return { settings, warning := ← unknownWarning file (unknownKeys raw) }

/-- Settings from a stored value. None stands for a migration without end. -/
def ofValue? (schema : Schema) (file : String) (raw : Value) : Option (Except Problem Loaded) :=
  let file := if file.isEmpty then defaultFile else file
  match raw with
  | .object fields =>
    (schema.migrate? file fields).map fun migrated => do ofFields file (← migrated)
  | other => some (.error (.ofSettings (.notObject file other)))

/-- Settings from a stored value, with the log records that come with them. -/
def ofValue (schema : Schema) (context : Context) (file : String) (raw : Value) :
    List LogRecord × Except Problem Settings :=
  match ofValue? schema file raw with
  | none => ([], .error (.runtime "migration without end"))
  | some (.error problem) => ([], .error problem)
  | some (.ok loaded) =>
    (loaded.warning.toList.map fun message => ⟨.warning, .settings, message, context⟩,
      .ok loaded.settings)

end TreeStore.Settings
