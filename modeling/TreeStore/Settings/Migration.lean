import TreeStore.Settings.Basic

/-!
# Versions of stored settings

Stored settings carry a version. Older ones are brought up to date by migrations, each of which
starts from one version, renames fields and sets the next version. A migration that leaves the
version as it is would run for ever and is refused; that versions go round in a circle is not
noticed.
-/

namespace TreeStore

/-- A step from one version to another. -/
structure Migration where
  /-- The version that the step starts from, as text. -/
  source : String
  /-- Old and new names of fields, in the order in which they are renamed. -/
  renames : List (String × String) := []
  /-- The version after the step, if it sets one. -/
  target : Option Value := none

namespace Migration

/-- Move the value of a field to another name, if the field is there. -/
def rename (raw : Fields) (old new : String) : Fields :=
  match raw.get? (.str old) with
  | some value => (Fields.remove (.str old) raw).put (.str new) value
  | none => raw

/-- The field that holds the version. -/
def versionKey : Value := .str "version"

/-- Carry out a step. -/
def apply (step : Migration) (raw : Fields) : Fields :=
  let renamed := step.renames.foldl (fun raw (old, new) => rename raw old new) raw
  match step.target with
  | some version => renamed.put versionKey version
  | none => renamed

/-- The version of stored settings, which is the first one if they do not tell, and their other
fields. -/
def takeVersion (raw : Fields) : Value × Fields :=
  ((raw.get? versionKey).getD (.int 1), Fields.remove versionKey raw)

/-- From the first version to the second: a field got a longer name. -/
def first : Migration :=
  { source := "1", renames := [("containers", "use_containers")], target := some (.int 2) }

end Migration

/-- A current version and the steps that lead towards it. -/
structure Schema where
  /-- The current version. -/
  current : Int := 2
  /-- The steps; a later one replaces an earlier one from the same version. -/
  migrations : List Migration := [.first]

namespace Schema

/-- The step from a version. -/
def step? (schema : Schema) (version : Value) : Option Migration :=
  schema.migrations.reverse.find? (·.source == version.display)

/-- Whether a version is below the current one; none if it cannot be compared. -/
def isOlder? (schema : Schema) (version : Value) : Option Bool :=
  version.before? (.int schema.current)

/-- Accept the fields of settings that need no further step if their version is the current one. -/
def accept (schema : Schema) (version : Value) (raw : Fields) : Except Problem Fields :=
  if version.same (.int schema.current) then .ok raw
  else .error (.ofSettings (.wrongVersion schema.current version))

/-- Where a migration stands. -/
inductive Progress where
  /-- It is over. -/
  | settled (result : Except Problem Fields)
  /-- It goes on from this version with these fields. -/
  | onwards (version : Value) (raw : Fields)

/-- One round: a step from the version if it is old and there is one. -/
def advance (schema : Schema) (file : String) (version : Value) (raw : Fields) : Progress :=
  match schema.isOlder? version with
  | none => .settled (.error .wrongType)
  | some false => .settled (schema.accept version raw)
  | some true =>
    -- A step is found by the text of the version.
    if version.isOverlong then .settled (.error (.argument .overlongNumber))
    else match schema.step? version with
    | none => .settled (schema.accept version raw)
    | some step =>
      let (next, rest) := Migration.takeVersion (step.apply raw)
      if next.same version then .settled (.error (.ofSettings (.stuckMigration file version)))
      else .onwards next rest

/-- At most the given number of rounds; none if more are needed. -/
def rounds (schema : Schema) (file : String) : Nat → Value → Fields → Option (Except Problem Fields)
  | 0, _, _ => none
  | count + 1, version, raw =>
    match schema.advance file version raw with
    | .settled result => some result
    | .onwards next rest => schema.rounds file count next rest

/-- How many names of fields there can be: those that are there and those that steps rename. -/
def nameCount (schema : Schema) (raw : Fields) : Nat :=
  schema.migrations.foldl (fun count step => count + 2 * step.renames.length) raw.length

/-- A number of rounds after which a migration goes round in a circle. Unless a field becomes the
version, the steps repeat as soon as each of them was taken, and then each field comes back to one
of its names. -/
def enough (schema : Schema) (raw : Fields) : Nat :=
  (raw.length + 1) * (schema.migrations.length + 1) * (schema.nameCount raw + 2)

/-- The fields of stored settings, brought up to the current version and without it; none for a
migration without end. -/
def migrate? (schema : Schema) (file : String) (raw : Fields) : Option (Except Problem Fields) :=
  let (version, rest) := Migration.takeVersion raw
  schema.rounds file (schema.enough raw) version rest

end Schema

end TreeStore
