import TreeStore.Json.Reader
import TreeStore.Json.Writer
import TreeStore.Settings.Stored

/-!
# Settings in files

The extension of a file's name tells whether it holds JSON or YAML. A file is opened before its
extension is looked at, so that a missing file is reported first. JSON is read and written here;
YAML takes a component that may not be there.
-/

namespace TreeStore.Settings

/-- The formats that settings are stored in. -/
inductive Format
  | json
  | yaml
  deriving DecidableEq, Repr

/-- A component that reads and writes YAML. -/
structure Codec where
  /-- The value that a document holds. -/
  read : Encoding.Bytes → Except Problem Value
  /-- The document that holds some fields. -/
  write : Fields → Except Problem String

/-- What follows the last dot of a file's name, or all of it. -/
def extension (file : String) : String :=
  String.ofList (file.toList.reverse.takeWhile (· ≠ '.')).reverse

/-- The format of a file. -/
def format? (file : String) : Except Problem Format :=
  match extension file with
  | "json" => .ok .json
  | "yml" => .ok .yaml
  | other => .error (.missingKey ("Unknown extension: " ++ other))

/-- The report that YAML is not supported. -/
def noYaml : Failure := { problem := .noYamlSupport, source := some .noComponent }

/-- The value that a file holds; no content stands for a missing file. -/
def readFile (yaml : Option Codec) (file : String) (content : Option Encoding.Bytes) :
    Except Failure Value :=
  match content with
  | none => .error (Problem.noFile : Problem)
  | some bytes => match format? file with
    | .error problem => .error problem
    | .ok .json => Failure.ofResult (Json.readBytes bytes)
    | .ok .yaml => match yaml with
      | none => .error noYaml
      | some codec => Failure.ofResult (codec.read bytes)

/-- Settings from a file, with the log records that come with them. -/
def load (schema : Schema) (yaml : Option Codec) (context : Context) (file : String)
    (content : Option Encoding.Bytes) : List LogRecord × Except Failure Settings :=
  match readFile yaml file content with
  | .error failure => ([], .error failure)
  | .ok raw =>
    let (records, result) := ofValue schema context file raw
    (records, Failure.ofResult result)

/-- The JSON text of some fields, unless a number among them is too long to be written. -/
def writeJson (fields : Fields) : Except Problem String :=
  if (Value.object fields).isOverlong then .error (.argument .overlongNumber)
  else .ok (Json.indented (.object fields))

/-- The text that settings are stored as in a file. -/
def save (schema : Schema) (yaml : Option Codec) (file : String) (s : Settings) :
    Except Failure String :=
  match format? file with
  | .error problem => .error problem
  | .ok .json => Failure.ofResult (writeJson (s.stored schema.current))
  | .ok .yaml => match yaml with
    | none => .error noYaml
    | some codec => Failure.ofResult (codec.write (s.stored schema.current))

end TreeStore.Settings
