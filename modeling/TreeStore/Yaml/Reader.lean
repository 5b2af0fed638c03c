import TreeStore.Yaml.Node

/-!
# Reading YAML

Reads the value of the one document in a file. A file without any document holds nothing.
-/

namespace TreeStore.Yaml

/-- The text that bytes stand for: a byte order mark of sixteen bits gives the encoding, else it is
UTF-8. -/
def decode? : Encoding.Bytes → Option (List Char)
  | bytes@(0xFF :: 0xFE :: _) => Encoding.decodeUtf16? none .little bytes
  | bytes@(0xFE :: 0xFF :: _) => Encoding.decodeUtf16? none .big bytes
  | bytes => Encoding.decodeUtf8? none bytes

/-- The value that a text stands for. -/
def read (cs : List Char) : Except Problem Value := do
  match ← Node.ofTokens? (← tokens cs) with
  | some n => n.value
  | none => return .null

/-- The value that the bytes of a file stand for. -/
def readBytes (bytes : Encoding.Bytes) : Except Problem Value :=
  match decode? bytes with
  | some cs => read cs
  | none => malformed

end TreeStore.Yaml
