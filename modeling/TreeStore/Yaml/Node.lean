import TreeStore.Yaml.Scalar
import TreeStore.Yaml.Token

/-!
# Nodes of YAML

A document is a tree of scalars, sequences and mappings. Tokens are read into nodes first, and only
the nodes of a whole document are given values; so a text that is no YAML is reported before a
scalar that has no value.
-/

namespace TreeStore.Yaml

/-- A part of a document. -/
inductive Node
  | scalar (plain : Bool) (text : String)
  | sequence (members : List Node)
  | mapping (entries : List (Node × Node))
  deriving Inhabited, Repr

namespace Node

/-- The node that stands where nothing is written. -/
def empty : Node := .scalar true ""

/-- Where a node is written. -/
inductive Place
  /-- Inside of a flow collection. -/
  | flow
  /-- In a document or behind a hyphen. -/
  | block
  /-- In a block mapping, where the hyphens of a sequence need not be set in. -/
  | field
  deriving DecidableEq, Repr

/-- Whether one of some tokens comes next. -/
def isNext (among : List Token) (ts : List Token) : Bool := ts.head?.any among.contains

/-- The tokens that end an entry of a block sequence. -/
def itemEnds : List Token := [.blockEntry, .blockEnd]

/-- The tokens that end a field of a block mapping. -/
def fieldEnds : List Token := [.key, .blockEnd]

/-- Read something at the start of some tokens; the rest follows it. -/
abbrev Reading (α : Type) := List Token → Except Problem (α × List Token)

/-- A node, or the empty one if a token comes next that ends it. -/
def orEmpty (ends : List Token) (node : Reading Node) : Reading Node := fun ts =>
  if isNext ends ts then .ok (empty, ts) else node ts

/-- A key and its value, behind the token for a key. -/
def pair (ends : List Token) (node : Reading Node) : Reading (Node × Node) := fun ts => do
  let (key, rest) ← orEmpty (.value :: ends) node ts
  match rest with
  | .value :: rest =>
    let (value, rest) ← orEmpty (.value :: ends) node rest
    return ((key, value), rest)
  | rest => return ((key, empty), rest)

mutual

/-- A node at the start. The depth bounds the recursion; twice the number of tokens is always
enough. -/
def read (place : Place) : Nat → Reading Node
  | 0, _ => malformed
  | depth + 1, ts => match ts with
    | .scalar plain text :: rest => .ok (.scalar plain text, rest)
    | .flowSequenceStart :: .flowSequenceEnd :: rest => .ok (.sequence [], rest)
    | .flowSequenceStart :: rest =>
      (flowItems depth rest).map fun (ns, rest) => (.sequence ns, rest)
    | .flowMappingStart :: .flowMappingEnd :: rest => .ok (.mapping [], rest)
    | .flowMappingStart :: rest =>
      (flowFields depth rest).map fun (es, rest) => (.mapping es, rest)
    | .blockSequenceStart :: rest =>
      if place = .flow then malformed
      else do
        let (ns, rest) ← items itemEnds depth rest
        match rest with
        | .blockEnd :: rest => return (.sequence ns, rest)
        | _ => malformed
    | .blockMappingStart :: rest =>
      if place = .flow then malformed
      else (fields depth rest).map fun (es, rest) => (.mapping es, rest)
    | .blockEntry :: _ =>
      if place = .field then
        (items (.key :: .value :: itemEnds) depth ts).map fun (ns, rest) => (.sequence ns, rest)
      else malformed
    | _ => malformed

/-- The entries of a block sequence, as long as there is a hyphen. -/
def items (ends : List Token) : Nat → Reading (List Node)
  | 0, _ => malformed
  | depth + 1, ts => match ts with
    | .blockEntry :: rest => do
      let (n, rest) ← orEmpty ends (fun ts => read .block depth ts) rest
      let (ns, rest) ← items ends depth rest
      return (n :: ns, rest)
    | rest => .ok ([], rest)

/-- The fields of a block mapping and its end. -/
def fields : Nat → Reading (List (Node × Node))
  | 0, _ => malformed
  | depth + 1, ts => match ts with
    | .key :: rest => do
      let (e, rest) ← pair fieldEnds (fun ts => read .field depth ts) rest
      let (es, rest) ← fields depth rest
      return (e :: es, rest)
    | .blockEnd :: rest => .ok ([], rest)
    | _ => malformed

/-- The entries of a flow sequence from one on, and its end. A key makes an entry a mapping of its
own. -/
def flowItems : Nat → Reading (List Node)
  | 0, _ => malformed
  | depth + 1, ts => do
    let node (ts : List Token) : Except Problem (Node × List Token) := read .flow depth ts
    let (n, rest) ← match ts with
      | .key :: rest => (pair [.flowEntry, .flowSequenceEnd] node rest).map fun (e, rest) =>
        (Node.mapping [e], rest)
      | _ => node ts
    match rest with
    | .flowSequenceEnd :: rest | .flowEntry :: .flowSequenceEnd :: rest => return ([n], rest)
    | .flowEntry :: rest =>
      let (ns, rest) ← flowItems depth rest
      return (n :: ns, rest)
    | _ => malformed

/-- The fields of a flow mapping from one on, and its end. A node without a value is a key too. -/
def flowFields : Nat → Reading (List (Node × Node))
  | 0, _ => malformed
  | depth + 1, ts => do
    let node (ts : List Token) : Except Problem (Node × List Token) := read .flow depth ts
    let (e, rest) ← match ts with
      | .key :: rest => pair [.flowEntry, .flowMappingEnd] node rest
      | _ => (node ts).map fun (n, rest) => ((n, empty), rest)
    match rest with
    | .flowMappingEnd :: rest | .flowEntry :: .flowMappingEnd :: rest => return ([e], rest)
    | .flowEntry :: rest =>
      let (es, rest) ← flowFields depth rest
      return (e :: es, rest)
    | _ => malformed

end

/-- The node of the only document in some tokens, none if there is no document. -/
def ofTokens? (ts : List Token) : Except Problem (Option Node) :=
  let depth := 2 * ts.length + 2
  let document : Except Problem (Node × List Token) := match ts with
    | .documentStart :: rest =>
      if rest.isEmpty then .ok (empty, [])
      else orEmpty [.documentStart, .documentEnd] (read .block depth) rest
    | _ => read .block depth ts
  if ts.isEmpty then .ok none
  else do
    let (n, rest) ← document
    if rest.all (· = .documentEnd) then return some n else malformed

/-- Whether a node is the key for fields that come from other mappings. -/
def isMerge : Node → Bool
  | .scalar true text => plainKind text.toList = .merge
  | _ => false

/-- Fields of a mapping: those taken over from other mappings, and its own. -/
structure Merged where
  /-- The fields taken over. -/
  taken : List (Value × Value)
  /-- The mapping's own fields. -/
  own : List (Value × Value)

/-- All fields; those taken over come first, so that the mapping's own ones win. -/
def Merged.all (m : Merged) : List (Value × Value) := m.taken ++ m.own

/-- The value of a scalar as a key, where the sign of a default stands for itself. -/
def keyValue (plain : Bool) (text : String) : Except Problem Value :=
  if plain && plainKind text.toList ≠ .default then plainValue text else .ok (.str text)

mutual

/-- The value that a node stands for. -/
def value : Node → Except Problem Value
  | .scalar true text => plainValue text
  | .scalar false text => .ok (.str text)
  | .sequence ns => (values ns).map .list
  | .mapping es => (merged es).map fun m => .object (Fields.ofPairs m.all)

/-- The values of the members of a sequence. -/
def values : List Node → Except Problem (List Value)
  | [] => .ok []
  | n :: ns => do return (← value n) :: (← values ns)

/-- The fields of a mapping. -/
def merged : List (Node × Node) → Except Problem Merged
  | [] => .ok ⟨[], []⟩
  | (k, v) :: rest =>
    if isMerge k then do
      let taken ← source v
      let m ← merged rest
      return { m with taken := taken ++ m.taken }
    else match k with
      | .scalar plain text => do
        let key ← keyValue plain text
        let v ← value v
        let m ← merged rest
        return { m with own := (key, v) :: m.own }
      | _ => malformed

/-- The fields that a mapping takes over from a node: those of a mapping, or those of several
mappings, of which the first ones win. -/
def source : Node → Except Problem (List (Value × Value))
  | .scalar _ _ => malformed
  | .sequence ns => sources ns
  | .mapping es => (merged es).map Merged.all

/-- The fields of several mappings, the last mapping first. -/
def sources : List Node → Except Problem (List (Value × Value))
  | [] => .ok []
  | n :: ns => match n with
    | .mapping es => do
      let m ← merged es
      return (← sources ns) ++ m.all
    | _ => malformed

end

end Node

end TreeStore.Yaml
