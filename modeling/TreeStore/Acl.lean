import TreeStore.Text.Digits

/-!
# Access control

Permissions are a set of bits, five of which have names. An access control list is attached to a
node when it is created; a policy chooses the list by path, and a provider is a policy given as a
table.
-/

namespace TreeStore

/-- A set of permissions, as the sum of its bits. -/
structure Perms where
  /-- The bits, named or not. -/
  bits : Nat
  deriving DecidableEq, Repr, Inhabited

namespace Perms

/-- The named permissions and the name of all of them together. -/
def names : List (Nat × String) :=
  [(1, "READ"), (2, "WRITE"), (4, "CREATE"), (8, "DELETE"), (16, "ADMIN"), (31, "ALL")]

/-- Every named permission. -/
def all : Perms := ⟨31⟩

/-- Reading only. -/
def read : Perms := ⟨1⟩

/-- The set for a number. A negative number is the complement of a set: it is counted from the least
power of two that is above the named bits and above its own absolute value's highest bit. -/
def ofInt : Int → Perms
  | .ofNat n => ⟨n⟩
  | .negSucc n =>
    let m := n + 1
    if m ≤ 32 then ⟨32 - m⟩ else ⟨Nat.pow 2 (m.log2 + 1) - m⟩

/-- The names whose bits are all set, in order of value, and the bits without a name. -/
def label (p : Perms) : String :=
  let named := p.bits % 32
  if p.bits = 31 then ".ALL"
  else if named = 0 then ""
  else
    let known := names.filter fun (bits, _) => named &&& bits = bits
    let rest := p.bits - named
    "." ++ "|".intercalate (known.map Prod.snd ++ if rest = 0 then [] else [toString rest])

/-- The text of a set in messages. -/
def literal (p : Perms) : String := "<Perms" ++ p.label ++ ": " ++ toString p.bits ++ ">"

example : (ofInt 5).literal = "<Perms.READ|CREATE: 5>" := by decide

example : (ofInt 33).literal = "<Perms.READ|32: 33>" ∧ (ofInt 32).literal = "<Perms: 32>" := by
  decide

end Perms

/-- One entry of an access control list. -/
structure Acl where
  /-- What is allowed. -/
  perms : Perms
  /-- How the identity is established. -/
  scheme : String
  /-- Whom the entry is about. -/
  id : String
  deriving DecidableEq, Repr, Inhabited

namespace Acl

/-- The text of an entry in messages. -/
def literal (a : Acl) : String := a.scheme ++ ":" ++ a.id ++ ":" ++ a.perms.literal

/-- Anyone may do anything. -/
def openToAll : List Acl := [⟨.all, "world", "anyone"⟩]

end Acl

/-- How access control lists are chosen on a caller's behalf. Either choice may defer. -/
structure AclPolicy where
  /-- The list for one path. -/
  forPath : String → Option (List Acl)
  /-- The list for the paths that have none of their own. -/
  fallback : Option (List Acl)

/-- The list for a node to be created: the policy's own for the path, else its default, else open.
An empty list counts as given. -/
def AclPolicy.resolve (policy : Option AclPolicy) (path : String) : List Acl :=
  match policy with
  | none => Acl.openToAll
  | some p => ((p.forPath path).or p.fallback).getD Acl.openToAll

/-- Chooses access control lists from a table of paths and a default. -/
structure AclProvider where
  /-- The list for paths that are not in the table, if any. -/
  fallback : Option (List Acl) := none
  /-- Lists for single paths; a later entry for a path wins, and none defers to the default. -/
  overrides : List (String × Option (List Acl)) := []
  deriving DecidableEq, Repr, Inhabited

namespace AclProvider

/-- The list that the table has for a path. -/
def override? (p : AclProvider) (path : String) : Option (List Acl) :=
  ((p.overrides.reverse.find? (·.1 == path)).bind Prod.snd)

/-- The choices of a table and its default. -/
def policy (p : AclProvider) : AclPolicy := ⟨p.override?, p.fallback⟩

end AclProvider

end TreeStore
