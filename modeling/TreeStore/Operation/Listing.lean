import TreeStore.Operation.Step

/-!
# Ordered listing

The names of a node's children in order. Names of sequential nodes sort by their counter because the
counter has a fixed width.
-/

namespace TreeStore

/-- The states of an ordered listing. -/
inductive Listing where
  /-- Listing the children of a node. -/
  | waiting (path : String)
  /-- Done. -/
  | done (outcome : Answer)

namespace Listing

/-- The listing before its request. -/
def start (path : String) : Listing :=
  match Path.validate path false with
  | .error problem => done (.error problem)
  | .ok p => waiting p

/-- The members of an answer in order; an answer without members or order is of the wrong type. -/
def ordered (answer : Value) : Answer :=
  match answer.members?.bind Value.sort? with
  | none => .error (Problem.wrongType : Problem)
  | some names => .ok (.list names)

/-- What the listing does next. -/
def next : Listing → Next Listing
  | waiting path => .calling (.children path) fun answer => ([], done (answer.bind ordered))
  | done outcome => .finished outcome

end Listing

end TreeStore
