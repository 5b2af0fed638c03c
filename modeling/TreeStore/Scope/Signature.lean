import TreeStore.Failure

/-!
# Signatures

How the arguments of a call become named arguments. Positional arguments fill the parameters in
order and keywords fill the rest; a call that leaves a parameter without argument or default, or an
argument without parameter, does not match. The named arguments come in the order of the parameters.
-/

namespace TreeStore.Scope

/-- How a parameter takes arguments. -/
inductive ParameterKind
  /-- By position or by name. -/
  | ordinary
  /-- All positional arguments that are left. -/
  | rest
  /-- By name only. -/
  | named
  /-- All keywords that are left. -/
  | more
  deriving DecidableEq, Repr

/-- A parameter of a function. -/
structure Parameter where
  /-- Its name. -/
  name : String
  /-- How it takes arguments. -/
  kind : ParameterKind := .ordinary
  /-- Whether it has a default. -/
  optional : Bool := false
  /-- Whether its argument stays out of contexts. -/
  hidden : Bool := false
  deriving DecidableEq, Repr

/-- A function whose calls run inside of a context of their arguments. -/
structure Signature where
  /-- Pairs that the context has besides the arguments, which replace pairs of the same name. -/
  extras : List (String × Value) := []
  /-- The parameters. -/
  parameters : List Parameter

namespace Signature

/-- Whether a parameter stays out of contexts. -/
def hides (s : Signature) (name : String) : Bool :=
  s.parameters.any fun p => p.name == name && p.hidden

/-- The arguments as they fill the parameters; none if they do not match. -/
def fill : List Parameter → List Value → Context → Option (List (String × Value))
  | [], args, keywords => if args.isEmpty && keywords.isEmpty then some [] else none
  | p :: ps, args, keywords =>
    let byName := match keywords.get? p.name with
      | some v => (fill ps [] (keywords.filter (·.1 ≠ p.name))).map ((p.name, v) :: ·)
      | none => if p.optional then fill ps [] keywords else none
    match p.kind, args with
    | .ordinary, a :: args =>
      if (keywords.get? p.name).isSome then none
      else (fill ps args keywords).map ((p.name, a) :: ·)
    | .ordinary, [] | .named, [] => byName
    | .rest, [] => fill ps [] keywords
    | .rest, args => (fill ps [] keywords).map ((p.name, .tuple args) :: ·)
    | .more, [] =>
      (fill ps [] []).map fun bound =>
        if keywords.isEmpty then bound
        else (p.name, .object (keywords.map fun (k, v) => (.str k, v))) :: bound
    | .named, _ :: _ | .more, _ :: _ => none

/-- The named arguments of a call; none if it does not match. -/
def bind? (s : Signature) (args : List Value) (keywords : Context) :
    Option (List (String × Value)) :=
  fill s.parameters args keywords

/-- The pairs that a call adds to the context. With positional arguments the call has to match;
keywords alone are taken as they come. -/
def contextPairs? (s : Signature) (args : List Value) (keywords : Context) :
    Option (List (String × Value)) :=
  (if args.isEmpty then some keywords else s.bind? args keywords).map fun named =>
    s.extras ++ named.filter fun (name, _) => !s.hides name

end Signature

end TreeStore.Scope
