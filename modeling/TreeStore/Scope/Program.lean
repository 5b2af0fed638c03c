import TreeStore.Scope.Signature

/-!
# Programs with contexts

Small programs that enter contexts, fail and recover. Whatever happens inside of a context, the one
before it is back afterwards, and a failure that leaves a context is annotated with it unless it has
notes already.
-/

namespace TreeStore.Scope

/-- A step of a program. -/
inductive Item where
  /-- Steps inside of a context. -/
  | within (pairs : List (String × Value)) (body : List Item)
  /-- Show the context. -/
  | observe
  /-- Add the context to a log record. -/
  | label
  /-- Steps whose failure is caught. -/
  | attempt (body : List Item)
  /-- Fail. -/
  | fail (failure : Failure)
  /-- Call a function, which carries out the steps and returns a value. -/
  | call (function : Signature) (args : List Value) (keywords : Context) (body : List Item)
    (returned : Value)

instance : Inhabited Item := ⟨.observe⟩

/-- What a program lets see. -/
inductive Event where
  /-- A context was entered. -/
  | entered (context : Context)
  /-- The context was shown. -/
  | observed (context : Context)
  /-- A log record got this label. -/
  | labelled (label : String)
  /-- The steps of an attempt were carried out. -/
  | succeeded
  /-- A failure was caught. -/
  | caught (failure : Failure)
  /-- A function returned a value. -/
  | returned (value : Value)

/-- What steps led to. -/
structure Outcome where
  /-- What they let see. -/
  events : List Event := []
  /-- How they failed, if they did. -/
  failure : Option Failure := none
  /-- The context that is active afterwards. -/
  active : Context

/-- A call whose arguments do not match. -/
def mismatch : Failure := (Problem.wrongType : Problem)

/-- Carry out steps inside of a context. It becomes active for them; a failure is annotated with
what is active when it leaves, and then the context from before is put back. -/
def inside (active : Context) (pairs : List (String × Value)) (steps : Context → Outcome) :
    Outcome :=
  let outcome := steps (active.extend pairs)
  { outcome with failure := outcome.failure.map (·.leaving outcome.active), active }

/-- Write the active context out, which fails if it cannot be written. -/
def written (active : Context) (event : Event) : Outcome :=
  if active.isOverlong then { failure := some .overlong, active } else { events := [event], active }

mutual

/-- Carry out one step. -/
def run (active : Context) : Item → Outcome
  | .within pairs body =>
    inside active pairs fun inner =>
      let outcome := runAll inner body
      { outcome with events := .entered inner :: outcome.events }
  | .observe => written active (.observed active)
  | .label => written active (.labelled active.label)
  | .attempt body =>
    let outcome := runAll active body
    let last := match outcome.failure with
      | none => .succeeded
      | some failure => .caught failure
    { outcome with events := outcome.events ++ [last], failure := none }
  | .fail failure => { failure := some failure, active }
  | .call function args keywords body value =>
    match function.contextPairs? args keywords with
    | none => { failure := some mismatch, active }
    | some pairs =>
      inside active pairs fun inner =>
        if (function.bind? args keywords).isNone then { failure := some mismatch, active := inner }
        else
          let outcome := runAll inner body
          match outcome.failure with
          | none => { outcome with events := outcome.events ++ [.returned value] }
          | some _ => outcome

/-- Carry out steps in order until one fails. -/
def runAll (active : Context) : List Item → Outcome
  | [] => { active }
  | item :: rest =>
    let outcome := run active item
    match outcome.failure with
    | none =>
      let more := runAll outcome.active rest
      { more with events := outcome.events ++ more.events }
    | some _ => outcome

end

/-- What a program lets see when it is run outside of any context and its failure is caught. -/
def events (program : List Item) : List Event := (run [] (.attempt program)).events

end TreeStore.Scope
