import TreeStore.Operation.Clear
import TreeStore.Operation.Ensure
import TreeStore.Operation.Listing

/-!
# Running operations

A client carries the requests of an operation to a store and the answers back. What it learnt about
containers it keeps: a store is asked once, and an answer that was a failure does not count.
-/

namespace TreeStore

/-- A recursive operation in some state. -/
inductive Operation where
  | ensure (state : Ensure)
  | clear (state : Clear)
  | listing (state : Listing)

namespace Operation

/-- What an operation does next. -/
def next : Operation → Next Operation
  | ensure state => state.next.map ensure
  | clear state => state.next.map clear
  | listing state => state.next.map listing

/-- The context that is active in some state of an operation that was begun in the given one. -/
def context (ambient : Context) : Operation → Context
  | ensure (.done _) | listing _ => ambient
  | ensure state => state.context
  | clear state => state.context

end Operation

/-- How operations reach a store. -/
structure Client (m : Type → Type) where
  /-- The name of the store's kind. -/
  className : m String
  /-- Carry out a call, made in a context. -/
  call : Context → Call → m Answer
  /-- The mode for containers that was learnt before. -/
  known : m (Option CreateMode)
  /-- Keep the mode for containers. -/
  learn : CreateMode → m Unit
  /-- Report a record. -/
  log : LogRecord → m Unit

namespace Client

variable {m : Type → Type} [Monad m]

/-- The mode in which containers are created in a store that gave this answer. -/
def modeOf (answer : Value) : CreateMode := if answer.truthy then .container else .persistent

/-- What is logged about a store that cannot create containers. -/
def fallbackMessage (className : String) : String :=
  className ++ " doesn't support container nodes, " ++ CreateMode.persistent.name ++
    " will be used instead"

/-- The mode in which containers are created: the one learnt before, else the store is asked. -/
def containerMode (client : Client m) (context : Context) : m (Except Failure CreateMode) := do
  if let some mode ← client.known then return .ok mode
  match ← client.call context .capability with
  | .error failure => return .error failure
  | .ok answer =>
    let mode := modeOf answer
    if mode = .persistent then
      client.log ⟨.warning, .tree, fallbackMessage (← client.className), context⟩
    client.learn mode
    return .ok mode

/-- Let an operation make its next request. The result is its outcome if it is done already, else
the operation as it goes on. -/
def step (client : Client m) (ambient : Context) (operation : Operation) :
    m (Answer ⊕ Operation) := do
  let context := operation.context ambient
  match operation.next with
  | .finished outcome => return .inl outcome
  | .calling call resume =>
    let (records, rest) := resume (← client.call context call)
    records.forM client.log
    return .inr rest
  | .choosing resume =>
    let (records, rest) := resume (← client.containerMode context)
    records.forM client.log
    return .inr rest

/-- Run an operation until it is done, for at most the given number of steps. -/
def run (client : Client m) (ambient : Context) : Nat → Operation → m (Option Answer)
  | 0, _ => return none
  | budget + 1, operation => do
    match ← client.step ambient operation with
    | .inl outcome => return some outcome
    | .inr rest => client.run ambient budget rest

/-- What a client with a state does to it when it reports records, given what it does for one. -/
theorem run_forM_log {σ : Type} {client : Client (StateM σ)} {report : σ → List LogRecord → σ}
    (hlog : ∀ s record, (client.log record).run s = ((), report s [record]))
    (hnil : ∀ s, report s [] = s)
    (hcons : ∀ s record records, report s (record :: records) = report (report s [record]) records)
    (records : List LogRecord) (s : σ) :
    (records.forM client.log).run s = ((), report s records) := by
  induction records generalizing s with
  | nil =>
    rw [hnil]
    rfl
  | cons record records ih =>
    rw [List.forM_eq_forM, List.forM_cons, StateT.run_bind, hlog, hcons s record records]
    exact ih (report s [record])

end Client

end TreeStore
