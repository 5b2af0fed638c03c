import TreeStore.Proofs.Concurrency.System
import TreeStore.Proofs.Operation.Dialogue
import Mathlib.Logic.Function.Basic

/-!
# Operations on many stores

Operations run side by side on any number of stores, each on one of them, and clients ask in which
mode a store creates containers. What was learnt about one store is kept for all who use it. A store
is one in memory, or it may answer whatever it likes. All calls are on record, with their answers
and with the operations that made them.
-/

namespace TreeStore

/-- A store as those find it who call it. -/
inductive Host where
  /-- A store in memory. -/
  | memory (m : Memory)
  /-- Another store, and what passed between it and those who called it. -/
  | remote (store : Respondent) (heard : List Exchange)

namespace Host

/-- The name of the store's kind. -/
def className : Host → String
  | memory _ => Memory.className
  | remote store _ => store.className

/-- Answer a call. A store in memory lists children in the given order. -/
def serve (order : Concurrency.Arrangement) : Host → Call → Host × Answer
  | memory m, call =>
    let served := m.serve order.apply call
    (memory served.1, served.2)
  | remote store heard, call =>
    let answer := store.answer heard call
    (remote store (heard ++ [⟨call, answer⟩]), answer)

/-- The store after a request of another client. What others do to a store that is not in memory
shows in its answers only. -/
def after : Host → Memory.Request → Host
  | memory m, request => memory (m.after request)
  | remote store heard, _ => remote store heard

@[simp] theorem className_serve (host : Host) (order : Concurrency.Arrangement) (call : Call) :
    (host.serve order call).1.className = host.className := by
  cases host <;> rfl

@[simp] theorem className_after (host : Host) (request : Memory.Request) :
    (host.after request).className = host.className := by
  cases host <;> rfl

end Host

namespace Fleet

open Concurrency (Arrangement)

/-- A call that was answered. -/
structure Visit (ι : Type) where
  /-- The store. -/
  store : ι
  /-- The number of the operation that made the call, none if it was made to answer a question. -/
  operation : Option Nat
  /-- The call. -/
  call : Call
  /-- The answer. -/
  answer : Answer

/-- What operations on many stores share. -/
structure Shared (ι : Type) where
  /-- The stores. -/
  hosts : ι → Host
  /-- The modes for containers that were learnt. -/
  known : ι → Option CreateMode := fun _ => none
  /-- The calls, the earliest first. -/
  visits : List (Visit ι) := []
  /-- The records that were reported, each with the store that it was about. -/
  records : List (ι × LogRecord) := []

variable {ι : Type} [DecidableEq ι]

namespace Shared

/-- A store answers a call. -/
def visit (s : Shared ι) (store : ι) (operation : Option Nat) (order : Arrangement) (call : Call) :
    Shared ι × Answer :=
  let served := (s.hosts store).serve order call
  ({ s with
      hosts := Function.update s.hosts store served.1
      visits := s.visits ++ [⟨store, operation, call, served.2⟩] }, served.2)

/-- Records are reported. -/
def report (s : Shared ι) (store : ι) (records : List LogRecord) : Shared ι :=
  { s with records := s.records ++ records.map fun record => (store, record) }

/-- The mode for containers is learnt. -/
def learn (s : Shared ι) (store : ι) (mode : CreateMode) : Shared ι :=
  { s with known := Function.update s.known store (some mode) }

omit [DecidableEq ι] in
/-- Nothing reported changes nothing. -/
theorem report_nil (s : Shared ι) (store : ι) : s.report store [] = s := by
  simp [report]

omit [DecidableEq ι] in
/-- Reports may be made one by one. -/
theorem report_cons (s : Shared ι) (store : ι) (record : LogRecord) (records : List LogRecord) :
    s.report store (record :: records) = (s.report store [record]).report store records := by
  simp [report]

end Shared

/-- How someone reaches a store. -/
def client (store : ι) (operation : Option Nat) (order : Arrangement) :
    Client (StateM (Shared ι)) where
  className := return ((← get).hosts store).className
  call _ call := do
    let (after, answer) := (← get).visit store operation order call
    set after
    return answer
  known := return (← get).known store
  learn mode := modify fun s => s.learn store mode
  log record := modify fun s => s.report store [record]

/-- The warning about a store that cannot create containers. -/
def fallback (className : String) (context : Context) : LogRecord :=
  ⟨.warning, .tree, Client.fallbackMessage className, context⟩

/-- The mode for containers, and what is shared afterwards: a mode that is not known is asked for,
and it is learnt unless the answer was a failure. -/
def Shared.choose (s : Shared ι) (store : ι) (operation : Option Nat) (order : Arrangement)
    (context : Context) : Except Failure CreateMode × Shared ι :=
  match s.known store with
  | some mode => (.ok mode, s)
  | none =>
    let asked := s.visit store operation order .capability
    match asked.2 with
    | .error failure => (.error failure, asked.1)
    | .ok value =>
      let mode := Client.modeOf value
      let warnings := if mode = .persistent then
        [fallback (asked.1.hosts store).className context] else []
      (.ok mode, (asked.1.report store warnings).learn store mode)

/-- The mode for containers is known, or the store is asked: if the answer is a failure that is all,
and else the mode that it stands for is learnt. -/
theorem Shared.choose_cases {s shared : Shared ι} {store : ι} {operation : Option Nat}
    {order : Arrangement} {context : Context} {reply : Except Failure CreateMode}
    (h : s.choose store operation order context = (reply, shared)) :
    (∃ mode, s.known store = some mode ∧ reply = .ok mode ∧ shared = s) ∨
    (∃ failure, s.known store = none ∧ reply = .error failure ∧
      s.visit store operation order .capability = (shared, .error failure)) ∨
    ∃ asked value, s.known store = none ∧ reply = .ok (Client.modeOf value) ∧
      s.visit store operation order .capability = (asked, .ok value) ∧
      shared = (asked.report store (if Client.modeOf value = .persistent then
        [fallback (asked.hosts store).className context] else [])).learn store
          (Client.modeOf value) := by
  rw [choose] at h
  split at h
  · rename_i mode hk
    cases h
    exact .inl ⟨mode, hk, rfl, rfl⟩
  · rename_i hk
    dsimp only at h
    split at h
    · rename_i failure ha
      cases h
      exact .inr (.inl ⟨failure, hk, rfl, Prod.ext rfl ha⟩)
    · rename_i value ha
      cases h
      exact .inr (.inr ⟨_, value, hk, rfl, Prod.ext rfl ha, rfl⟩)

private theorem run_call (store : ι) (operation : Option Nat) (order : Arrangement)
    (context : Context) (call : Call) (s : Shared ι) :
    ((client store operation order).call context call).run s =
      ((s.visit store operation order call).2, (s.visit store operation order call).1) := rfl

/-- The reports of an operation are kept with its store. -/
private theorem run_report (store : ι) (operation : Option Nat) (order : Arrangement)
    (records : List LogRecord) (s : Shared ι) :
    (records.forM (client store operation order).log).run s = ((), s.report store records) :=
  Client.run_forM_log (fun _ _ => rfl) (Shared.report_nil · store) (Shared.report_cons · store)
    records s

/-- The choice of a mode goes by what all operations share. -/
theorem run_containerMode (store : ι) (operation : Option Nat) (order : Arrangement)
    (context : Context) (s : Shared ι) :
    ((client store operation order).containerMode context).run s =
      s.choose store operation order context := by
  rw [Client.containerMode]
  cases hk : s.known store with
  | some mode =>
    simp only [Shared.choose, hk]
    -- The right side is made a result in the monad, as `simp` leaves the left one.
    change _ = (pure _ : Id _)
    simp [client, hk]
  | none =>
    simp only [Shared.choose, hk]
    change _ = (pure _ : Id _)
    cases hv : (s.visit store operation order .capability).2 with
    | error failure => simp [client, hk, hv]
    | ok value =>
      by_cases hm : Client.modeOf value = .persistent
      · simp [client, hk, hv, hm, fallback]
      · simp [client, hk, hv, hm, Shared.report_nil]

end Fleet

open Concurrency (Arrangement)

/-- Operations on many stores. -/
structure Fleet (ι : Type) where
  /-- What they share. -/
  shared : Fleet.Shared ι
  /-- The operations, each with its store. -/
  operations : List (ι × Operation)
  /-- The answers that were given on how a store creates containers, each with the store. -/
  replies : List (ι × Except Failure CreateMode) := []

namespace Fleet

/-- What may happen next to operations on many stores. -/
inductive Move (ι : Type) where
  /-- Someone asks in which mode a store creates containers, from which it can be told whether it
  creates any. -/
  | question (store : ι) (context : Context)
  /-- An operation takes a step, during which children are listed in the given order. -/
  | turn (operation : Nat) (order : Arrangement)
  /-- Another client of a store sends a request. -/
  | foreign (store : ι) (request : Memory.Request)

variable {ι : Type} [DecidableEq ι]

/-- The operations before their first steps, with nothing known about the stores. -/
def start (hosts : ι → Host) (operations : List (ι × Operation)) : Fleet ι where
  shared := { hosts }
  operations

/-- Make a move. -/
def step (s : Fleet ι) : Move ι → Fleet ι
  | .question store context =>
    let (reply, shared) :=
      ((client store none ⟨id, fun _ => .refl _⟩).containerMode context).run s.shared
    { s with shared, replies := s.replies ++ [(store, reply)] }
  | .turn number order =>
    match s.operations[number]? with
    | none => s
    | some (store, operation) =>
      match ((client store (some number) order).step [] operation).run s.shared with
      | (.inl _, _) => s
      | (.inr rest, shared) =>
        { s with shared, operations := s.operations.set number (store, rest) }
  | .foreign store request =>
    { s with shared := { s.shared with
        hosts := Function.update s.shared.hosts store ((s.shared.hosts store).after request) } }

/-- Make moves one after the other. -/
def run (s : Fleet ι) (moves : List (Move ι)) : Fleet ι := moves.foldl step s

variable {s : Fleet ι}

/-- What holds at first and after each move holds after any moves. -/
theorem run_induction {motive : Fleet ι → Prop} (hs : motive s)
    (hstep : ∀ s move, motive s → motive (s.step move)) (moves : List (Move ι)) :
    motive (s.run moves) := by
  induction moves generalizing s with
  | nil => exact hs
  | cons move rest ih => exact ih (hstep s move hs)

/-- What a move does: nothing, a request of another client, an answer to a question, a call by an
operation, or a choice of the mode for containers by an operation. -/
inductive Stepped (s : Fleet ι) : Fleet ι → Prop
  | idle : Stepped s s
  | foreign (store : ι) (request : Memory.Request) :
      Stepped s { s with shared := { s.shared with
        hosts := Function.update s.shared.hosts store ((s.shared.hosts store).after request) } }
  | question (store : ι) (order : Arrangement) (context : Context)
      (reply : Except Failure CreateMode) (shared : Shared ι)
      (chosen : s.shared.choose store none order context = (reply, shared)) :
      Stepped s { s with shared, replies := s.replies ++ [(store, reply)] }
  | calling (number : Nat) (store : ι) (operation : Operation) (order : Arrangement) (call : Call)
      (resume : Answer → List LogRecord × Operation) (answer : Answer) (shared : Shared ι)
      (running : s.operations[number]? = some (store, operation))
      (next : operation.next = .calling call resume)
      (visited : s.shared.visit store (some number) order call = (shared, answer)) :
      Stepped s { s with
        shared := shared.report store (resume answer).1
        operations := s.operations.set number (store, (resume answer).2) }
  | choosing (number : Nat) (store : ι) (operation : Operation) (order : Arrangement)
      (context : Context) (resume : Except Failure CreateMode → List LogRecord × Operation)
      (reply : Except Failure CreateMode) (shared : Shared ι)
      (running : s.operations[number]? = some (store, operation))
      (next : operation.next = .choosing resume)
      (chosen : s.shared.choose store (some number) order context = (reply, shared)) :
      Stepped s { s with
        shared := shared.report store (resume reply).1
        operations := s.operations.set number (store, (resume reply).2) }

/-- The moves are as listed. -/
theorem stepped (s : Fleet ι) (move : Move ι) : Stepped s (s.step move) := by
  cases move with
  | foreign store request => exact .foreign store request
  | question store context =>
    simp only [step, run_containerMode]
    exact .question store _ context _ _ rfl
  | turn number order =>
    cases ho : s.operations[number]? with
    | none =>
      simp only [step, ho]
      exact .idle
    | some running =>
      obtain ⟨store, operation⟩ := running
      simp only [step, ho]
      rw [Client.step]
      cases hn : operation.next with
      | finished outcome => exact .idle
      | calling call resume =>
        simp only [StateT.run_bind, run_call, run_report, StateT.run_pure]
        exact .calling number store operation order call resume _ _ ho hn rfl
      | choosing resume =>
        simp only [StateT.run_bind, run_containerMode, run_report, StateT.run_pure]
        exact .choosing number store operation order _ resume _ _ ho hn rfl

end Fleet

end TreeStore
