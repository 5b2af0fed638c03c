import TreeStore.Proofs.Store.Requests
import TreeStore.Tree
import Mathlib.Data.List.Forall2

/-!
# Operations side by side on one store

Any number of operations run against one store in memory, each of them in steps of one request, and
other clients send requests of their own in between. A list of moves says who acts when; what every
move keeps holds after every list of moves. All requests that were carried out are on record.
-/

namespace TreeStore

/-- How an operation ended, none while it is under way. -/
def Operation.outcome? (operation : Operation) : Option Answer :=
  match operation.next with
  | .finished outcome => some outcome
  | _ => none

/-- An operation with an outcome is finished. -/
theorem Operation.next_of_outcome? {operation : Operation} {outcome : Answer}
    (h : operation.outcome? = some outcome) : operation.next = .finished outcome := by
  rw [outcome?] at h
  split at h
  · rename_i hn
    rw [hn, Option.some.inj h]
  · cases h

namespace Concurrency

/-- An order in which the names of children are listed. -/
structure Arrangement where
  /-- The names, rearranged. -/
  apply : List String → List String
  /-- Nothing is lost or added. -/
  perm : ∀ names, (apply names).Perm names

/-- A request that was carried out. -/
structure Event where
  /-- The number of the operation that it belongs to, none for a request of another client. -/
  operation : Option Nat
  /-- The request. -/
  request : Memory.Request
  /-- The answer. -/
  answer : Answer

/-- The path of the node that a request added to the table. -/
def Event.created? (event : Event) : Option String :=
  match event.request, event.answer with
  | .call (.create ..), .ok (.str path) => some path
  | _, _ => none

/-- How often a node was added at a path. -/
def creations (history : List Event) (path : String) : Nat :=
  history.countP fun event => event.created? = some path

/-- How often another client added a direct child of a node. -/
def births (history : List Event) (path : String) : Nat :=
  history.countP fun event => decide (event.operation = none) &&
    (event.created?.any fun child => decide (Path.parent child = path))

/-- The creations of two stretches of a history add up. -/
theorem creations_append (earlier later : List Event) (path : String) :
    creations (earlier ++ later) path = creations earlier path + creations later path :=
  List.countP_append

/-- The births of two stretches of a history add up. -/
theorem births_append (earlier later : List Event) (path : String) :
    births (earlier ++ later) path = births earlier path + births later path :=
  List.countP_append

/-- What operations on one store share. -/
structure Shared where
  /-- The store. -/
  memory : Memory
  /-- The mode for containers that was learnt before. -/
  known : Option CreateMode := none
  /-- The requests that were carried out, the earliest first. -/
  history : List Event := []

/-- How the operation with a number reaches the store, which lists children in the given order. -/
def member (number : Nat) (order : Arrangement) : Client (StateM Shared) where
  className := return Memory.className
  call _ call := do
    let s ← get
    let (after, answer) := s.memory.serve order.apply call
    set { s with
      memory := after
      history := s.history ++ [Event.mk (some number) (.call call) answer] }
    return answer
  known := return (← get).known
  learn mode := modify fun s => { s with known := some mode }
  log _ := return ()

/-- Operations on one store. -/
structure System where
  /-- What they share. -/
  shared : Shared
  /-- The operations. -/
  operations : List Operation

/-- A step of one of the operations, during which children are listed in the given order. -/
structure Turn where
  /-- The number of the operation. -/
  operation : Nat
  /-- The order of children in a listing. -/
  order : Arrangement

/-- What may happen next to operations on one store. -/
inductive Move where
  /-- An operation takes a step. -/
  | turn (turn : Turn)
  /-- Another client sends a request. -/
  | foreign (request : Memory.Request)

/-- Whether a move is a step of the operation with a number. -/
def Move.isTurnOf (number : Nat) : Move → Bool
  | turn ⟨operation, _⟩ => operation = number
  | foreign _ => false

namespace System

/-- The operations before their first steps. The store may have been asked about containers before.
-/
def start (memory : Memory) (asked : Bool) (operations : List Operation) : System where
  shared :=
    { memory, known := if asked then some (Client.modeOf (.bool memory.containers)) else none }
  operations

/-- The store. -/
def memory (s : System) : Memory := s.shared.memory

/-- The requests that were carried out. -/
def history (s : System) : List Event := s.shared.history

/-- Make a move. -/
def step (s : System) : Move → System
  | .turn ⟨number, order⟩ =>
    match s.operations[number]? with
    | none => s
    | some operation =>
      match ((member number order).step [] operation).run s.shared with
      | (.inl _, _) => s
      | (.inr rest, shared) => ⟨shared, s.operations.set number rest⟩
  | .foreign request =>
    let (after, answer) := s.memory.handle request
    { s with shared := { s.shared with
        memory := after
        history := s.shared.history ++ [⟨none, request, answer⟩] } }

/-- Make moves one after the other. -/
def run (s : System) (moves : List Move) : System := moves.foldl step s

/-- Let the operations take turns, with no other client about. -/
def interleave (s : System) (turns : List Turn) : System := s.run (turns.map .turn)

/-- How the operation with a number ended, none while it is under way. -/
def outcome (s : System) (number : Nat) : Option Answer :=
  (s.operations[number]?).bind Operation.outcome?

variable {s : System} {number : Nat} {operation : Operation}

/-- A run goes on from where its beginning led to. -/
theorem run_append (s : System) (earlier later : List Move) :
    s.run (earlier ++ later) = (s.run earlier).run later := List.foldl_append

/-- The last move of a run comes after all others. -/
theorem run_concat (s : System) (earlier : List Move) (move : Move) :
    s.run (earlier ++ [move]) = (s.run earlier).step move := s.run_append earlier [move]

/-- A call of an operation is served by the shared store, and noted. -/
private theorem run_call (number : Nat) (order : Arrangement) (context : Context) (call : Call)
    (shared : Shared) :
    ((member number order).call context call).run shared =
      let served := shared.memory.serve order.apply call
      (served.2, { shared with
        memory := served.1
        history := shared.history ++ [⟨some number, .call call, served.2⟩] }) := rfl

/-- What an operation logs does not touch the store. -/
private theorem run_log (number : Nat) (order : Arrangement) (records : List LogRecord)
    (shared : Shared) : (records.forM (member number order).log).run shared = ((), shared) :=
  @Client.run_forM_log _ (member number order) (fun shared _ => shared) (fun _ _ => rfl)
    (fun _ => rfl) (fun _ _ _ => rfl) records shared

/-- The mode for containers, if there is a need to ask: the store's own answer. -/
private theorem run_containerMode (number : Nat) (order : Arrangement) (context : Context)
    (shared : Shared) :
    ((member number order).containerMode context).run shared = match shared.known with
      | some mode => (.ok mode, shared)
      | none =>
        let mode := Client.modeOf (.bool shared.memory.containers)
        (.ok mode, { shared with
          known := some mode
          history := shared.history ++
            [⟨some number, .call .capability, .ok (.bool shared.memory.containers)⟩] }) := by
  obtain ⟨⟨containers, closed, nodes⟩, known, history⟩ := shared
  cases known with
  | some mode => rfl
  | none => cases containers <;> rfl

/-- Nothing happens in the turn of an operation that is not there. -/
theorem step_of_absent (h : s.operations[number]? = none) (order : Arrangement) :
    s.step (.turn ⟨number, order⟩) = s := by
  simp only [step, h]

/-- An operation that is done does nothing in its turns. -/
theorem step_of_finished (h : s.operations[number]? = some operation) {outcome : Answer}
    (hn : operation.next = .finished outcome) (order : Arrangement) :
    s.step (.turn ⟨number, order⟩) = s := by
  simp only [step, h]
  rw [Client.step, hn]
  rfl

/-- A turn of an operation that makes a call: the store answers, and the operation goes on. -/
theorem step_of_calling (h : s.operations[number]? = some operation) {call : Call}
    {resume : Answer → List LogRecord × Operation} (hn : operation.next = .calling call resume)
    (order : Arrangement) :
    s.step (.turn ⟨number, order⟩) =
      let served := s.memory.serve order.apply call
      { shared := { s.shared with
          memory := served.1
          history := s.shared.history ++ [⟨some number, .call call, served.2⟩] }
        operations := s.operations.set number (resume served.2).2 } := by
  simp only [step, h]
  rw [Client.step, hn]
  simp only [StateT.run_bind, run_call, run_log, StateT.run_pure]
  rfl

/-- The mode for containers that an operation goes on with: the one learnt before, else that of the
store's own answer. -/
def containerMode (s : System) : CreateMode :=
  s.shared.known.getD (Client.modeOf (.bool s.memory.containers))

/-- A turn of an operation that asks for the mode for containers: it goes on with the mode, which is
known from now on, and the nodes are left alone. At most, the store is asked what it can do. -/
theorem step_of_choosing (h : s.operations[number]? = some operation)
    {resume : Except Failure CreateMode → List LogRecord × Operation}
    (hn : operation.next = .choosing resume) (order : Arrangement) :
    ∃ asked,
      (∀ event ∈ asked, event = ⟨some number, .call .capability, .ok (.bool s.memory.containers)⟩) ∧
      s.step (.turn ⟨number, order⟩) =
        { shared := { s.shared with
            known := some s.containerMode
            history := s.shared.history ++ asked }
          operations := s.operations.set number (resume (.ok s.containerMode)).2 } := by
  obtain ⟨⟨memory, known, history⟩, operations⟩ := s
  simp only [step, h]
  rw [Client.step, hn]
  simp only [StateT.run_bind, run_containerMode]
  cases known with
  | some mode =>
    refine ⟨[], by simp, ?_⟩
    simp only [run_log, StateT.run_pure, List.append_nil]
    rfl
  | none =>
    refine ⟨[⟨some number, .call .capability, .ok (.bool memory.containers)⟩], ?_, ?_⟩
    · exact fun event hmem => List.mem_singleton.mp hmem
    · simp only [run_log, StateT.run_pure]
      rfl

/-- A request of another client leaves the operations alone. -/
theorem step_foreign (request : Memory.Request) :
    s.step (.foreign request) =
      { s with shared := { s.shared with
          memory := s.memory.after request
          history := s.shared.history ++ [⟨none, request, (s.memory.handle request).2⟩] } } := rfl

/-- A move leaves the nodes alone, or it carries out one request, which goes on record with the
answer that the store gives anyone; only in a listing may the names stand in another order. -/
theorem step_cases (s : System) (move : Move) :
    ((s.step move).memory = s.memory ∧ ∃ asked, (s.step move).history = s.history ++ asked ∧
      ∀ event ∈ asked, event.request = .call .capability) ∨
    ∃ event : Event, (s.step move).memory = s.memory.after event.request ∧
      (s.step move).history = s.history ++ [event] ∧
      ((∃ path, event.request = .call (.children path)) ∨
        event.answer = (s.memory.handle event.request).2) := by
  cases move with
  | foreign request => exact .inr ⟨⟨none, request, _⟩, rfl, rfl, .inr rfl⟩
  | turn turn =>
    obtain ⟨number, order⟩ := turn
    have hsame : s.step (.turn ⟨number, order⟩) = s →
        ((s.step (.turn ⟨number, order⟩)).memory = s.memory ∧ ∃ asked,
          (s.step (.turn ⟨number, order⟩)).history = s.history ++ asked ∧
          ∀ event ∈ asked, event.request = .call .capability) := by
      intro he
      rw [he]
      exact ⟨rfl, [], (List.append_nil _).symm, by simp⟩
    cases ho : s.operations[number]? with
    | none => exact .inl (hsame (step_of_absent ho order))
    | some operation =>
      cases hn : operation.next with
      | finished outcome => exact .inl (hsame (step_of_finished ho hn order))
      | choosing resume =>
        obtain ⟨asked, hasked, he⟩ := step_of_choosing ho hn order
        rw [he]
        exact .inl ⟨rfl, asked, rfl, fun event hmem => by rw [hasked event hmem]⟩
      | calling call resume =>
        rw [step_of_calling ho hn]
        refine .inr ⟨⟨some number, .call call, (s.memory.serve order.apply call).2⟩,
          Memory.serve_fst .., rfl, ?_⟩
        cases call with
        | children path => exact .inl ⟨path, rfl⟩
        | _ => exact .inr rfl

/-- Whoever makes a move, the store is in a state that requests lead to. -/
theorem reachable_step (h : s.memory.Reachable) (move : Move) :
    (s.step move).memory.Reachable := by
  obtain ⟨hmemory, -⟩ | ⟨event, hmemory, -⟩ := s.step_cases move
  · rwa [hmemory]
  · rw [hmemory]
    exact h.after event.request

/-- A move other than a turn of an operation leaves that operation alone. -/
theorem operations_step {move : Move} (h : ∀ order, move ≠ .turn ⟨number, order⟩) :
    (s.step move).operations[number]? = s.operations[number]? := by
  cases move with
  | foreign request => rfl
  | turn turn =>
    obtain ⟨other, order⟩ := turn
    have hne : other ≠ number := fun he => h order (by rw [he])
    rw [step]
    split
    · rfl
    · split
      · rfl
      · exact List.getElem?_set_ne hne

/-- Moves that are not turns of an operation leave it as it is. -/
theorem operations_run {moves : List Move} (h : ∀ move ∈ moves, move.isTurnOf number = false) :
    (s.run moves).operations[number]? = s.operations[number]? := by
  induction moves generalizing s with
  | nil => rfl
  | cons move rest ih =>
    obtain ⟨hmove, hrest⟩ := List.forall_mem_cons.mp h
    refine (ih hrest).trans (operations_step ?_)
    rintro order rfl
    exact absurd hmove (by simp [Move.isTurnOf])

/-- An operation that is done stays done. -/
theorem outcome_step {outcome : Answer} (h : s.outcome number = some outcome) (move : Move) :
    (s.step move).outcome number = some outcome := by
  by_cases hm : ∃ order, move = .turn ⟨number, order⟩
  · obtain ⟨order, rfl⟩ := hm
    obtain ⟨operation, ho, hout⟩ := Option.bind_eq_some_iff.mp h
    rwa [step_of_finished ho (Operation.next_of_outcome? hout)]
  · rw [System.outcome, operations_step fun order he => hm ⟨order, he⟩]
    exact h

/-- An outcome is for good. -/
theorem outcome_run {outcome : Answer} (h : s.outcome number = some outcome) (moves : List Move) :
    (s.run moves).outcome number = some outcome := by
  induction moves generalizing s with
  | nil => exact h
  | cons move rest ih => exact ih (outcome_step h move)

/-- An operation that is done was done after some of the moves, and not before. -/
theorem exists_first {outcome : Answer} {moves : List Move}
    (h : (s.run moves).outcome number = some outcome) :
    ∃ during, during <+: moves ∧ (s.run during).outcome number = some outcome ∧
      ∀ earlier, earlier <+: during → earlier ≠ during → (s.run earlier).outcome number = none := by
  induction moves using List.reverseRecOn with
  | nil =>
    refine ⟨[], List.prefix_rfl, h, fun earlier hbegins hne => ?_⟩
    exact absurd (List.prefix_nil.mp hbegins) hne
  | append_singleton moves move ih =>
    cases hbefore : (s.run moves).outcome number with
    | some other =>
      have hafter := outcome_run hbefore [move]
      rw [← run_append, h] at hafter
      obtain rfl := Option.some.inj hafter
      obtain ⟨during, hbegins, hduring⟩ := ih hbefore
      exact ⟨during, hbegins.trans (List.prefix_append _ _), hduring⟩
    | none =>
      refine ⟨moves ++ [move], List.prefix_rfl, h, fun earlier hbegins hne => ?_⟩
      rw [List.prefix_concat_iff] at hbegins
      obtain ⟨rest, rfl⟩ := hbegins.resolve_left hne
      cases hearlier : (s.run earlier).outcome number with
      | none => rfl
      | some other =>
        have hafter := outcome_run hearlier rest
        rw [← run_append, hbefore] at hafter
        cases hafter

section Calls

variable {κ τ : Type} {follows follows' : κ → τ → Prop} {calls : List κ} {call : κ}
  {operations : List τ} {operation : τ}

/-- Operations that carry out calls go on doing so when one of them takes a step. -/
theorem forall₂_set (h : List.Forall₂ follows calls operations)
    (hmono : ∀ call operation, follows call operation → follows' call operation)
    (hcall : calls[number]? = some call) (hown : follows' call operation) :
    List.Forall₂ follows' calls (operations.set number operation) := by
  induction h generalizing number with
  | nil => exact .nil
  | cons hhead htail ih =>
    cases number with
    | zero =>
      obtain rfl := Option.some.inj hcall
      exact .cons hown (htail.imp hmono)
    | succ number => exact .cons (hmono _ _ hhead) (ih hcall)

/-- Each of the operations that carry out calls has its own. -/
theorem exists_call (h : List.Forall₂ follows calls operations)
    (ho : operations[number]? = some operation) :
    ∃ call, calls[number]? = some call ∧ follows call operation := by
  induction h generalizing number with
  | nil => simp at ho
  | cons hhead htail ih =>
    cases number with
    | zero =>
      obtain rfl := Option.some.inj ho
      exact ⟨_, rfl, hhead⟩
    | succ number => exact ih ho

/-- Each operation that ended carried out a call. -/
theorem exists_call_of_outcome {follows : κ → Operation → Prop}
    (h : List.Forall₂ follows calls s.operations) {outcome : Answer}
    (ho : s.outcome number = some outcome) :
    ∃ call operation, calls[number]? = some call ∧ follows call operation ∧
      operation.outcome? = some outcome := by
  obtain ⟨operation, hoper, hout⟩ := Option.bind_eq_some_iff.mp ho
  obtain ⟨call, hc, hf⟩ := exists_call h hoper
  exact ⟨call, operation, hc, hf, hout⟩

/-- If all operations have ended, then so has that of each call. -/
theorem exists_outcome (hall : ∀ i < calls.length, s.outcome i ≠ none) (hc : call ∈ calls) :
    ∃ i outcome, calls[i]? = some call ∧ s.outcome i = some outcome := by
  obtain ⟨i, hi⟩ := List.getElem?_of_mem hc
  have hlt := (List.getElem?_eq_some_iff.mp hi).1
  obtain ⟨outcome, hout⟩ := Option.ne_none_iff_exists'.mp (hall i hlt)
  exact ⟨i, outcome, hi, hout⟩

/-- Each call has an operation of its own. -/
theorem operations_start (m : Memory) (asked : Bool) (operationOf : κ → Operation)
    (hc : calls[number]? = some call) :
    (start m asked (calls.map operationOf)).operations[number]? = some (operationOf call) := by
  simp [start, hc]

end Calls

/-- What holds at first and is kept by each of the moves holds after all of them. -/
theorem run_induction {motive : System → Prop} {moves : List Move} (hs : motive s)
    (hstep : ∀ s, motive s → ∀ move ∈ moves, motive (s.step move)) : motive (s.run moves) := by
  induction moves generalizing s with
  | nil => exact hs
  | cons move rest ih =>
    exact ih (hstep s hs move List.mem_cons_self)
      fun s hs other ho => hstep s hs other (List.mem_cons_of_mem move ho)

/-- What holds at first and after each turn holds after any turns. -/
theorem interleave_induction {motive : System → Prop} (hs : motive s)
    (hstep : ∀ s turn, motive s → motive (s.step (.turn turn))) (turns : List Turn) :
    motive (s.interleave turns) := by
  refine run_induction hs fun s hs move hm => ?_
  obtain ⟨turn, -, rfl⟩ := List.mem_map.mp hm
  exact hstep s turn hs

/-- An operation whose rank goes down in each of its turns is over after as many of them as its rank
was at first, whatever happens in between. -/
theorem outcome_of_turns {keeps : System → Prop} {rank : Operation → Nat} {moves : List Move}
    (hkeeps : ∀ s, keeps s → ∀ move ∈ moves, keeps (s.step move))
    (hrank : ∀ s order operation, keeps s → s.operations[number]? = some operation →
      operation.outcome? = none → ∃ rest,
        (s.step (.turn ⟨number, order⟩)).operations[number]? = some rest ∧
          rank rest < rank operation)
    (hs : keeps s) (ho : s.operations[number]? = some operation)
    (hmoves : rank operation ≤ moves.countP (Move.isTurnOf number)) :
    ∃ outcome, (s.run moves).outcome number = some outcome := by
  by_cases hdone : ∃ outcome, operation.outcome? = some outcome
  · obtain ⟨outcome, hout⟩ := hdone
    have hs : s.outcome number = some outcome := by
      rw [System.outcome, ho]
      exact hout
    exact ⟨outcome, outcome_run hs _⟩
  have hnone : operation.outcome? = none :=
    Option.eq_none_iff_forall_ne_some.mpr fun outcome hout => hdone ⟨outcome, hout⟩
  induction moves generalizing s operation with
  | nil =>
    obtain ⟨rest, -, hlt⟩ := hrank s ⟨id, fun _ => .refl _⟩ operation hs ho hnone
    rw [List.countP_nil] at hmoves
    omega
  | cons move moves ih =>
    have hs' := hkeeps s hs move List.mem_cons_self
    have hkeeps' : ∀ s, keeps s → ∀ move ∈ moves, keeps (s.step move) :=
      fun s hs other ho => hkeeps s hs other (List.mem_cons_of_mem move ho)
    have hgo : ∀ next, (s.step move).operations[number]? = some next →
        rank next ≤ moves.countP (Move.isTurnOf number) →
          ∃ outcome, (s.run (move :: moves)).outcome number = some outcome := by
      intro next hnext hle
      cases hout : next.outcome? with
      | none => exact ih hkeeps' hs' hnext hle (by simp [hout]) hout
      | some outcome =>
        have hstep : (s.step move).outcome number = some outcome := by
          rw [System.outcome, hnext]
          exact hout
        exact ⟨outcome, outcome_run hstep _⟩
    by_cases hturn : move.isTurnOf number = true
    · rw [List.countP_cons_of_pos hturn] at hmoves
      cases move with
      | foreign request => cases hturn
      | turn turn =>
        obtain ⟨other, order⟩ := turn
        obtain rfl : other = number := of_decide_eq_true hturn
        obtain ⟨rest, hrest, hlt⟩ := hrank s order operation hs ho hnone
        exact hgo rest hrest (by omega)
    · rw [List.countP_cons_of_neg hturn] at hmoves
      refine hgo operation ?_ hmoves
      rwa [operations_step]
      rintro order rfl
      exact hturn (decide_eq_true rfl)

/-- An operation whose rank goes down in each of its turns is over after enough of them, whatever
the others do. -/
theorem outcome_interleave {keeps : System → Prop} {rank : Operation → Nat}
    (hkeeps : ∀ s turn, keeps s → keeps (s.step (.turn turn)))
    (hrank : ∀ s turn operation, keeps s → s.operations[turn.operation]? = some operation →
      operation.outcome? = none → ∃ rest,
        (s.step (.turn turn)).operations[turn.operation]? = some rest ∧ rank rest < rank operation)
    (hs : keeps s) (ho : s.operations[number]? = some operation) {turns : List Turn}
    (hturns : rank operation ≤ turns.countP (·.operation = number)) :
    ∃ outcome, (s.interleave turns).outcome number = some outcome := by
  refine outcome_of_turns (fun s hs move hm => ?_) (fun s order => hrank s ⟨number, order⟩) hs ho ?_
  · obtain ⟨turn, -, rfl⟩ := List.mem_map.mp hm
    exact hkeeps s turn hs
  · rw [List.countP_map]
    exact hturns

end System

end Concurrency

end TreeStore
