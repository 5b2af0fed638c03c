import TreeStore.Proofs.Concurrency.Knowledge
import TreeStore.Proofs.Store.Objections

/-!
# One question for each store

Whether a store can create containers is found out once and never asked again, by whomever and for
whatever operation, unless the store failed to answer. All who depend on the answer get this one, so
that no operation asks a store of a fixed kind for something that it does not do.
-/

namespace TreeStore

namespace Fleet

variable {ι : Type} [DecidableEq ι]

/-- The modes that a task has nodes created in, given the mode for containers that is known: that
one if it wants containers, and the plain one else. -/
def Admits (task : Task) (known : Option CreateMode) (mode : CreateMode) : Prop :=
  if task.wantsContainers then known = some mode else mode = .persistent

/-- The calls that an operation makes for a task, given the mode for containers that is known. -/
def Fits (task : Task) (known : Option CreateMode) (call : Call) : Prop :=
  call = .capability ∧ task.wantsContainers = true ∨ call.Suits (Admits task known)

/-- More knowledge admits no fewer modes. -/
theorem Admits.mono {task : Task} {known known' : Option CreateMode}
    (himp : ∀ mode, known = some mode → known' = some mode) (mode : CreateMode)
    (h : Admits task known mode) : Admits task known' mode := by
  cases hwants : task.wantsContainers with
  | true =>
    simp only [Admits, hwants, if_true] at h ⊢
    exact himp mode h
  | false =>
    simp only [Admits, hwants, Bool.false_eq_true, if_false] at h ⊢
    exact h

/-- A task that wants no containers has plain nodes created. -/
theorem admits_plain {task : Task} {known : Option CreateMode}
    (h : task.wantsContainers = false) : Admits task known .persistent := by
  simp [Admits, h]

/-- A call that fits goes on to fit when more is known. -/
theorem Fits.mono {task : Task} {known known' : Option CreateMode} {call : Call}
    (himp : ∀ mode, known = some mode → known' = some mode) (h : Fits task known call) :
    Fits task known' call :=
  h.imp_right fun hsuits => hsuits.mono (Admits.mono himp)

/-- An operation carries out a task on its store. -/
structure Carries (known : ι → Option CreateMode) (assigned : ι × Task)
    (running : ι × Operation) : Prop where
  /-- It is at its store. -/
  store : running.1 = assigned.1
  /-- It keeps to the mode for containers that is known. -/
  uses : running.2.Uses assigned.2.wantsContainers (Admits assigned.2 (known assigned.1))

/-- Everyone goes by what the stores answered when they were asked whether they can create
containers. -/
structure Obeys (tasks : List (ι × Task)) (s : Fleet ι) : Prop where
  /-- What is known of a store agrees with its answers. -/
  knows : ∀ store, s.shared.Knows store
  /-- The modes that were told are the known ones. -/
  replies : ∀ store mode, (store, .ok mode) ∈ s.replies → s.shared.known store = some mode
  /-- The operations carry out the tasks. -/
  operations : List.Forall₂ (Carries s.shared.known) tasks s.operations
  /-- Their calls fit the tasks. -/
  visits : ∀ visit ∈ s.shared.visits, ∀ number, visit.operation = some number →
    ∃ task, tasks[number]? = some (visit.store, task) ∧
      Fits task (s.shared.known visit.store) visit.call

variable {s : Fleet ι} {tasks : List (ι × Task)}

omit [DecidableEq ι] in
/-- An operation carries out its task also when more is known. -/
theorem Carries.mono {known known' : ι → Option CreateMode}
    (himp : ∀ store mode, known store = some mode → known' store = some mode) (assigned : ι × Task)
    (running : ι × Operation) (h : Carries known assigned running) :
    Carries known' assigned running :=
  ⟨h.store, h.uses.mono (Admits.mono (himp assigned.1))⟩

/-- At first nothing is known, and nothing has happened yet. -/
theorem obeys_start (hosts : ι → Host) (tasks : List (ι × Task)) :
    Obeys tasks (start hosts (tasks.map fun (store, task) => (store, task.operation))) where
  knows store := .unasked rfl rfl rfl
  replies store mode h := by cases h
  operations := by
    simp only [start]
    induction tasks with
    | nil => exact .nil
    | cons assigned rest ih => exact .cons ⟨rfl, Operation.uses_start _ admits_plain⟩ ih
  visits visit h := by cases h

/-- Calls that fitted the tasks still do when more is known. -/
theorem Obeys.visits_append (h : Obeys tasks s) {known : ι → Option CreateMode}
    {more : List (Visit ι)}
    (himp : ∀ store mode, s.shared.known store = some mode → known store = some mode)
    (hmore : ∀ visit ∈ more, ∀ number, visit.operation = some number →
      ∃ task, tasks[number]? = some (visit.store, task) ∧
        Fits task (known visit.store) visit.call) :
    ∀ visit ∈ s.shared.visits ++ more, ∀ number, visit.operation = some number →
      ∃ task, tasks[number]? = some (visit.store, task) ∧
        Fits task (known visit.store) visit.call := by
  intro visit hmem number hnumber
  obtain hmem | hmem := List.mem_append.mp hmem
  · obtain ⟨task, htask, hfits⟩ := h.visits visit hmem number hnumber
    exact ⟨task, htask, hfits.mono (himp visit.store)⟩
  · exact hmore visit hmem number hnumber

/-- A request of another client teaches nothing. -/
theorem Obeys.foreign (h : Obeys tasks s) (store : ι) (request : Memory.Request) :
    Obeys tasks { s with shared := { s.shared with
      hosts := Function.update s.shared.hosts store ((s.shared.hosts store).after request) } } := by
  refine ⟨fun other => (h.knows other).agrees ⟨rfl, rfl, rfl, ?_⟩, h.replies, h.operations,
    h.visits⟩
  by_cases he : other = store
  · subst he
    simp
  · simp [he]

/-- A question may teach what its store answers. -/
theorem Obeys.question (h : Obeys tasks s) {store : ι} {order : Concurrency.Arrangement}
    {context : Context} {reply : Except Failure CreateMode} {shared : Shared ι}
    (hchosen : s.shared.choose store none order context = (reply, shared)) :
    Obeys tasks { s with shared, replies := s.replies ++ [(store, reply)] } := by
  have himp (other : ι) (mode : CreateMode) (hknown : s.shared.known other = some mode) :
      shared.known other = some mode := Shared.known_choose hchosen hknown
  obtain ⟨asked, hvisits, hasked⟩ := Shared.visits_choose hchosen
  constructor
  · exact Shared.knows_choose h.knows hchosen
  · intro other mode hmem
    obtain hmem | hmem := List.mem_append.mp hmem
    · exact himp other mode (h.replies other mode hmem)
    · cases List.mem_singleton.mp hmem
      exact Shared.known_of_choose hchosen rfl
  · exact h.operations.imp fun assigned running hc => hc.mono himp assigned running
  · dsimp only
    rw [hvisits]
    refine h.visits_append himp fun visit hmem number hnumber => ?_
    obtain ⟨answer, rfl⟩ := hasked visit hmem
    cases hnumber

/-- An operation that calls its store teaches nothing by that. -/
theorem Obeys.calling (h : Obeys tasks s) {number : Nat} {store : ι} {operation : Operation}
    {order : Concurrency.Arrangement} {call : Call} {resume : Answer → List LogRecord × Operation}
    {answer : Answer} {shared : Shared ι}
    (ho : s.operations[number]? = some (store, operation))
    (hn : operation.next = .calling call resume)
    (hvisited : s.shared.visit store (some number) order call = (shared, answer)) :
    Obeys tasks { s with
      shared := shared.report store (resume answer).1
      operations := s.operations.set number (store, (resume answer).2) } := by
  obtain ⟨⟨store', task⟩, htask, rfl, huses⟩ := Concurrency.System.exists_call h.operations ho
  obtain ⟨hsuits, hrest⟩ := huses.calling admits_plain hn
  have hknown := Shared.known_visit hvisited
  have hvisits := Shared.visits_visit hvisited
  constructor
  · intro other
    refine ((h.knows other).agrees (Shared.agrees_visit hvisited fun _ => ?_)).agrees
      (Shared.agrees_report fun _ => Operation.severity_of_calling hn _)
    cases call with
    | capability => exact absurd hsuits id
    | _ => rfl
  · intro other mode hmem
    rw [Shared.known_report, hknown]
    exact h.replies other mode hmem
  · rw [Shared.known_report, hknown]
    exact Concurrency.System.forall₂_set h.operations (fun _ _ hc => hc) htask ⟨rfl, hrest _⟩
  · rw [Shared.visits_report, Shared.known_report, hvisits, hknown]
    refine h.visits_append (fun _ _ hm => hm) fun visit hmem number' hnumber => ?_
    obtain rfl := List.mem_singleton.mp hmem
    obtain rfl := Option.some.inj hnumber
    exact ⟨task, htask, .inr hsuits⟩

/-- An operation that chooses a mode goes by what is known, or teaches it. -/
theorem Obeys.choosing (h : Obeys tasks s) {number : Nat} {store : ι} {operation : Operation}
    {order : Concurrency.Arrangement} {context : Context}
    {resume : Except Failure CreateMode → List LogRecord × Operation}
    {reply : Except Failure CreateMode} {shared : Shared ι}
    (ho : s.operations[number]? = some (store, operation))
    (hn : operation.next = .choosing resume)
    (hchosen : s.shared.choose store (some number) order context = (reply, shared)) :
    Obeys tasks { s with
      shared := shared.report store (resume reply).1
      operations := s.operations.set number (store, (resume reply).2) } := by
  obtain ⟨⟨store', task⟩, htask, rfl, huses⟩ := Concurrency.System.exists_call h.operations ho
  have himp (other : ι) (mode : CreateMode) (hknown : s.shared.known other = some mode) :
      shared.known other = some mode := Shared.known_choose hchosen hknown
  obtain ⟨hwants, hrest⟩ : task.wantsContainers = true ∧ ∀ answer,
      (∀ mode, answer = .ok mode → Admits task (shared.known store) mode) →
        (resume answer).2.Uses task.wantsContainers (Admits task (shared.known store)) :=
    huses.choosing hn
  obtain ⟨asked, hvisits, hasked⟩ := Shared.visits_choose hchosen
  rw [Operation.records_of_choosing hn, Shared.report_nil]
  constructor
  · exact Shared.knows_choose h.knows hchosen
  · exact fun other mode hmem => himp other mode (h.replies other mode hmem)
  · refine Concurrency.System.forall₂_set h.operations (fun _ _ hc => hc.mono himp _ _) htask
      ⟨rfl, hrest reply fun mode hreply => ?_⟩
    rw [Admits, if_pos hwants]
    exact Shared.known_of_choose hchosen hreply
  · dsimp only
    rw [hvisits]
    refine h.visits_append himp fun visit hmem number' hnumber => ?_
    obtain ⟨answer, rfl⟩ := hasked visit hmem
    obtain rfl := Option.some.inj hnumber
    exact ⟨task, htask, .inl ⟨rfl, hwants⟩⟩

/-- Whatever the move, everyone goes by the answers after it. -/
theorem Obeys.stepped {s' : Fleet ι} (h : Obeys tasks s) (hs : Stepped s s') : Obeys tasks s' := by
  cases hs with
  | idle => exact h
  | foreign store request => exact h.foreign store request
  | question _ _ _ _ _ chosen => exact h.question chosen
  | calling _ _ _ _ _ _ _ _ running next visited => exact h.calling running next visited
  | choosing _ _ _ _ _ _ _ _ running next chosen => exact h.choosing running next chosen

/-- Everyone goes by the answers all along a run. -/
theorem Obeys.run (h : Obeys tasks s) (moves : List (Move ι)) : Obeys tasks (s.run moves) :=
  run_induction h (fun s move hs => hs.stepped (s.stepped move)) moves

end Fleet

/-- A store can, or cannot, create containers for good. -/
inductive Host.Offers : Host → Bool → Prop
  | memory {m : Memory} {containers : Bool} (h : m.containers = containers) :
      Offers (.memory m) containers
  | workspace (service : Service) (heard : List Exchange) :
      Offers (.remote (Workspace.storeOver service) heard) false

namespace Host.Offers

variable {host : Host} {containers : Bool}

/-- A call does not change what a store can do. -/
theorem serve (h : host.Offers containers) (order : Concurrency.Arrangement) (call : Call) :
    (host.serve order call).1.Offers containers := by
  cases h with
  | @memory m _ h =>
    refine .memory ?_
    rw [Memory.serve_fst, Memory.containers_after, h]
  | workspace service heard => exact .workspace service _

/-- A request does not change what a store can do. -/
theorem after (h : host.Offers containers) (request : Memory.Request) :
    (host.after request).Offers containers := by
  cases h with
  | memory h => exact .memory ((Memory.containers_after request).trans h)
  | workspace service heard => exact .workspace service heard

/-- The question is answered accordingly. -/
theorem capability (h : host.Offers containers) (order : Concurrency.Arrangement) :
    (host.serve order .capability).2 = .ok (.bool containers) := by
  cases h with
  | memory h =>
    subst h
    rfl
  | workspace service heard => rfl

/-- A store does not object to a call that goes by what it can do. -/
theorem not_argument (h : host.Offers containers) {order : Concurrency.Arrangement} {call : Call}
    (hsuits : call.Suits fun mode => mode = .persistent ∨ mode = Client.modeOf (.bool containers))
    {failure : Failure} (hfailure : (host.serve order call).2 = .error failure)
    (fault : ArgumentFault) : failure.problem ≠ .argument fault := by
  cases h with
  | memory h =>
    subst h
    refine Memory.not_argument_of_serve order.apply ?_ hfailure fault
    rintro path data acl mode rfl hcontainer
    obtain ⟨-, rfl | rfl⟩ := hsuits
    · cases hcontainer
    · cases hc : Memory.containers _ with
      | true => rfl
      | false =>
        rw [hc] at hcontainer
        cases hcontainer
  | workspace service heard =>
    refine Workspace.not_argument_of_answer (hsuits.mono ?_) hfailure fault
    rintro mode (rfl | rfl) <;> rfl

end Host.Offers

namespace Fleet

variable {ι : Type} [DecidableEq ι]

/-- A store that can, or cannot, create containers for good is known as such, and never objected to
the arguments of a call. -/
structure Shared.Faithful (s : Shared ι) (store : ι) (containers : Bool) : Prop where
  /-- It is such a store. -/
  host : (s.hosts store).Offers containers
  /-- It is known as such. -/
  known : ∀ mode, s.known store = some mode → mode = Client.modeOf (.bool containers)
  /-- It did not object. -/
  visits : ∀ visit ∈ s.visits, visit.store = store → ∀ failure fault,
    visit.answer = .error failure → failure.problem ≠ .argument fault

namespace Shared.Faithful

variable {s s' shared : Shared ι} {store other : ι} {containers : Bool} {operation : Option Nat}
  {order : Concurrency.Arrangement} {context : Context} {call : Call} {answer : Answer}
  {reply : Except Failure CreateMode}

/-- Such a store is visited without an objection. -/
theorem visit (h : s.Faithful store containers)
    (hv : s.visit other operation order call = (s', answer))
    (haccepts : other = store → ∀ failure fault, answer = .error failure →
      failure.problem ≠ .argument fault) : s'.Faithful store containers := by
  constructor
  · cases hv
    by_cases he : store = other
    · subst he
      simpa using h.host.serve order call
    · simpa [he] using h.host
  · rw [known_visit hv]
    exact h.known
  · rw [visits_visit hv]
    intro visit hmem hstore
    obtain hmem | hmem := List.mem_append.mp hmem
    · exact h.visits visit hmem hstore
    · obtain rfl := List.mem_singleton.mp hmem
      exact haccepts hstore

/-- A faithful store answers truly when it is asked what it can do. -/
theorem answer_eq (h : s.Faithful store containers)
    (hv : s.visit store operation order .capability = (s', answer)) :
    answer = .ok (.bool containers) := by
  cases hv
  exact h.host.capability order

/-- A faithful store is known as what it is after a choice. -/
theorem choose (h : s.Faithful store containers)
    (hc : s.choose other operation order context = (reply, shared)) :
    shared.Faithful store containers := by
  obtain ⟨-, -, -, rfl⟩ | ⟨failure, -, -, hv⟩ | ⟨asked, value, -, -, hv, rfl⟩ := choose_cases hc
  · exact h
  · refine h.visit hv ?_
    rintro rfl
    cases h.answer_eq hv
  · have hasked := h.visit hv fun _ _ _ hfailure => by cases hfailure
    refine ⟨hasked.host, fun mode hmode => ?_, hasked.visits⟩
    by_cases he : store = other
    · subst he
      rw [modeOf_known] at hmode
      rw [← Option.some.inj hmode, Except.ok.inj (h.answer_eq hv)]
    · refine hasked.known mode ?_
      change Function.update asked.known other _ store = _ at hmode
      rwa [Function.update_of_ne he] at hmode

end Shared.Faithful

variable {s s' : Fleet ι} {tasks : List (ι × Task)} {store : ι} {containers : Bool}

/-- A faithful store is known as what it is after any move. -/
theorem Obeys.faithful (h : Obeys tasks s) (hf : s.shared.Faithful store containers)
    (hs : Stepped s s') : s'.shared.Faithful store containers := by
  cases hs with
  | idle => exact hf
  | foreign other request =>
    refine ⟨?_, hf.known, hf.visits⟩
    by_cases he : store = other
    · subst he
      simpa using hf.host.after request
    · simpa [he] using hf.host
  | question _ _ _ _ _ chosen => exact hf.choose chosen
  | choosing _ _ _ _ _ _ _ _ _ _ chosen =>
    have hchosen := hf.choose chosen
    exact ⟨hchosen.host, hchosen.known, hchosen.visits⟩
  | calling number other operation order call resume answer shared running next visited =>
    obtain ⟨⟨_, task⟩, htask, rfl, huses⟩ :=
      Concurrency.System.exists_call h.operations running
    have hsuits := (huses.calling admits_plain next).1
    have hvisited := hf.visit visited fun he failure fault hfailure => by
      subst he
      refine hf.host.not_argument (hsuits.mono fun mode hmode => ?_)
        ((congrArg Prod.snd visited).trans hfailure) fault
      cases hwants : task.wantsContainers with
      | true =>
        simp only [Admits, hwants, if_true] at hmode
        exact .inr (hf.known mode hmode)
      | false =>
        simp only [Admits, hwants, Bool.false_eq_true, if_false] at hmode
        exact .inl hmode
    exact ⟨hvisited.host, hvisited.known, hvisited.visits⟩

/-- A store that fails to answer what it can do teaches nothing, and its failure is passed on. -/
theorem Shared.choose_failing {s shared : Shared ι} {operation : Option Nat}
    {order : Concurrency.Arrangement} {context : Context} {reply : Except Failure CreateMode}
    (h : s.choose store operation order context = (reply, shared)) {visit : Visit ι}
    (hvisits : shared.visits = s.visits ++ [visit]) {failure : Failure}
    (hanswer : visit.answer = .error failure) :
    visit.store = store ∧ visit.operation = operation ∧ reply = .error failure ∧
      shared.known = s.known ∧ shared.records = s.records := by
  obtain ⟨-, -, -, rfl⟩ | ⟨failure', -, rfl, hv⟩ | ⟨asked, value, -, -, hv, rfl⟩ := choose_cases h
  · simp at hvisits
  · rw [visits_visit hv] at hvisits
    obtain rfl := List.singleton_inj.mp (List.append_cancel_left hvisits)
    cases hanswer
    exact ⟨rfl, rfl, rfl, known_visit hv, records_visit hv⟩
  · change asked.visits = _ at hvisits
    rw [visits_visit hv] at hvisits
    obtain rfl := List.singleton_inj.mp (List.append_cancel_left hvisits)
    cases hanswer

/-- After a move in which a store failed to answer what it can do, no more is known than before, no
one was warned, and whoever asked has failed. -/
structure Failed (s s' : Fleet ι) (visit : Visit ι) (failure : Failure) : Prop where
  /-- No more is known. -/
  known : s'.shared.known = s.shared.known
  /-- Nothing was reported. -/
  records : s'.shared.records = s.shared.records
  /-- The question was answered with the failure. -/
  replies : visit.operation = none → s'.replies = s.replies ++ [(visit.store, .error failure)]
  /-- The operation ended with the failure, as it left the operation. -/
  operations : ∀ number, visit.operation = some number → ∃ here there,
    s.operations[number]? = some (visit.store, here) ∧
    s'.operations[number]? = some (visit.store, there) ∧
    there.next = .finished (.error (here.leave failure))

/-- Whoever asks in vain fails, and leaves no one the wiser. -/
theorem Obeys.failed (h : Obeys tasks s) (hs : Stepped s s') {visit : Visit ι}
    (hvisits : s'.shared.visits = s.shared.visits ++ [visit]) (hcall : visit.call = .capability)
    {failure : Failure} (hanswer : visit.answer = .error failure) : Failed s s' visit failure := by
  cases hs with
  | idle | foreign => simp at hvisits
  | question other order context reply shared chosen =>
    obtain ⟨rfl, hnone, rfl, hknown, hrecords⟩ := Shared.choose_failing chosen hvisits hanswer
    refine ⟨hknown, hrecords, fun _ => rfl, fun number hnumber => ?_⟩
    rw [hnone] at hnumber
    cases hnumber
  | calling number other operation order call resume answer shared running next visited =>
    obtain ⟨⟨_, task⟩, htask, rfl, huses⟩ :=
      Concurrency.System.exists_call h.operations running
    have hsuits := (huses.calling admits_plain next).1
    rw [Shared.visits_report, Shared.visits_visit visited] at hvisits
    obtain rfl := List.singleton_inj.mp (List.append_cancel_left hvisits)
    obtain rfl : call = .capability := hcall
    exact absurd hsuits id
  | choosing number other operation order context resume reply shared running next chosen =>
    rw [Shared.visits_report] at hvisits
    obtain ⟨rfl, hsome, rfl, hknown, hrecords⟩ := Shared.choose_failing chosen hvisits hanswer
    rw [Operation.records_of_choosing next, Shared.report_nil]
    refine ⟨hknown, hrecords, fun hnone => ?_, fun number' hnumber => ?_⟩
    · rw [hsome] at hnone
      cases hnone
    · rw [hsome] at hnumber
      obtain rfl := Option.some.inj hnumber
      exact ⟨operation, _, running,
        List.getElem?_set_self (List.getElem?_eq_some_iff.mp running).1,
        Operation.next_of_choosing next failure⟩

/-- Whoever asks about containers, and whatever operations do on however many stores, each store
answers once at most whether it can create them, and its answer is the one that everyone is given. A
warning is reported once if it cannot, and never else. Only recursive creation that was to create
containers asks, and it creates nodes in the mode that the answer stands for; otherwise nodes are
plain. A failure to answer teaches nothing. So a store in memory and a store of directories never
object to the arguments of a call. -/
theorem capability_asked_once (hosts : ι → Host) (tasks : List (ι × Task))
    (moves : List (Move ι)) :
    let s := (start hosts (tasks.map fun (store, task) => (store, task.operation))).run moves
    (∀ store, s.shared.Knows store) ∧
    (∀ store mode, (store, .ok mode) ∈ s.replies → ∃ value,
      s.shared.capabilities store = [value] ∧ mode = Client.modeOf value ∧
        (mode ≠ .persistent ↔ value.truthy = true)) ∧
    (∀ visit ∈ s.shared.visits, ∀ number, visit.operation = some number → ∃ task,
      tasks[number]? = some (visit.store, task) ∧
        Fits task (s.shared.known visit.store) visit.call) ∧
    (∀ move visit failure, (s.step move).shared.visits = s.shared.visits ++ [visit] →
      visit.call = .capability → visit.answer = .error failure →
        Failed s (s.step move) visit failure) ∧
    ∀ store containers, (hosts store).Offers containers → ∀ visit ∈ s.shared.visits,
      visit.store = store → ∀ failure fault, visit.answer = .error failure →
        failure.problem ≠ .argument fault := by
  intro s
  have hs : Obeys tasks s := (obeys_start hosts tasks).run moves
  refine ⟨hs.knows, fun store mode hreply => ?_, hs.visits,
    fun move visit failure hvisits hcall hanswer =>
      hs.failed (s.stepped move) hvisits hcall hanswer,
    fun store containers hoffers => ?_⟩
  · obtain ⟨value, hvalue, rfl, -⟩ := (hs.knows store).of_known (hs.replies store mode hreply)
    refine ⟨value, hvalue, rfl, ?_⟩
    rw [ne_eq, Client.modeOf_eq_persistent_iff, Bool.not_eq_false]
  · have hstart : Shared.Faithful { hosts } store containers := by
      refine ⟨hoffers, fun _ hknown => ?_, fun _ hmem => ?_⟩
      · cases hknown
      · cases hmem
    have hstep (s : Fleet ι) (move : Move ι)
        (hs : Obeys tasks s ∧ s.shared.Faithful store containers) :
        Obeys tasks (s.step move) ∧ (s.step move).shared.Faithful store containers :=
      ⟨hs.1.stepped (s.stepped move), hs.1.faithful hs.2 (s.stepped move)⟩
    exact (run_induction ⟨obeys_start hosts tasks, hstart⟩ hstep moves).2.visits

/-- A store fails when it is first asked, and says later that it can create containers. Next to it,
a store in memory that cannot is asked in the course of a recursive creation. -/
theorem capability_asked_once_flaky :
    let flaky : Respondent :=
      { className := "Store"
        answer := fun heard call => match call with
          | .capability =>
            if heard.isEmpty then .error (Problem.runtime "no answer" : Problem)
            else .ok (.bool true)
          | _ => .ok .null }
    let hosts (inMemory : Bool) : Host :=
      if inMemory then .memory { containers := false } else .remote flaky []
    let task (path : String) (asContainers : Bool) : Task :=
      .mkdirs [] path none none (some (.bool asContainers))
    let turn (number : Nat) : Move Bool := .turn number ⟨id, fun _ => .refl _⟩
    let moves := [.question false [], turn 1, turn 0, turn 0, turn 1, .question false [], turn 0,
      .question true [], turn 0, .question false [], turn 1]
    let s := (start hosts [(true, (task "/a" true).operation),
      (false, (task "/b" false).operation)]).run moves
    (∃ value, s.shared.capabilities true = [value] ∧
      s.shared.warnings true = [Client.fallbackMessage Memory.className]) ∧
    ∃ value, s.shared.capabilities false = [value] ∧ s.shared.warnings false = [] := by
  intro flaky hosts task turn moves s
  have hknows : ∀ store, s.shared.Knows store :=
    (capability_asked_once hosts [(true, task "/a" true), (false, task "/b" false)] moves).1
  have hkinds : s.shared.known true = some .persistent ∧ s.shared.known false = some .container ∧
      (s.shared.hosts true).className = Memory.className := by decide +kernel
  obtain ⟨hplain, hcontainer, hclass⟩ := hkinds
  constructor
  · obtain ⟨value, hvalue, -, hwarnings⟩ := (hknows true).of_known hplain
    rw [if_pos rfl, hclass] at hwarnings
    exact ⟨value, hvalue, hwarnings⟩
  · obtain ⟨value, hvalue, -, hwarnings⟩ := (hknows false).of_known hcontainer
    rw [if_neg (by decide)] at hwarnings
    exact ⟨value, hvalue, hwarnings⟩

end Fleet

end TreeStore
