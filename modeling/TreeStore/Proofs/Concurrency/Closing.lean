import TreeStore.Proofs.Concurrency.System
import TreeStore.Proofs.Operation.Modes
import TreeStore.Proofs.Tree.Isolation

/-!
# Closed stores

A store that is closed keeps its nodes and refuses every request about them. No operation takes the
refusal for one of the races that it expects: whatever it was at when the store was closed, it ends
with its next call.
-/

namespace TreeStore

namespace Memory

/-- The problem that a request is rejected for because of its arguments alone: a malformed path, or
a container in a store without them. -/
def Request.rejected? (containers : Bool) : Request → Option Problem
  | .call (.create path _ _ mode) =>
    ((Path.fault path mode.isSequential).map (.invalidPath (.str path))).or
      (if mode.isContainer && !containers then some (.argument (.noContainers path)) else none)
  | .call (.children path) | .call (.delete path _) =>
    (Path.fault path false).map (.invalidPath (.str path))
  | _ => none

/-- The path that is reported when a request finds the session gone. -/
def Request.path : Request → String
  | .call request => request.path
  | .setData path _ _ => path
  | .reap | .close => Path.root

variable {m : Memory} {request : Request} {p : String} {containers : Bool} {problem : Problem}

/-- Rejected arguments are reported as such. -/
theorem Request.kind_of_rejected (h : request.rejected? containers = some problem) :
    problem.kind = "InvalidPath" ∨ problem.kind = "ValueError" := by
  have hinvalid {isOpen : Bool} {path : String}
      (hf : (Path.fault path isOpen).map (.invalidPath (.str path)) = some problem) :
      problem.kind = "InvalidPath" := by
    obtain ⟨fault, -, rfl⟩ := Option.map_eq_some_iff.mp hf
    rfl
  unfold rejected? at h
  split at h
  · obtain hf | ⟨-, hc⟩ := Option.or_eq_some_iff.mp h
    · exact .inl (hinvalid hf)
    · split at hc
      · obtain rfl := Option.some.inj hc
        exact .inr rfl
      · cases hc
  · exact .inl (hinvalid h)
  · exact .inl (hinvalid h)
  · cases h

/-- Whether a store is closed or not, it rejects a request for its arguments before it does anything
else. -/
theorem handle_of_rejected (h : request.rejected? m.containers = some problem) :
    m.handle request = (m, .error (problem : Failure)) := by
  have hv {isOpen : Bool} {path : String}
      (hf : (Path.fault path isOpen).map (.invalidPath (.str path)) = some problem) :
      Path.validate path isOpen = .error problem := by
    obtain ⟨fault, hfault, rfl⟩ := Option.map_eq_some_iff.mp hf
    exact Path.validate_eq_error_iff.mpr ⟨fault, hfault, rfl⟩
  unfold Request.rejected? at h
  split at h
  · obtain hf | ⟨hf, hc⟩ := Option.or_eq_some_iff.mp h
    · simp only [handle, serve, create, hv hf]
      rfl
    · split at hc
      · rename_i hcontainer
        obtain rfl := Option.some.inj hc
        rw [Option.map_eq_none_iff] at hf
        simp only [handle, serve, create, Path.validate_eq_ok_iff.mpr ⟨hf, rfl⟩, hcontainer,
          if_true]
        rfl
      · cases hc
  · simp only [handle, serve, children, hv h]
    rfl
  · simp only [handle, serve, delete, hv h]
    rfl
  · cases h

/-- A closed store lists no children. -/
theorem children_of_closed (hc : m.closed = true)
    (h : (Request.call (.children p)).rejected? m.containers = none) :
    m.children p = .error (gone p) := by
  have hfault : Path.fault p false = none := Option.map_eq_none_iff.mp h
  simp only [children, Path.validate_eq_ok_iff.mpr ⟨hfault, rfl⟩, hc, if_true]
  rfl

/-- A closed store refuses every other request because its session is gone. -/
theorem handle_of_closed (hc : m.closed = true) (h : request.rejected? m.containers = none)
    (hcapability : request ≠ .call .capability) (hclose : request ≠ .close) :
    m.handle request = (m, .error (gone request.path : Failure)) := by
  have hv {isOpen : Bool} {path : String}
      (hf : (Path.fault path isOpen).map (Problem.invalidPath (.str path)) = none) :
      Path.validate path isOpen = .ok path :=
    Path.validate_eq_ok_iff.mpr ⟨Option.map_eq_none_iff.mp hf, rfl⟩
  cases request with
  | close => exact absurd rfl hclose
  | reap =>
    simp only [handle, reap, hc, if_true]
    rfl
  | setData path data version =>
    simp only [handle, setData, lookup, hc, if_true]
    rfl
  | call call =>
    cases call with
    | capability => exact absurd rfl hcapability
    | probe path =>
      simp only [handle, serve, probe, hc, if_true]
      rfl
    | create path data acl mode =>
      obtain ⟨hf, hcontainer⟩ := Option.or_eq_none_iff.mp h
      have hcontainer : (mode.isContainer && !m.containers) = false := by simpa using hcontainer
      simp only [handle, serve, create, hv hf, hcontainer, hc, Bool.false_eq_true, if_true,
        if_false]
      rfl
    | delete path version =>
      simp only [handle, serve, delete, hv h, hc, if_true]
      rfl
    | children path =>
      simp only [handle, serve, children_of_closed hc h]
      rfl

/-- A closed store refuses a call whatever the order is that children would be listed in. -/
theorem serve_of_closed (hc : m.closed = true) {call : Call}
    (h : (Request.call call).rejected? m.containers = none) (hcapability : call ≠ .capability)
    (arrange : List String → List String) :
    m.serve arrange call = (m, .error (gone call.path : Failure)) := by
  have hclose : Request.call call ≠ .close := by
    intro he
    cases he
  cases call with
  | children path =>
    rw [serve, children_of_closed hc h]
    rfl
  | _ => exact handle_of_closed hc h (fun he => hcapability (Request.call.inj he)) hclose

/-- Nothing changes a closed store. -/
theorem after_of_closed (hc : m.closed = true) (request : Request) : m.after request = m := by
  rw [after]
  by_cases hcapability : request = .call .capability
  · rw [hcapability]
    rfl
  by_cases hclose : request = .close
  · subst hclose
    change { m with closed := true } = m
    rw [← hc]
  cases h : request.rejected? m.containers with
  | some problem => rw [handle_of_rejected h]
  | none => rw [handle_of_closed hc h hcapability hclose]

/-- Nothing can be read off the nodes of a closed store. -/
theorem lookup_of_closed (hc : m.closed = true) (p : String) : m.lookup p = .error (gone p) := by
  rw [lookup, if_pos hc]

end Memory

/-- How an operation that carries out a task lets a failure out. The failure leaves a context inside
of the task's own one; a listing has none and lets it out as it is. -/
def Task.LetsOut (task : Task) (raised f : Failure) : Prop :=
  match task.context? with
  | none => f = raised
  | some own => raised.LeavesAs own f

/-- Whether a task has a context that cannot be written. -/
def Task.isOverlong (task : Task) : Bool := task.context?.any Context.isOverlong

/-- The first call of an operation that carries out a task at a valid path. -/
def Task.firstCall : Task → Call
  | mkdirs _ path _ _ _ => .probe path
  | deleteChildren _ path _ _ | sortedChildren path => .children path

/-- If the task's context can be written, no more than the notes of the failure change. -/
theorem Task.LetsOut.problem_eq {task : Task} {raised f : Failure} (h : task.LetsOut raised f)
    (hwritable : task.isOverlong = false) : f.problem = raised.problem := by
  cases task with
  | sortedChildren path => exact congrArg Failure.problem h
  | mkdirs | deleteChildren => exact (Failure.LeavesAs.problem_eq h hwritable).1

/-- At a valid path an operation begins with its first call. -/
theorem Task.exists_firstCall {task : Task} (hpath : Path.IsValid task.path) :
    ∃ resume, task.operation.next = .calling task.firstCall resume := by
  cases task with
  | mkdirs ambient path makeLast provider asContainers =>
    have hvalid : Path.validate path false = .ok path := hpath.validate
    obtain ⟨above, hupwards⟩ := Path.exists_upwards (Path.IsValid.ne_empty hpath)
    simp only [operation, Operation.mkdirs, Ensure.start, hvalid]
    rw [show Path.upwards path = path :: above from hupwards]
    exact ⟨_, rfl⟩
  | deleteChildren ambient path deleteSelf limit =>
    have hvalid : Path.validate path false = .ok path := hpath.validate
    simp only [operation, Operation.deleteChildren, Clear.start_of_validate hvalid]
    exact ⟨_, rfl⟩
  | sortedChildren path =>
    have hvalid : Path.validate path false = .ok path := hpath.validate
    simp only [operation, Operation.sortedChildren, Listing.start, hvalid]
    exact ⟨_, rfl⟩

namespace Operation

/-- An operation that carries out a task has the task's context. -/
def Carries (task : Task) (operation : Operation) : Prop :=
  match task.context? with
  | none => ∃ state, operation = .listing state
  | some own => (∀ state, operation ≠ .listing state) ∧ ∃ ambient, operation.Scoped ambient own

variable {operation : Operation} {task : Task} {containers : Bool}

/-- A task is carried out by its operation. -/
theorem carries_start (task : Task) : task.operation.Carries task := by
  cases task with
  | sortedChildren path => exact ⟨_, rfl⟩
  | mkdirs ambient path makeLast provider asContainers =>
    have hstart : Recursive ambient _ _ := .mkdirs path makeLast provider asContainers
    exact ⟨hstart.ne_listing, ambient, hstart.scoped⟩
  | deleteChildren ambient path deleteSelf limit =>
    have hstart : Recursive ambient _ _ := .deleteChildren path deleteSelf limit
    exact ⟨hstart.ne_listing, ambient, hstart.scoped⟩

/-- An operation has the context of its task after every answer. -/
theorem Carries.calling (h : operation.Carries task) {call : Call}
    {resume : Answer → List LogRecord × Operation} (hn : operation.next = .calling call resume)
    (answer : Answer) : (resume answer).2.Carries task := by
  unfold Carries at h ⊢
  cases hcontext : task.context? with
  | none =>
    rw [hcontext] at h
    obtain ⟨state, rfl⟩ := h
    cases state with
    | done => cases hn
    | waiting path =>
      cases hn
      exact ⟨_, rfl⟩
  | some own =>
    rw [hcontext] at h
    obtain ⟨hrecursive, ambient, hscoped⟩ := h
    exact ⟨ne_listing_of_calling hrecursive hn answer, ambient, hscoped.resume hn answer⟩

/-- An operation has the context of its task after it found out about containers. -/
theorem Carries.choosing (h : operation.Carries task)
    {resume : Except Failure CreateMode → List LogRecord × Operation}
    (hn : operation.next = .choosing resume) (answer : Except Failure CreateMode) :
    (resume answer).2.Carries task := by
  unfold Carries at h ⊢
  cases hcontext : task.context? with
  | none =>
    rw [hcontext] at h
    obtain ⟨state, rfl⟩ := h
    cases state <;> cases hn
  | some own =>
    rw [hcontext] at h
    obtain ⟨hrecursive, ambient, hscoped⟩ := h
    exact ⟨ne_listing_of_choosing hrecursive hn answer, ambient, hscoped.choosing hn answer⟩

/-- An unexpected failure is the end of it: the failure is let out. -/
theorem Carries.unexpected (h : operation.Carries task) {call : Call}
    {resume : Answer → List LogRecord × Operation} (hn : operation.next = .calling call resume)
    {failure : Failure} (hu : call.expects failure.problem = false) :
    (resume (.error failure)).2.next = .finished (.error (operation.leave failure)) ∧
      task.LetsOut failure (operation.leave failure) := by
  unfold Carries at h
  unfold Task.LetsOut
  cases hcontext : task.context? with
  | none =>
    rw [hcontext] at h
    obtain ⟨state, rfl⟩ := h
    have hscoped : (Operation.listing state).Scoped [] [] := trivial
    exact ⟨next_of_unexpected hscoped hn hu, rfl⟩
  | some own =>
    rw [hcontext] at h
    obtain ⟨hrecursive, ambient, hscoped⟩ := h
    refine ⟨next_of_unexpected hscoped hn hu, hscoped.leavesAs hrecursive (fun outcome he => ?_) _⟩
    rw [he] at hn
    cases hn

/-- An operation that carries out a task at valid paths, and creates containers only if the store
can. -/
structure Acceptable (containers : Bool) (task : Task) (operation : Operation) : Prop where
  /-- It has the task's context. -/
  carries : operation.Carries task
  /-- It keeps to a valid path. -/
  confined : ∃ (demand : Tree.Demand) (full : String), Path.IsValid full ∧
    demand.Confines full operation
  /-- It creates nodes in modes that the store knows. -/
  uses : ∃ wants, operation.Uses wants fun mode => mode.isContainer = true → containers = true

/-- A task at a valid path is carried out acceptably. -/
theorem acceptable_start (hpath : Path.IsValid task.path) :
    task.operation.Acceptable containers task := by
  refine ⟨carries_start task, ?_, _, uses_start task fun _ hc => by cases hc⟩
  cases task with
  | mkdirs => exact ⟨.mkdirs .null, _, hpath, Ensure.confined_start hpath⟩
  | deleteChildren =>
    exact ⟨.deleteChildren .null, _, hpath, Clear.confined_enter (fun _ => hpath.isAbove) (by simp)⟩
  | sortedChildren path =>
    refine ⟨.sortedChildren, path, hpath, ?_⟩
    have hvalid : Path.validate path false = .ok path := hpath.validate
    simp only [Task.operation, sortedChildren, Listing.start, hvalid]
    rfl

/-- The calls of an acceptable operation are not rejected for their arguments. -/
theorem Acceptable.calling (h : operation.Acceptable containers task) {call : Call}
    {resume : Answer → List LogRecord × Operation} (hn : operation.next = .calling call resume) :
    call ≠ .capability ∧ (Memory.Request.call call).rejected? containers = none ∧
      ∀ answer, (resume answer).2.Acceptable containers task := by
  obtain ⟨hcarries, ⟨demand, full, hfull, hconfines⟩, wants, huses⟩ := h
  obtain ⟨hpermits, hconfined⟩ := hconfines.calling hn
  obtain ⟨hsuits, hused⟩ := huses.calling (fun _ hc => by cases hc) hn
  refine ⟨?_, ?_, fun answer =>
    ⟨hcarries.calling hn answer, ⟨demand, full, hfull, hconfined answer⟩, wants, hused answer⟩⟩
  · rintro rfl
    exact hsuits
  · cases call with
    | probe path => rfl
    | capability => rfl
    | children path =>
      have hpath : Path.IsValid path := by
        cases demand with
        | mkdirs => cases hpermits
        | deleteChildren => exact hpermits.1
        | sortedChildren =>
          obtain rfl : path = full := hpermits
          exact hfull
      simp [Memory.Request.rejected?, hpath.fault]
    | delete path version =>
      have hpath : Path.IsValid path := by
        cases demand with
        | deleteChildren => exact hpermits.1
        | mkdirs | sortedChildren => cases hpermits
      simp [Memory.Request.rejected?, hpath.fault]
    | create path data acl mode =>
      cases demand with
      | mkdirs makeLast =>
        obtain ⟨hmem, hplain⟩ := hpermits
        have hpath := (Path.isAbove_of_mem_prefixes hfull hmem).valid
        have hcontainer : (mode.isContainer && !containers) = false := by
          cases hm : mode.isContainer with
          | false => rfl
          | true => simp [hsuits.2 hm]
        simp [Memory.Request.rejected?, hplain, hpath.fault, hcontainer]
      | deleteChildren | sortedChildren => cases hpermits

/-- The calls of an operation are not rejected after it was told the mode that stands for what the
store can do. -/
theorem Acceptable.choosing (h : operation.Acceptable containers task)
    {resume : Except Failure CreateMode → List LogRecord × Operation}
    (hn : operation.next = .choosing resume) :
    (resume (.ok (Client.modeOf (.bool containers)))).2.Acceptable containers task := by
  obtain ⟨hcarries, ⟨demand, full, hfull, hconfines⟩, wants, huses⟩ := h
  refine ⟨hcarries.choosing hn _, ⟨demand, full, hfull, (hconfines.choosing hn).2 _ ?_⟩, wants,
    (huses.choosing hn).2 _ ?_⟩
  · rintro mode hmode
    obtain rfl := Except.ok.inj hmode
    exact Respondent.isSequential_modeOf _
  · rintro mode hmode hcontainer
    obtain rfl := Except.ok.inj hmode
    cases containers with
    | true => rfl
    | false => cases hcontainer

/-- How many turns an operation has left at most when the store is closed. -/
def turnsToFailure (operation : Operation) : Nat :=
  match operation.next with
  | .finished _ => 0
  | .calling .. => 1
  | .choosing _ => 2

theorem turnsToFailure_choosing {resume : Except Failure CreateMode → List LogRecord × Operation}
    (hn : operation.next = .choosing resume) (mode : CreateMode) :
    (resume (.ok mode)).2.turnsToFailure ≤ 1 := by
  cases operation with
  | ensure state =>
    cases state with
    | choosing job missing =>
      cases hn
      cases missing with
      | nil => exact Nat.zero_le 1
      | cons path below => exact Nat.le_refl 1
    | probing | creating | done => cases hn
  | clear state => cases state <;> cases hn
  | listing state => cases state <;> cases hn

end Operation

namespace Concurrency

/-- The requests about nodes that an operation made. -/
def requestsOf (number : Nat) (history : List Event) : List Event :=
  history.filter fun event =>
    decide (event.operation = some number ∧ event.request ≠ .call .capability)

theorem requestsOf_append (number : Nat) (earlier later : List Event) :
    requestsOf number (earlier ++ later) = requestsOf number earlier ++ requestsOf number later :=
  List.filter_append ..

namespace System

/-- The operations carry out tasks and have only requests that a store with or without containers
does not reject for their arguments. -/
structure Acceptable (containers : Bool) (tasks : List Task) (s : System) : Prop where
  /-- The store is of this kind. -/
  memory : s.memory.containers = containers
  /-- The mode for containers is the store's own, if it is known. -/
  known : ∀ mode, s.shared.known = some mode → mode = Client.modeOf (.bool containers)
  /-- So are the modes of all operations. -/
  operations : List.Forall₂ (fun task operation => operation.Acceptable containers task) tasks
    s.operations

variable {s : System} {containers : Bool} {tasks : List Task} {task : Task} {number : Nat}
  {operation : Operation}

theorem Acceptable.start (m : Memory) (asked : Bool) (h : ∀ task ∈ tasks, Path.IsValid task.path) :
    (System.start m asked (tasks.map Task.operation)).Acceptable m.containers tasks where
  memory := rfl
  known mode hmode := by
    cases asked with
    | true => exact (Option.some.inj hmode).symm
    | false => cases hmode
  operations :=
    List.forall₂_map_right_iff.mpr <| List.forall₂_same.mpr fun task htask =>
      Operation.acceptable_start (h task htask)

theorem Acceptable.containerMode (h : s.Acceptable containers tasks) :
    s.containerMode = Client.modeOf (.bool containers) := by
  rw [System.containerMode, h.memory]
  cases hk : s.shared.known with
  | none => rfl
  | some mode => exact h.known mode hk

/-- Everything stays acceptable whatever the move. -/
theorem Acceptable.step (h : s.Acceptable containers tasks) (move : Move) :
    (s.step move).Acceptable containers tasks := by
  cases move with
  | foreign request =>
    exact ⟨(Memory.containers_after request).trans h.memory, h.known, h.operations⟩
  | turn turn =>
    obtain ⟨number, order⟩ := turn
    cases ho : s.operations[number]? with
    | none => rwa [step_of_absent ho]
    | some operation =>
      obtain ⟨task, htask, hoperation⟩ := exists_call h.operations ho
      cases hn : operation.next with
      | finished outcome => rwa [step_of_finished ho hn]
      | choosing resume =>
        obtain ⟨asked, -, he⟩ := step_of_choosing ho hn order
        rw [he, h.containerMode]
        exact ⟨h.memory, fun mode hmode => (Option.some.inj hmode).symm,
          forall₂_set h.operations (fun _ _ => id) htask (hoperation.choosing hn)⟩
      | calling call resume =>
        have hcontainers := Memory.containers_after (m := s.memory) (.call call)
        rw [← Memory.serve_fst order.apply] at hcontainers
        rw [step_of_calling ho hn]
        exact ⟨hcontainers.trans h.memory, h.known,
          forall₂_set h.operations (fun _ _ => id) htask ((hoperation.calling hn).2.2 _)⟩

/-- Everything stays acceptable along a run. -/
theorem Acceptable.run (h : s.Acceptable containers tasks) (moves : List Move) :
    (s.run moves).Acceptable containers tasks :=
  run_induction h fun _ hs move _ => hs.step move

/-- Another operation begins. -/
def begin (s : System) (task : Task) : System :=
  { s with operations := s.operations ++ [task.operation] }

/-- An operation at a valid path may begin at any time. -/
theorem Acceptable.begin (h : s.Acceptable containers tasks) (hpath : Path.IsValid task.path) :
    (s.begin task).Acceptable containers (tasks ++ [task]) :=
  ⟨h.memory, h.known, List.rel_append h.operations (.cons (Operation.acceptable_start hpath) .nil)⟩

/-- An operation whose next step is a call ends in its next turn. -/
theorem Acceptable.turn_calling (h : s.Acceptable containers tasks) (hc : s.memory.closed = true)
    (ho : s.operations[number]? = some operation) {call : Call}
    {resume : Answer → List LogRecord × Operation} (hn : operation.next = .calling call resume)
    (order : Arrangement) :
    let gone : Failure := Memory.gone call.path
    call ≠ .capability ∧
    (s.step (.turn ⟨number, order⟩)).memory = s.memory ∧
    (s.step (.turn ⟨number, order⟩)).history =
      s.history ++ [⟨some number, .call call, .error gone⟩] ∧
    (s.step (.turn ⟨number, order⟩)).outcome number = some (.error (operation.leave gone)) ∧
    ∃ task, tasks[number]? = some task ∧ task.LetsOut gone (operation.leave gone) := by
  intro gone
  obtain ⟨task, htask, hoperation⟩ := exists_call h.operations ho
  obtain ⟨hcapability, hrejected, -⟩ := hoperation.calling hn
  rw [← h.memory] at hrejected
  have hserve := Memory.serve_of_closed hc hrejected hcapability order.apply
  have hunexpected : call.expects gone.problem = false := by cases call <;> rfl
  obtain ⟨hends, hout⟩ := hoperation.carries.unexpected hn hunexpected
  obtain ⟨hlt, -⟩ := List.getElem?_eq_some_iff.mp ho
  rw [step_of_calling ho hn, hserve]
  refine ⟨hcapability, rfl, rfl, ?_, task, htask, hout⟩
  rw [outcome, List.getElem?_set_self hlt, Option.bind_some, Operation.outcome?, hends]

/-- What an operation does once the store is closed: it makes no request, or it ends with the first
that it makes. -/
def Stops (task : Task) (number : Nat) (after : System) (more : List Event) : Prop :=
  requestsOf number more = [] ∨ ∃ call f,
    requestsOf number more =
      [⟨some number, .call call, .error (Memory.gone call.path : Failure)⟩] ∧
    after.outcome number = some (.error f) ∧ task.LetsOut (Memory.gone call.path : Failure) f

/-- How a move of a system on a closed store bears on an operation: nothing is heard of it, or it
was not done yet and stops. -/
theorem Acceptable.step_closed (h : s.Acceptable containers tasks) (hc : s.memory.closed = true)
    (move : Move) :
    (s.step move).memory = s.memory ∧ ∃ more, (s.step move).history = s.history ++ more ∧
      ∀ number task, tasks[number]? = some task → requestsOf number more = [] ∨
        s.outcome number = none ∧ Stops task number (s.step move) more := by
  have hothers {number other : Nat} (hne : other ≠ number) (call : Call) (answer : Answer) :
      requestsOf other [⟨some number, .call call, answer⟩] = [] := by
    simp [requestsOf, Ne.symm hne]
  cases move with
  | foreign request =>
    exact ⟨Memory.after_of_closed hc request, [_], rfl, fun number _ _ => .inl rfl⟩
  | turn turn =>
    obtain ⟨number, order⟩ := turn
    cases ho : s.operations[number]? with
    | none => exact ⟨by rw [step_of_absent ho], [], by rw [step_of_absent ho, List.append_nil],
        fun _ _ _ => .inl rfl⟩
    | some operation =>
      cases hn : operation.next with
      | finished outcome =>
        exact ⟨by rw [step_of_finished ho hn], [], by rw [step_of_finished ho hn, List.append_nil],
          fun _ _ _ => .inl rfl⟩
      | choosing resume =>
        obtain ⟨asked, hasked, he⟩ := step_of_choosing ho hn order
        rw [he]
        refine ⟨rfl, asked, rfl, fun other _ _ => .inl ?_⟩
        rw [requestsOf, List.filter_eq_nil_iff]
        intro event hmem
        simp [hasked event hmem]
      | calling call resume =>
        obtain ⟨hcapability, hmemory, hhistory, hout, task, htask, hlets⟩ :=
          h.turn_calling hc ho hn order
        refine ⟨hmemory, _, hhistory, fun other task' htask' => ?_⟩
        by_cases hother : other = number
        · subst hother
          obtain rfl := Option.some.inj (htask'.symm.trans htask)
          refine .inr ⟨?_, .inr ⟨call, _, ?_, hout, hlets⟩⟩
          · rw [outcome, ho, Option.bind_some, Operation.outcome?, hn]
          · simp [requestsOf, hcapability]
        · exact .inl (hothers hother _ _)

/-- Whatever moves follow, a closed store keeps its nodes and every operation stops. -/
theorem Acceptable.run_closed (h : s.Acceptable containers tasks) (hc : s.memory.closed = true)
    (moves : List Move) :
    (s.run moves).memory = s.memory ∧
      ∃ more, (s.run moves).history = s.history ++ more ∧
        ∀ number task, tasks[number]? = some task → Stops task number (s.run moves) more := by
  induction moves using List.reverseRecOn with
  | nil => exact ⟨rfl, [], (List.append_nil _).symm, fun _ _ _ => .inl rfl⟩
  | append_singleton moves move ih =>
    obtain ⟨hmemory, more, hhistory, hstops⟩ := ih
    have hrun := h.run moves
    obtain ⟨hmemory', new, hnew, hstep⟩ := hrun.step_closed (by rw [hmemory]; exact hc) move
    rw [run_concat]
    refine ⟨hmemory'.trans hmemory, more ++ new, ?_, fun number task htask => ?_⟩
    · rw [hnew, hhistory, List.append_assoc]
    rw [Stops, requestsOf_append]
    obtain hsilent | ⟨call, f, hrequests, hout, hlets⟩ := hstops number task htask
    · rw [hsilent, List.nil_append]
      exact (hstep number task htask).elim .inl And.right
    · obtain hnone | ⟨hrunning, -⟩ := hstep number task htask
      · rw [hnone, List.append_nil]
        exact .inr ⟨call, f, hrequests, outcome_step hout move, hlets⟩
      · rw [hout] at hrunning
        cases hrunning

/-- An operation is done after two turns at most: it may ask for the mode for containers before it
makes a call. -/
theorem Acceptable.outcome_closed (h : s.Acceptable containers tasks) (hc : s.memory.closed = true)
    (hnumber : number < s.operations.length) {moves : List Move}
    (hturns : 2 ≤ moves.countP (Move.isTurnOf number)) :
    ∃ outcome, (s.run moves).outcome number = some outcome := by
  have hkeeps (s : System) (hs : s.Acceptable containers tasks ∧ s.memory.closed = true) :
      ∀ move ∈ moves,
        (s.step move).Acceptable containers tasks ∧ (s.step move).memory.closed = true :=
    fun move _ => ⟨hs.1.step move, by rw [(hs.1.step_closed hs.2 move).1, hs.2]⟩
  have hrank (s : System) (order : Arrangement) (operation : Operation)
      (hs : s.Acceptable containers tasks ∧ s.memory.closed = true)
      (ho : s.operations[number]? = some operation) (hnone : operation.outcome? = none) :
      ∃ rest, (s.step (.turn ⟨number, order⟩)).operations[number]? = some rest ∧
        rest.turnsToFailure < operation.turnsToFailure := by
    obtain ⟨hlt, -⟩ := List.getElem?_eq_some_iff.mp ho
    rw [Operation.turnsToFailure.eq_def operation]
    cases hn : operation.next with
    | finished outcome =>
      rw [Operation.outcome?, hn] at hnone
      cases hnone
    | choosing resume =>
      obtain ⟨asked, -, he⟩ := step_of_choosing ho hn order
      rw [he]
      exact ⟨_, List.getElem?_set_self hlt,
        Nat.lt_succ_of_le (Operation.turnsToFailure_choosing hn s.containerMode)⟩
    | calling call resume =>
      obtain ⟨-, -, -, hout, -⟩ := hs.1.turn_calling hs.2 ho hn order
      obtain ⟨rest, hrest, hdone⟩ := Option.bind_eq_some_iff.mp hout
      refine ⟨rest, hrest, ?_⟩
      rw [Operation.turnsToFailure, Operation.next_of_outcome? hdone]
      exact Nat.one_pos
  have hle : s.operations[number].turnsToFailure ≤ 2 := by
    rw [Operation.turnsToFailure]
    split <;> decide
  exact outcome_of_turns hkeeps hrank ⟨h, hc⟩ (List.getElem?_eq_getElem hnumber) (hle.trans hturns)

/-- A task that begins after the store was closed makes its first call in its first turn, whatever
else happens before that, and ends with what the call is refused with. -/
theorem Acceptable.first_turn_closed {task : Task} (h : s.Acceptable containers tasks)
    (hc : s.memory.closed = true) (hpath : Path.IsValid task.path) {during : List Move}
    (hduring : ∀ move ∈ during, move.isTurnOf s.operations.length = false) (order : Arrangement) :
    let gone : Failure := (Memory.gone task.path : Problem)
    let u := (s.begin task).run during
    let v := u.step (.turn ⟨s.operations.length, order⟩)
    v.history = u.history ++ [⟨some s.operations.length, .call task.firstCall, .error gone⟩] ∧
      v.outcome s.operations.length = some (.error (task.operation.leave gone)) ∧
      task.LetsOut gone (task.operation.leave gone) := by
  intro gone u v
  have hu : u.Acceptable containers (tasks ++ [task]) := (h.begin hpath).run during
  obtain ⟨hkept, -⟩ := (h.begin hpath).run_closed hc during
  have huc : u.memory.closed = true := by
    rw [show u.memory = (s.begin task).memory from hkept]
    exact hc
  have ho : u.operations[s.operations.length]? = some task.operation := by
    rw [System.operations_run hduring]
    exact List.getElem?_concat_length
  obtain ⟨resume, hn⟩ := Task.exists_firstCall hpath
  obtain ⟨-, -, hhistory, hout, task', htask', hlets⟩ := hu.turn_calling huc ho hn order
  have hfirst : task.firstCall.path = task.path := by cases task <;> rfl
  have hlast : (tasks ++ [task])[s.operations.length]? = some task := by
    rw [show s.operations.length = tasks.length from h.operations.length_eq.symm]
    exact List.getElem?_concat_length
  obtain rfl := Option.some.inj (hlast.symm.trans htask')
  rw [hfirst] at hhistory hout hlets
  exact ⟨hhistory, hout, hlets⟩

end System

/-- Once a store is closed, at whatever point of a run, its nodes stay as they are and are still
listed, and every request about them is refused: if not for its arguments, then because the session
is gone. Each operation at a valid path ends with this report in the first call that it makes from
then on, whatever it was at and whatever its arguments are, and it takes two turns at most. One that
begins later makes its first call in its first turn, and ends with that. The report leaves the
operation's context, so that no more than its notes change if the context can be written. -/
theorem closed_for_good (m : Memory) (asked : Bool) {tasks : List Task}
    (htasks : ∀ task ∈ tasks, Path.IsValid task.path) {before : List Move}
    (hclosed : ((System.start m asked (tasks.map Task.operation)).run before).memory.closed = true)
    (later : List Move) :
    let s := (System.start m asked (tasks.map Task.operation)).run before
    let t := s.run later
    let gone (p : String) : Failure := (Memory.gone p : Problem)
    t.memory = s.memory ∧ (∀ p, p ∈ t.memory.paths ↔ s.memory.has p = true ∧ p ≠ Path.root) ∧
    (∀ request, request ≠ .call .capability → request ≠ .close →
      ∃ problem : Problem, t.memory.handle request = (t.memory, .error problem) ∧
        (request.rejected? m.containers = some problem ∧
            (problem.kind = "InvalidPath" ∨ problem.kind = "ValueError") ∨
          request.rejected? m.containers = none ∧ problem = Memory.gone request.path)) ∧
    (∀ p, t.memory.lookup p = .error (Memory.gone p)) ∧
    (∃ more, t.history = s.history ++ more ∧
      ∀ number task, tasks[number]? = some task → System.Stops task number t more) ∧
    (∀ number task, tasks[number]? = some task →
      ∃ operation, t.operations[number]? = some operation ∧
        (∀ call resume, operation.next = .calling call resume → ∀ order,
          let f := operation.leave (gone call.path)
          (t.step (.turn ⟨number, order⟩)).outcome number = some (.error f) ∧
            task.LetsOut (gone call.path) f ∧
            (task.isOverlong = false → f.problem = Memory.gone call.path)) ∧
        ∀ moves, 2 ≤ moves.countP (Move.isTurnOf number) →
          ∃ outcome, (t.run moves).outcome number = some outcome) ∧
    ∀ task, Path.IsValid task.path → ∀ during,
      (∀ move ∈ during, move.isTurnOf t.operations.length = false) → ∀ order,
        let number := t.operations.length
        let u := (t.begin task).run during
        let v := u.step (.turn ⟨number, order⟩)
        let f := task.operation.leave (gone task.path)
        v.history = u.history ++ [⟨some number, .call task.firstCall, .error (gone task.path)⟩] ∧
          v.outcome number = some (.error f) ∧ task.LetsOut (gone task.path) f ∧
          (task.isOverlong = false → f.problem = Memory.gone task.path) := by
  intro s t gone
  have hs : s.Acceptable m.containers tasks := (System.Acceptable.start m asked htasks).run before
  have ht : t.Acceptable m.containers tasks := hs.run later
  obtain ⟨hmemory, hhistory⟩ := hs.run_closed hclosed later
  change t.memory = s.memory at hmemory
  have hc : t.memory.closed = true := by rw [hmemory, hclosed]
  refine ⟨hmemory, fun p => by rw [hmemory, Memory.mem_paths], fun request hcapability hclose => ?_,
    Memory.lookup_of_closed hc, hhistory, fun number task htask => ?_,
    fun task hpath during hduring order => ?_⟩
  · rw [← ht.memory]
    cases hrejected : request.rejected? t.memory.containers with
    | some problem =>
      exact ⟨problem, Memory.handle_of_rejected hrejected,
        .inl ⟨rfl, Memory.Request.kind_of_rejected hrejected⟩⟩
    | none =>
      exact ⟨_, Memory.handle_of_closed hc hrejected hcapability hclose, .inr ⟨rfl, rfl⟩⟩
  · have hlength := ht.operations.length_eq
    obtain ⟨hnumber, -⟩ := List.getElem?_eq_some_iff.mp htask
    rw [hlength] at hnumber
    have ho := List.getElem?_eq_getElem hnumber
    refine ⟨_, ho, fun call resume hn order => ?_, fun moves hturns => ?_⟩
    · obtain ⟨-, -, -, hout, task', htask', hlets⟩ := ht.turn_calling hc ho hn order
      obtain rfl := Option.some.inj (htask.symm.trans htask')
      exact ⟨hout, hlets, hlets.problem_eq⟩
    · exact ht.outcome_closed hc hnumber hturns
  · obtain ⟨hfirst, hout, hlets⟩ := ht.first_turn_closed hc hpath hduring order
    exact ⟨hfirst, hout, hlets, hlets.problem_eq⟩

/-- A store is closed while a recursive creation looks for the deepest node and a recursive deletion
is about to delete the last one. A listing begins afterwards. -/
theorem closed_for_good_meanwhile :
    let turn (number : Nat) : Move := .turn ⟨number, id, fun _ => .refl _⟩
    let tasks : List Task := [.mkdirs [] "/a/b" none none (some (.bool true)),
      .deleteChildren [] "/c" (some (.bool true)) (some (.int 1))]
    let before := [.foreign (.call (.create "/c" [] [] .persistent)), turn 0, turn 1,
      .foreign .close]
    let s := (System.start {} false (tasks.map Task.operation)).run before
    let t := s.run [turn 0, turn 1, turn 0]
    (∀ number < 2, ∃ f, t.outcome number = some (.error f) ∧
      f.problem.kind = "StoreUnavailable") ∧
    ∃ f, ((t.begin (.sortedChildren "/c")).step (turn t.operations.length)).outcome
        t.operations.length = some (.error f) ∧ f.problem.kind = "StoreUnavailable" := by
  intro turn tasks before s t
  have htasks : ∀ task ∈ tasks, Path.IsValid task.path := by
    intro task hmem
    obtain rfl | rfl : task = _ ∨ task = _ := by simpa [tasks] using hmem
    · exact (by decide : Path.IsValid "/a/b")
    · exact (by decide : Path.IsValid "/c")
  have hwritable : ∀ task ∈ tasks, task.isOverlong = false := by decide +kernel
  obtain ⟨-, -, -, -, ⟨more, hhistory, hstops⟩, -, hlater⟩ :=
    closed_for_good {} false htasks (by decide +kernel : s.memory.closed = true)
      [turn 0, turn 1, turn 0]
  change t.history = s.history ++ more at hhistory
  constructor
  · intro number hnumber
    have hmore : ∀ number < 2, (requestsOf number s.history).length <
        (requestsOf number t.history).length := by
      decide +kernel
    have hlonger := hmore number hnumber
    have htask := List.getElem?_eq_getElem (l := tasks) hnumber
    obtain hnone | ⟨call, f, -, hout, hlets⟩ := hstops number _ htask
    · rw [hhistory, requestsOf_append, hnone, List.append_nil] at hlonger
      omega
    · refine ⟨f, hout, ?_⟩
      rw [hlets.problem_eq (hwritable _ (List.mem_of_getElem? htask))]
      rfl
  · obtain ⟨-, hout, -, hproblem⟩ := hlater (.sortedChildren "/c") (by decide) []
      (List.forall_mem_nil _) ⟨id, fun _ => .refl _⟩
    refine ⟨_, hout, ?_⟩
    rw [hproblem rfl]
    rfl

/-- If the limit has too many digits to be written, a deletion on a closed store ends with the
failure to write its context instead. -/
theorem gone_replaced :
    let turn : Move := .turn ⟨0, id, fun _ => .refl _⟩
    let task : Task := .deleteChildren [] "/a" none (some (.int (2 ^ 14400 : Nat)))
    let s := (System.start { closed := true } false [task.operation]).step turn
    s.outcome 0 = some (.error Failure.overlong) ∧
      Failure.overlong.problem.kind = "ValueError" ∧
      ∀ p, Failure.overlong.problem ≠ Memory.gone p := by
  have hlong := Value.isOverlong_two_pow
  generalize (2 ^ 14400 : Nat) = n at hlong ⊢
  intro turn task s
  have hpath : Path.IsValid task.path := (by decide : Path.IsValid "/a")
  have hown := Operation.covers_deletionContext [] "/a" none (some (.int n)) hlong
  obtain ⟨resume, hn⟩ := Task.exists_firstCall hpath
  have htasks : ∀ other ∈ [task], Path.IsValid other.path := by simpa using hpath
  have hstart := System.Acceptable.start { closed := true } false htasks
  have ho : (System.start { closed := true } false [task.operation]).operations[0]? =
      some task.operation := rfl
  obtain ⟨-, -, -, hout, -⟩ := hstart.turn_calling rfl ho hn ⟨id, fun _ => .refl _⟩
  have hlisting : task.operation = .clear (.listing _ ⟨"/a", _, 1, _, [], []⟩ []) :=
    congrArg Operation.clear (Clear.start_of_validate hpath.validate _ _ _ _)
  rw [hlisting] at hout
  let gone : Failure := (Memory.gone "/a" : Problem)
  have hreplaced : gone.leaving _ = Failure.overlong := Failure.leaving_of_overlong rfl rfl hown
  exact ⟨hout.trans (congrArg (some ∘ Except.error) hreplaced), rfl, fun p he => by cases he⟩

end Concurrency

end TreeStore
