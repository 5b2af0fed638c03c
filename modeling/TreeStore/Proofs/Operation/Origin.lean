import TreeStore.Proofs.Operation.Propagation

/-!
# Where failures of recursive operations come from

Recursive creation and deletion fail for three reasons only: a path or an answer makes no sense, the
last call failed in a way that nobody expects, or a node had children once more when the attempts
were used up. Whatever else the store answered has no part in the failure. On its way out the
failure is annotated, or replaced if the context cannot be written.
-/

namespace TreeStore

/-- Whether a problem is one with a path or a value, and no outcome of a call. -/
def Problem.isOwn : Problem → Bool
  | invalidPath .. | wrongType | noMember => true
  | _ => false

/-- Where a failure that is raised after some exchanges comes from. -/
inductive Failure.Origin (exchanges : List Exchange) : Failure → Prop
  /-- The operation raises it over a path or a value. -/
  | own (problem : Problem) (isOwn : problem.isOwn = true) : Origin exchanges problem
  /-- It is the unexpected failure of the last call. -/
  | heard (before : List Exchange) (call : Call) (failure : Failure)
      (exchanges_eq : exchanges = before ++ [⟨call, .error failure⟩])
      (unexpected : call.expects failure.problem = false) : Origin exchanges failure
  /-- A node was found to have children in the last attempt. -/
  | exhausted (before : List Exchange) (path : String) (attempts : Int) (failure : Failure)
      (exchanges_eq : exchanges = before ++ [⟨.delete path anyVersion, .error failure⟩])
      (full : failure.problem.isNotEmpty = true) :
      Origin exchanges
        { problem := .retriesExhausted path attempts, source := some failure.problem }

namespace Operation

/-- If the operation is done with a failure, then that is one with an origin, as it left the
operation. -/
def Explained (own : Context) (exchanges : List Exchange) (operation : Operation) : Prop :=
  ∀ f : Failure, operation.next = .finished (.error f) →
    ∃ raised : Failure, raised.Origin exchanges ∧ raised.LeavesAs own f

variable {ambient own : Context} {operation : Operation} {call : Call}
  {resume : Answer → List LogRecord × Operation} {exchanges : List Exchange} {limit : Value}
  {frame : Clear.Frame} {outer levels : List Clear.Frame} {failure : Failure} {job : Ensure.Job}

/-- Creation fails with what was raised, in its own context. -/
theorem explained_ensure_failed (hjob : job.context = own) (horigin : failure.Origin exchanges) :
    (ensure (Ensure.failed job failure)).Explained own exchanges := by
  intro f hf
  obtain rfl := Except.error.inj (Next.finished.inj hf)
  refine ⟨failure, horigin, job.context, rfl, ?_⟩
  rw [hjob]
  exact id

/-- Going on to create nodes is no failure. -/
theorem explained_ensure_create (job : Ensure.Job) (mode : CreateMode) (missing : List String) :
    (ensure (Ensure.create job mode missing)).Explained own exchanges := by
  intro f hf
  cases missing <;> cases hf

/-- Having found the deepest node that is there is no failure. -/
theorem explained_ensure_found (job : Ensure.Job) (missing : List String) :
    (ensure (Ensure.found job missing)).Explained own exchanges := by
  cases hcontainers : job.asContainers with
  | true =>
    intro f hf
    simp [Ensure.found, hcontainers, next, Ensure.next, Next.map] at hf
  | false =>
    simp only [Ensure.found, hcontainers, Bool.false_eq_true, if_false]
    exact explained_ensure_create job .persistent _

/-- Going on to look for that node is no failure. -/
theorem explained_ensure_probe (job : Ensure.Job) (missing above : List String) :
    (ensure (Ensure.probe job missing above)).Explained own exchanges := by
  cases above with
  | nil => exact explained_ensure_found job missing
  | cons path above => exact fun f hf => by cases hf

/-- A path that is not valid is a problem of the operation's own. -/
theorem isOwn_of_validate {path : String} {isOpen : Bool} {problem : Problem}
    (h : Path.validate path isOpen = .error problem) : problem.isOwn = true := by
  unfold Path.validate Path.checked at h
  dsimp only at h
  split at h
  · cases h
  · cases h
    rfl

/-- What fails for a list fails for one of its members. -/
theorem exists_of_mapM_eq_error {α β ε : Type} {f : α → Except ε β} {xs : List α} {e : ε}
    (h : xs.mapM f = .error e) : ∃ x ∈ xs, f x = .error e := by
  induction xs with
  | nil => cases h
  | cons x rest ih =>
    rw [List.mapM_cons] at h
    cases hx : f x with
    | error e' =>
      rw [hx] at h
      cases h
      exact ⟨x, List.mem_cons_self, hx⟩
    | ok y =>
      cases hrest : rest.mapM f with
      | error e' =>
        rw [hx, hrest] at h
        cases h
        obtain ⟨z, hz, hfail⟩ := ih hrest
        exact ⟨z, List.mem_cons_of_mem _ hz, hfail⟩
      | ok ys =>
        rw [hx, hrest] at h
        cases h

/-- What cannot be joined has a member that is no text. -/
theorem noMember_of_joinValues {vs : List Value} {problem : Problem}
    (h : Path.joinValues vs = .error problem) : problem = .noMember := by
  unfold Path.joinValues at h
  generalize hnames : (List.mapM _ (vs.filter Value.truthy) : Except Problem (List String)) =
    names at h
  cases names with
  | ok names => cases h
  | error p =>
    cases h
    obtain ⟨v, -, hv⟩ := exists_of_mapM_eq_error hnames
    split at hv
    · cases hv
    · cases hv
      rfl

/-- A failure to join names is one of the operation's own. -/
theorem isOwn_of_joinValues {vs : List Value} {problem : Problem}
    (h : Path.joinValues vs = .error problem) : problem.isOwn = true := by
  rw [noMember_of_joinValues h]
  rfl

/-- A level of a deletion fails with what was raised, in a context of its own. -/
theorem explained_clear_failed (hnested : Clear.Nested limit ambient own (frame :: outer))
    (hown : Clear.Covers limit own) (horigin : failure.Origin exchanges) :
    (clear (Clear.failed failure frame outer)).Explained own exchanges := by
  intro f hf
  rw [Clear.failed_eq hnested hown] at hf
  obtain rfl := Except.error.inj (Next.finished.inj hf)
  exact ⟨failure, horigin, frame.context, rfl, hnested.isOverlong_own hown⟩

/-- A level begins with its path, which may make no sense. -/
theorem explained_clear_enter {outside context : Context} {path : String} {deleteSelf : Bool}
    (hnested :
      Clear.Nested limit ambient own (⟨path, deleteSelf, 1, context, outside, []⟩ :: outer))
    (hown : Clear.Covers limit own) :
    (clear (Clear.enter limit outside context path deleteSelf outer)).Explained own exchanges := by
  unfold Clear.enter
  dsimp only
  split
  · rename_i problem hproblem
    exact explained_clear_failed hnested hown (.own problem (isOwn_of_validate hproblem))
  · exact fun f hf => by cases hf

/-- The name of a child may make no sense, nor the path that it leads to. -/
theorem explained_clear_enterChild (hnested : Clear.Nested limit ambient own (frame :: outer))
    (hown : Clear.Covers limit own) (child : Value) :
    (clear (Clear.enterChild limit frame child outer)).Explained own exchanges := by
  unfold Clear.enterChild
  split
  · rename_i problem hproblem
    exact explained_clear_failed hnested hown (.own problem (isOwn_of_joinValues hproblem))
  · exact explained_clear_enter (.child hnested (hnested.childContext_eq _) rfl) hown

/-- A level that returns leads to another child or to a level that returns. -/
theorem explained_clear_proceed (hown : Clear.Covers limit own) (attempts : Nat)
    (h : levels = [] ∨ Clear.Nested limit ambient own levels) :
    (clear (Clear.proceed limit attempts (Clear.active ambient levels) levels)).Explained own
      exchanges := by
  induction levels generalizing attempts with
  | nil => exact fun f hf => by cases hf
  | cons frame outer ih =>
    have hnested : Clear.Nested limit ambient own (frame :: outer) := h.resolve_left (by simp)
    rw [Clear.proceed, Clear.active]
    split
    · rename_i child rest _
      have hframe : Clear.Nested limit ambient own ({ frame with pending := rest } :: outer) :=
        hnested.replace rfl rfl rfl
      exact explained_clear_enterChild hframe hown child
    · split
      · exact fun f hf => by cases hf
      · rw [hnested.outside_eq]
        exact ih frame.attempts hnested.tail

/-- A level that is done with its node returns. -/
theorem explained_clear_leave (hnested : Clear.Nested limit ambient own (frame :: outer))
    (hown : Clear.Covers limit own) (message : String) :
    (clear (Clear.leave limit frame outer message).2).Explained own exchanges := by
  rw [Clear.leave, hnested.outside_eq]
  exact explained_clear_proceed hown frame.attempts hnested.tail

/-- A level whose node still has children gives up, or tries once more. -/
theorem explained_clear_retry (hnested : Clear.Nested limit ambient own (frame :: outer))
    (hown : Clear.Covers limit own) (hfull : failure.problem.isNotEmpty = true) :
    (clear (Clear.retry limit frame outer failure).2).Explained own
      (exchanges ++ [⟨.delete frame.path anyVersion, .error failure⟩]) := by
  unfold Clear.retry
  split
  · exact explained_clear_failed hnested hown (.own .wrongType rfl)
  · exact explained_clear_failed hnested hown (.exhausted _ frame.path _ failure rfl hfull)
  · exact fun f hf => by cases hf

/-- After an answer, creation fails with it or not at all. -/
theorem explained_resume_ensure {state : Ensure} (h : (ensure state).Scoped ambient own)
    (hn : (ensure state).next = .calling call resume) (answer : Answer) :
    (resume answer).2.Explained own (exchanges ++ [⟨call, answer⟩]) := by
  cases state with
  | choosing | done => cases hn
  | probing job path above missing =>
    cases hn
    cases answer with
    | error failure => exact explained_ensure_failed h (.heard _ _ failure rfl rfl)
    | ok value =>
      simp only [Prod.map_snd]
      split
      · exact explained_ensure_found job missing
      · exact explained_ensure_probe job _ above
  | creating job mode path below =>
    cases hn
    cases answer with
    | ok value => exact explained_ensure_create job mode below
    | error failure =>
      simp only [Prod.map_snd]
      split
      · exact explained_ensure_create job mode below
      · rename_i hunexpected
        have hu : failure.problem.isNodeExists = false := by simpa using hunexpected
        exact explained_ensure_failed h (.heard _ _ failure rfl hu)

/-- After an answer, deletion fails with it, because of it or over a path or a value. -/
theorem explained_resume_clear {state : Clear} (h : (clear state).Scoped ambient own)
    (hn : (clear state).next = .calling call resume) (answer : Answer) :
    (resume answer).2.Explained own (exchanges ++ [⟨call, answer⟩]) := by
  obtain ⟨limit, hown, hstate⟩ := h
  cases state with
  | done => cases hn
  | listing most frame outer =>
    obtain ⟨rfl, hnested⟩ := hstate
    cases hn
    cases answer with
    | error failure =>
      by_cases hgone : failure.problem.isNoNode = true
      · simp only [Prod.map_snd, if_pos hgone]
        exact explained_clear_leave hnested hown _
      · simp only [Prod.map_snd, if_neg hgone]
        exact explained_clear_failed hnested hown
          (.heard _ _ failure rfl (Bool.eq_false_iff.mpr hgone))
    | ok value =>
      cases hmembers : value.members? with
      | none =>
        simp only [Prod.map_snd, hmembers]
        exact explained_clear_failed hnested hown (.own .wrongType rfl)
      | some names =>
        simp only [Prod.map_snd, hmembers]
        have hframe : Clear.Nested most ambient own ({ frame with pending := names } :: outer) :=
          hnested.replace rfl rfl rfl
        exact explained_clear_proceed hown 0 (.inr hframe)
  | deleting most frame outer =>
    obtain ⟨rfl, hnested⟩ := hstate
    cases hn
    cases answer with
    | ok value => exact explained_clear_leave hnested hown (Clear.deletedMessage frame.path)
    | error failure =>
      by_cases hfull : failure.problem.isNotEmpty = true
      · simp only [Prod.map_snd, if_pos hfull]
        exact explained_clear_retry hnested hown hfull
      · by_cases hgone : failure.problem.isNoNode = true
        · simp only [Prod.map_snd, if_neg hfull, if_pos hgone]
          exact explained_clear_leave hnested hown _
        · simp only [Prod.map_snd, if_neg hfull, if_neg hgone]
          have hu : (Call.delete frame.path anyVersion).expects failure.problem = false := by
            simp [Call.expects, hfull, hgone]
          exact explained_clear_failed hnested hown (.heard _ _ failure rfl hu)

/-- Whatever the answer is, a failure after it has an origin. -/
theorem explained_resume (h : operation.Scoped ambient own)
    (hn : operation.next = .calling call resume) (hrecursive : ∀ state, operation ≠ .listing state)
    (answer : Answer) : (resume answer).2.Explained own (exchanges ++ [⟨call, answer⟩]) := by
  cases operation with
  | listing state => exact absurd rfl (hrecursive state)
  | ensure state => exact explained_resume_ensure h hn answer
  | clear state => exact explained_resume_clear h hn answer

/-- An operation that goes on without a mode for containers fails with what kept it from one. -/
theorem explained_choosing {resume : Except Failure CreateMode → List LogRecord × Operation}
    (h : operation.Scoped ambient own) (hn : operation.next = .choosing resume) :
    (∀ mode, (resume (.ok mode)).2.Explained own exchanges) ∧
      ∀ failure, (resume (.error failure)).2.Explained own
        (exchanges ++ [⟨.capability, .error failure⟩]) := by
  cases operation with
  | clear state => cases state <;> cases hn
  | listing state => cases state <;> cases hn
  | ensure state =>
    cases state with
    | choosing job missing =>
      cases hn
      exact ⟨fun mode => explained_ensure_create job mode missing,
        fun failure => explained_ensure_failed h (.heard _ _ failure rfl rfl)⟩
    | probing | creating | done => cases hn

/-- A recursive operation may fail over its path before it makes any call. -/
theorem Recursive.explained (h : operation.Recursive ambient own) :
    operation.Explained own exchanges := by
  cases h with
  | deleteChildren path deleteSelf limit =>
    exact explained_clear_enter (.outermost rfl rfl) (covers_deletionContext _ _ _ _)
  | mkdirs path makeLast provider asContainers =>
    unfold Operation.mkdirs Ensure.start
    split
    · rename_i problem hproblem
      exact explained_ensure_failed rfl (.own problem (isOwn_of_validate hproblem))
    · exact explained_ensure_probe _ _ _

end Operation

namespace Respondent

variable {store : Respondent} {ambient own : Context} {operation : Operation} {d : Dialogue}

/-- A choice that failed asked the store. -/
theorem choice_of_error {context : Context} {failure : Failure} {after : Dialogue}
    (h : store.choice context d = (.error failure, after)) :
    after = d.heard .capability (.error failure) := by
  unfold choice at h
  split at h
  · cases h
  · dsimp only at h
    split at h
    · rename_i failure' ha
      rw [ha] at h
      cases h
      rfl
    · cases h

/-- The failure of an operation that was not done before its last step comes from that step. -/
theorem Steps.explained {there : Operation × Dialogue}
    (hstep : store.Steps ambient (operation, d) there) (h : operation.Scoped ambient own)
    (hrecursive : ∀ state, operation ≠ .listing state) :
    there.1.Explained own there.2.exchanges := by
  obtain ⟨call, resume, hn, rfl⟩ | ⟨resume, hn, rfl⟩ := hstep.cases
  · exact Operation.explained_resume h hn hrecursive _
  · rcases hchoice : store.choice (operation.context ambient) d with ⟨answer, after⟩
    cases answer with
    | ok mode => exact (Operation.explained_choosing h hn).1 mode
    | error failure =>
      obtain rfl := choice_of_error hchoice
      exact (Operation.explained_choosing h hn).2 failure

/-- Whatever a store answers, the failure of a recursive operation has an origin. It has left a
context that can be written if that of the operation can. -/
theorem Reaches.origin {start : Operation} {known : Option CreateMode} {f : Failure}
    (hstart : start.Recursive ambient own)
    (h : store.Reaches ambient (start, { known }) (operation, d))
    (hf : operation.next = .finished (.error f)) :
    ∃ raised : Failure, raised.Origin d.exchanges ∧ raised.LeavesAs own f := by
  obtain he | ⟨here, hreach, hstep⟩ := Relation.ReflTransGen.cases_tail h
  · cases he
    exact hstart.explained f hf
  · have hrecursive := Reaches.ne_listing hreach hstart.ne_listing
    exact hstep.explained (Reaches.scoped hreach hstart.scoped) hrecursive f hf

end Respondent

end TreeStore
