import TreeStore.Proofs.Operation.Nesting
import TreeStore.Proofs.Text.Overlong
import Mathlib

/-!
# Failures that leave operations

An operation goes on after those failures of its store that tell of a race it expects. Any other
failure is the end of the whole operation, at whatever level it occurs: it comes out as it went in,
up to the notes, and the store is not called again. The same goes for failures that a level of
recursive deletion raises itself.
-/

namespace TreeStore

/-- Whether a failure of a call tells of an expected race: the node to be created is there already,
the node to be listed is gone, or the node to be deleted is gone or has children. -/
def Call.expects : Call → Problem → Bool
  | create .., problem => problem.isNodeExists
  | children _, problem => problem.isNoNode
  | delete .., problem => problem.isNoNode || problem.isNotEmpty
  | probe _, _ | capability, _ => false

/-- Whether a call was answered with a failure that nobody expects. -/
def Exchange.Unexpected (exchange : Exchange) : Prop :=
  ∃ failure, exchange.answer = .error failure ∧ exchange.call.expects failure.problem = false

namespace Operation

variable {ambient own : Context} {operation : Operation} {failure : Failure}

/-- An unexpected failure of a call is the end: it leaves the operation. -/
theorem next_of_unexpected (h : operation.Scoped ambient own) {call : Call}
    {resume : Answer → List LogRecord × Operation} (hn : operation.next = .calling call resume)
    (hu : call.expects failure.problem = false) :
    (resume (.error failure)).2.next = .finished (.error (operation.leave failure)) := by
  cases operation with
  | ensure state =>
    cases state with
    | probing job path above missing =>
      cases hn
      rfl
    | creating job mode path below =>
      cases hn
      have hexists : ¬ failure.problem.isNodeExists = true := Bool.eq_false_iff.mp hu
      simp only [if_neg hexists]
      rfl
    | choosing | done => cases hn
  | clear state =>
    obtain ⟨limit, hown, hstate⟩ := h
    cases state with
    | listing most frame outer =>
      cases hn
      have hgone : ¬ failure.problem.isNoNode = true := Bool.eq_false_iff.mp hu
      simp only [if_neg hgone, Prod.map_snd, Clear.failed_eq hstate.2 hown]
      rfl
    | deleting most frame outer =>
      cases hn
      obtain ⟨hgone, hfull⟩ := Bool.or_eq_false_iff.mp hu
      simp only [if_neg (Bool.eq_false_iff.mp hgone), if_neg (Bool.eq_false_iff.mp hfull),
        Prod.map_snd, Clear.failed_eq hstate.2 hown]
      rfl
    | done => cases hn
  | listing state =>
    cases state with
    | waiting path =>
      cases hn
      rfl
    | done => cases hn

/-- Under way, creation and deletion are left through the context that is active. -/
theorem leave_eq_leaving (ambient : Context) (hrecursive : ∀ state, operation ≠ .listing state)
    (hrun : ∀ outcome, operation.next ≠ .finished outcome) (failure : Failure) :
    operation.leave failure = failure.leaving (operation.context ambient) := by
  cases operation with
  | listing state => exact absurd rfl (hrecursive state)
  | clear state => rfl
  | ensure state =>
    cases state with
    | done outcome => exact absurd rfl (hrun outcome)
    | probing | choosing | creating => rfl

/-- What an operation goes on with after an answer is of its own kind. -/
theorem ne_listing_of_calling (h : ∀ state, operation ≠ .listing state) {call : Call}
    {resume : Answer → List LogRecord × Operation} (hn : operation.next = .calling call resume)
    (answer : Answer) (state : Listing) : (resume answer).2 ≠ .listing state := by
  cases operation with
  | listing state => exact absurd rfl (h state)
  | ensure state => cases state <;> cases hn <;> exact fun he => by cases he
  | clear state => cases state <;> cases hn <;> exact fun he => by cases he

/-- What an operation goes on with when it found out about containers is of its own kind. -/
theorem ne_listing_of_choosing (h : ∀ state, operation ≠ .listing state)
    {resume : Except Failure CreateMode → List LogRecord × Operation}
    (hn : operation.next = .choosing resume) (answer : Except Failure CreateMode)
    (state : Listing) : (resume answer).2 ≠ .listing state := by
  cases operation with
  | listing state => exact absurd rfl (h state)
  | clear state => cases state <;> cases hn
  | ensure state =>
    cases state with
    | choosing job missing =>
      cases hn
      exact fun he => by cases he
    | probing | creating | done => cases hn

/-- A failure to find out about containers is the end. -/
theorem next_of_choosing {resume : Except Failure CreateMode → List LogRecord × Operation}
    (hn : operation.next = .choosing resume) (failure : Failure) :
    (resume (.error failure)).2.next = .finished (.error (operation.leave failure)) := by
  cases operation with
  | ensure state =>
    cases state with
    | choosing job missing =>
      cases hn
      rfl
    | probing | creating | done => cases hn
  | clear state => cases state <;> cases hn
  | listing state => cases state <;> cases hn

end Operation

namespace Respondent

variable {store : Respondent} {ambient own : Context} {operation : Operation} {d : Dialogue}
  {begin here there : Operation × Dialogue}

/-- What an operation goes on with is of its own kind. -/
theorem Steps.ne_listing (h : store.Steps ambient here there)
    (hrecursive : ∀ state, here.1 ≠ .listing state) (state : Listing) :
    there.1 ≠ .listing state := by
  obtain ⟨operation, d⟩ := here
  obtain ⟨call, resume, hn, rfl⟩ | ⟨resume, hn, rfl⟩ := h.cases
  · exact Operation.ne_listing_of_calling hrecursive hn _ state
  · exact Operation.ne_listing_of_choosing hrecursive hn _ state

/-- A run of creation or deletion never becomes a listing. -/
theorem Reaches.ne_listing (h : store.Reaches ambient here there)
    (hrecursive : ∀ state, here.1 ≠ .listing state) : ∀ state, there.1 ≠ .listing state := by
  induction h with
  | refl => exact hrecursive
  | tail _ hstep ih => exact hstep.ne_listing ih

/-- In a step, the store is called at most once, and if it fails unexpectedly the operation is done.
-/
theorem Steps.exchanges (h : store.Steps ambient (operation, d) there)
    (hscoped : operation.Scoped ambient own) :
    there.2.exchanges = d.exchanges ∨
      ∃ call, there.2.exchanges = d.exchanges ++ [⟨call, store.answer d.exchanges call⟩] ∧
        ∀ failure, store.answer d.exchanges call = .error failure →
          call.expects failure.problem = false →
          there.1.next = .finished (.error (operation.leave failure)) := by
  obtain ⟨call, resume, hn, rfl⟩ | ⟨resume, hn, rfl⟩ := h.cases
  · refine .inr ⟨call, rfl, fun failure ha hu => ?_⟩
    rw [ha]
    exact Operation.next_of_unexpected hscoped hn hu
  · rw [choice]
    cases d.known with
    | some mode => exact .inl rfl
    | none =>
      refine .inr ⟨.capability, ?_⟩
      cases ha : store.answer d.exchanges .capability with
      | ok value => exact ⟨rfl, fun _ he => by cases he⟩
      | error failure =>
        refine ⟨rfl, fun failure' he _ => ?_⟩
        obtain rfl := Except.error.inj he
        exact Operation.next_of_choosing hn failure

/-- An operation has met no unexpected failure, or it met one in its last call and is done with it.
-/
inductive Careful (store : Respondent) (ambient : Context) (begin there : Operation × Dialogue) :
    Prop
  | undisturbed (expected : ∀ exchange ∈ there.2.exchanges, ¬ exchange.Unexpected)
  | ended (here : Operation × Dialogue) (call : Call) (failure : Failure)
      (reached : store.Reaches ambient begin here) (step : store.Steps ambient here there)
      (exchanges_eq : there.2.exchanges = here.2.exchanges ++ [⟨call, .error failure⟩])
      (expected : ∀ exchange ∈ here.2.exchanges, ¬ exchange.Unexpected)
      (ends : there.1.next = .finished (.error (here.1.leave failure)))

theorem Careful.step (hd : Careful store ambient begin here)
    (hreach : store.Reaches ambient begin here) (hscoped : here.1.Scoped ambient own)
    (h : store.Steps ambient here there) : Careful store ambient begin there := by
  cases hd with
  | ended _ _ _ _ _ _ _ ends =>
    rw [Steps, run_step_of_finished ends] at h
    cases h
  | undisturbed expected =>
    obtain he | ⟨call, he, hends⟩ := h.exchanges hscoped
    · refine .undisturbed ?_
      rwa [he]
    · by_cases hu : Exchange.Unexpected ⟨call, store.answer here.2.exchanges call⟩
      · obtain ⟨failure, ha, hnot⟩ := hu
        refine .ended here call failure hreach h ?_ expected (hends failure ha hnot)
        rw [he, show store.answer here.2.exchanges call = .error failure from ha]
      · refine .undisturbed fun exchange hmem => ?_
        rw [he, List.mem_append, List.mem_singleton] at hmem
        obtain hmem | rfl := hmem
        · exact expected exchange hmem
        · exact hu

theorem Reaches.careful (h : store.Reaches ambient begin there)
    (hscoped : begin.1.Scoped ambient own) (hd : begin.2.exchanges = []) :
    Careful store ambient begin there := by
  induction h with
  | refl =>
    refine .undisturbed ?_
    rw [hd]
    exact List.forall_mem_nil _
  | tail hreach hstep ih => exact ih.step hreach (Reaches.scoped hreach hscoped) hstep

/-- An unexpected failure is the last thing that an operation heard. -/
theorem Careful.ends (hd : Careful store ambient begin there) {before after : List Exchange}
    {call : Call} {failure : Failure}
    (heq : there.2.exchanges = before ++ ⟨call, .error failure⟩ :: after)
    (hu : call.expects failure.problem = false) :
    after = [] ∧ ∃ here, store.Reaches ambient begin here ∧ here.2.exchanges = before ∧
      store.Steps ambient here there ∧
      there.1.next = .finished (.error (here.1.leave failure)) := by
  have hunexpected : Exchange.Unexpected ⟨call, .error failure⟩ := ⟨failure, rfl, hu⟩
  cases hd with
  | undisturbed expected =>
    refine absurd hunexpected (expected _ ?_)
    rw [heq]
    exact List.mem_append_right before List.mem_cons_self
  | ended here call' failure' reached step exchanges_eq expected ends =>
    rw [heq] at exchanges_eq
    obtain rfl | ⟨rest, last, rfl⟩ := after.eq_nil_or_concat
    · obtain ⟨hbefore, he⟩ := List.append_inj' exchanges_eq rfl
      obtain ⟨rfl, rfl⟩ : call = call' ∧ failure = failure' := by simpa using he
      exact ⟨rfl, here, reached, hbefore.symm, step, ends⟩
    · rw [List.concat_eq_append, ← List.cons_append, ← List.append_assoc] at exchanges_eq
      obtain ⟨hbefore, -⟩ := List.append_inj' exchanges_eq rfl
      refine absurd hunexpected (expected _ ?_)
      rw [← hbefore]
      exact List.mem_append_right before List.mem_cons_self

/-- A deletion whose first listing is refused ends with the refusal, as it leaves the context of the
deletion. -/
theorem ends_of_refused {path : String} {failure : Failure}
    (hvalid : Path.validate path false = .ok path)
    (hanswer : store.answer [] (.children path) = .error failure)
    (hrefused : failure.problem.isNoNode = false) (deleteSelf limit : Option Value) :
    store.Ends ambient (.deleteChildren ambient path deleteSelf limit, {})
      (.error (failure.leaving (Operation.deletionContext ambient path deleteSelf limit)))
      { exchanges := [⟨.children path, .error failure⟩] } := by
  let own := Operation.deletionContext ambient path deleteSelf limit
  let goes := (deleteSelf.getD (.bool false)).truthy
  let top : Clear.Frame := ⟨path, goes, 1, own, ambient, []⟩
  have hstart : Operation.deleteChildren ambient path deleteSelf limit =
      .clear (.listing (limit.getD .null) top []) :=
    congrArg Operation.clear (Clear.start_of_validate hvalid _ _ _ _)
  have hcalling : (Operation.clear (.listing (limit.getD .null) top [])).next =
      .calling (.children path) _ := rfl
  have hstep := steps_of_calling hcalling store ambient {}
  rw [show store.answer ({} : Dialogue).exchanges (.children path) = .error failure from hanswer]
    at hstep
  simp only [hrefused, Bool.false_eq_true, if_false] at hstep
  rw [hstart]
  exact Reaches.ends (.single hstep) (ends_of_finished rfl)

/-- Whatever a store answers, a recursive operation goes on after expected races only. Any other
failure of a call is the last that the store hears, and the operation ends with that failure as it
leaves the context that the call was made in. It leaves with another note at most if the operation's
own context can be written, and otherwise the failure to write the context may take its place. So
it is if the deletion of a child, run on its own, ends with a failure: whatever the failure, the
whole operation ends with the calls of that deletion, and with its failure, since the levels of a
deletion are always nested. -/
theorem unexpected_leaves (store : Respondent) (ambient : Context) {own : Context}
    {start operation : Operation} {known : Option CreateMode} {d : Dialogue}
    (hstart : start.Recursive ambient own)
    (h : store.Reaches ambient (start, { known }) (operation, d)) :
    (∀ (before after : List Exchange) (call : Call) (failure : Failure),
      d.exchanges = before ++ ⟨call, .error failure⟩ :: after →
      call.expects failure.problem = false →
      after = [] ∧ ∃ here earlier, store.Reaches ambient (start, { known }) (here, earlier) ∧
        earlier.exchanges = before ∧ store.Steps ambient (here, earlier) (operation, d) ∧
        ∃ f : Failure, f = failure.leaving (here.context ambient) ∧
          store.Ends ambient (start, { known }) (.error f) d ∧
          (own.isOverlong = false → f.problem = failure.problem ∧ f.source = failure.source)) ∧
    (∀ (limit : Value) (frame : Clear.Frame) (outer : List Clear.Frame),
      operation = .clear (.listing limit frame outer) ∨
        operation = .clear (.deleting limit frame outer) →
      Clear.Covers limit own ∧ Clear.Nested limit ambient own (frame :: outer)) ∧
    ∀ (limit : Value) (frame : Clear.Frame) (outer : List Clear.Frame) (child : Value)
      (path : String) (failure : Failure) (after : Dialogue),
      operation = .clear (Clear.enterChild limit frame child outer) →
      Path.joinValues [.str frame.path, child] = .ok path →
      store.Ends frame.context
        (.deleteChildren frame.context path (some (.bool true)) (some limit), d)
        (.error failure) after →
      ∃ f, store.Ends ambient (start, { known }) (.error f) after ∧
        (Clear.Covers limit own → Clear.Nested limit ambient own (frame :: outer) →
          f = failure) := by
  have hscoped : operation.Scoped ambient own := h.scoped hstart.scoped
  refine ⟨fun before after call failure heq hu => ?_, ?_, ?_⟩
  · obtain ⟨hlast, ⟨here, earlier⟩, hreach, hbefore, hstep, hends⟩ :=
      (h.careful hstart.scoped rfl).ends heq hu
    have hrun : ∀ outcome, here.next ≠ .finished outcome := by
      intro outcome hdone
      rw [Steps, run_step_of_finished hdone] at hstep
      cases hstep
    have hrecursive := hreach.ne_listing hstart.ne_listing
    have hleave := Operation.leave_eq_leaving ambient hrecursive hrun failure
    refine ⟨hlast, here, earlier, hreach, hbefore, hstep, here.leave failure, hleave,
      h.ends (ends_of_finished hends), fun hown => ?_⟩
    exact (hreach.scoped hstart.scoped).leave_problem hown hrun failure
  · rintro limit frame outer (rfl | rfl)
    all_goals
      obtain ⟨most, hcovers, rfl, hnested⟩ := hscoped
      exact ⟨hcovers, hnested⟩
  · rintro limit frame outer child path failure after rfl hpath hend
    obtain ⟨f, hends, hsame⟩ := ends_of_level hpath hend ambient
    exact ⟨f, h.ends hends, hsame⟩

/-- The deletion of a child fails, at first for a reason of the store's own and then because the
child has children and there may be one attempt only. -/
theorem unexpected_leaves_child :
    let store (fault : StoreFault) : Respondent :=
      { className := "Store"
        answer _ call := match call with
          | .children path => .ok (.list (if path = "/a" then [.str "b"] else []))
          | call => .error (Problem.ofStore fault call.path : Problem) }
    let start := Operation.deleteChildren [] "/a" none (some (.int 1))
    start.Recursive [] (Operation.deletionContext [] "/a" none (some (.int 1))) ∧
    (∃ f d, f.problem = .ofStore .unavailable "/a/b" ∧
      (store .unavailable).Ends [] (start, {}) (.error f) d) ∧
    ∃ f d, f.problem = .retriesExhausted "/a/b" 1 ∧
      (store .notEmpty).Ends [] (start, {}) (.error f) d := by
  intro store start
  let own := Operation.deletionContext [] "/a" none (some (.int 1))
  have hstart : start.Recursive [] own := .deleteChildren "/a" none (some (.int 1))
  refine ⟨hstart, ?_, ?_⟩
  · obtain ⟨operation, hreach, -⟩ := reaches_run (store .unavailable) [] 3 (start, {})
    obtain ⟨-, here, earlier, -, -, -, f, -, hend, hsame⟩ :=
      (unexpected_leaves (store .unavailable) [] hstart hreach).1
        [⟨.children "/a", .ok (.list [.str "b"])⟩, ⟨.children "/a/b", .ok (.list [])⟩] []
        (.delete "/a/b" anyVersion) (Problem.ofStore .unavailable "/a/b" : Problem)
        (by cbv) (by cbv)
    exact ⟨f, _, (hsame (by decide)).1, hend⟩
  · let frame : Clear.Frame := ⟨"/a", false, 1, own, [], []⟩
    let listed : Dialogue := { exchanges := [⟨.children "/a", .ok (.list [.str "b"])⟩] }
    have hreach : (store .notEmpty).Reaches [] (start, {})
        (.clear (Clear.enterChild (.int 1) frame (.str "b") []), listed) := by
      refine .single ?_
      cbv
    have hpath : Path.joinValues [.str frame.path, .str "b"] = .ok "/a/b" := by cbv
    let child := Clear.childContext (.int 1) own "/a/b"
    let raised : Failure :=
      { problem := .retriesExhausted "/a/b" 1, source := some (.ofStore .notEmpty "/a/b") }
    let nested := Operation.deleteChildren own "/a/b" (some (.bool true)) (some (.int 1))
    let last : Operation :=
      .clear (.deleting (.int 1) ⟨"/a/b", true, 1, child, own, []⟩ [])
    let emptied := listed.heard (.children "/a/b") (.ok (.list []))
    let full : Failure := (Problem.ofStore .notEmpty "/a/b" : Problem)
    let after := emptied.heard (.delete "/a/b" anyVersion) (.error full)
    have hfirst : (store .notEmpty).Steps own (nested, listed) (last, emptied) := by cbv
    have hsecond : (store .notEmpty).Steps own (last, emptied)
        (.clear (.done (.error (raised.leaving child)) own), after) := by
      have hcalling : last.next = .calling (.delete "/a/b" anyVersion) _ := rfl
      exact steps_of_calling hcalling (store .notEmpty) own emptied
    have hend : (store .notEmpty).Ends own (nested, listed) (.error (raised.leaving child)) after :=
      Reaches.ends (.tail (.single hfirst) hsecond) (ends_of_finished rfl)
    obtain ⟨-, -, hlevel⟩ := unexpected_leaves (store .notEmpty) [] hstart hreach
    obtain ⟨f, hends, hsame⟩ := hlevel _ frame [] _ _ _ _ rfl hpath hend
    have hcovers := Operation.covers_deletionContext [] "/a" none (some (.int 1))
    have hnested : Clear.Nested (.int 1) [] own [frame] := .outermost rfl rfl
    have hwritable : child.isOverlong = false := by decide
    refine ⟨f, after, ?_, hends⟩
    rw [hsame hcovers hnested]
    exact (raised.leaving_problem hwritable).1

/-- If the limit has too many digits to be written, a failure of the store does not come out: the
failure to write the context takes its place. -/
theorem unavailable_replaced :
    let store : Respondent :=
      { className := "Store"
        answer _ call := .error (Problem.ofStore .unavailable call.path : Problem) }
    let start := Operation.deleteChildren [] "/a" none (some (.int (2 ^ 14400 : Nat)))
    ∃ d, d.exchanges = [⟨.children "/a", .error (Problem.ofStore .unavailable "/a" : Problem)⟩] ∧
      (Call.children "/a").expects (.ofStore .unavailable "/a") = false ∧
      store.Ends [] (start, {}) (.error Failure.overlong) d ∧
      ¬ ∃ f d', f.problem = .ofStore .unavailable "/a" ∧
        store.Ends [] (start, {}) (.error f) d' := by
  have hlong := Value.isOverlong_two_pow
  generalize (2 ^ 14400 : Nat) = n at hlong ⊢
  intro store start
  have hown := Operation.covers_deletionContext [] "/a" none (some (.int n)) hlong
  let gone : Failure := (Problem.ofStore .unavailable "/a" : Problem)
  have hend : store.Ends [] (start, {}) (.error (gone.leaving _)) _ :=
    ends_of_refused (by cbv) rfl rfl none (some (.int n))
  rw [Failure.leaving_of_overlong rfl rfl hown] at hend
  refine ⟨_, rfl, rfl, hend, ?_⟩
  rintro ⟨f, d', hproblem, hother⟩
  obtain ⟨hsame, -⟩ := hend.unique hother
  obtain rfl := Except.error.inj hsame
  cases hproblem

end Respondent

end TreeStore
