import TreeStore.Proofs.Operation.Origin
import TreeStore.Proofs.Workspace.Service

/-!
# What becomes of the reports of a workspace service

Five reports have a meaning for recursive creation and deletion: they tell that a node is missing,
is there already or has children. Any other report leaves the whole operation as it was raised, and
the service is asked nothing more, so that an outage or a refused permission never passes for a
missing or an emptied node. The five are absorbed; all that is ever seen of them is that a deletion
which gave up was told that the node has children.
-/

namespace TreeStore

namespace Respondent

variable {store : Respondent} {ambient own : Context} {here there : Operation × Dialogue}

/-- Each answer in a dialogue is the store's own, after what was said before. -/
def Answered (store : Respondent) (exchanges : List Exchange) : Prop :=
  ∀ before call answer after, exchanges = before ++ ⟨call, answer⟩ :: after →
    answer = store.answer before call

theorem Answered.step (h : store.Answered here.2.exchanges) (hscoped : here.1.Scoped ambient own)
    (hstep : store.Steps ambient here there) : store.Answered there.2.exchanges := by
  obtain ⟨operation, d⟩ := here
  rcases hstep.exchanges hscoped with he | ⟨call, he, -⟩
  · rw [he]
    exact h
  · rw [he]
    intro before call' answer after heq
    rcases after.eq_nil_or_concat with rfl | ⟨rest, last, rfl⟩
    · obtain ⟨rfl, hlast⟩ := List.append_inj' heq rfl
      cases hlast
      rfl
    · rw [List.concat_eq_append, ← List.cons_append, ← List.append_assoc] at heq
      obtain ⟨hbefore, -⟩ := List.append_inj' heq rfl
      exact h before call' answer rest hbefore

theorem Reaches.answered {start : Operation} {known : Option CreateMode}
    (hscoped : start.Scoped ambient own) (h : store.Reaches ambient (start, { known }) there) :
    store.Answered there.2.exchanges := by
  induction h with
  | refl => exact fun before call answer after heq => absurd heq (by simp)
  | tail hreach hstep ih => exact ih.step (Reaches.scoped hreach hscoped) hstep

end Respondent

namespace Workspace

variable {service : Service} {exchanges : List Exchange} {call : Call} {request : ServiceRequest}
  {report : Report}

/-- Nobody expects the report of a service as such. -/
theorem expects_report (call : Call) (report : Report) : call.expects report.problem = false := by
  cases call <;> rfl

/-- What becomes of a reply: a value is interpreted, and a report that is not absorbed passes. -/
theorem reply_cases (service : Service) (asked : List ServiceRequest) (request : ServiceRequest) :
    (∃ value, service.reply asked request = .ok value) ∨
      ∃ report, service.answer asked request = .error report ∧
        service.reply asked request = .error report.failure := by
  cases h : service.answer asked request with
  | ok value => exact .inl ⟨value, Service.reply_of_ok h⟩
  | error report => exact .inr ⟨report, rfl, Service.reply_of_report h⟩

/-- The answer to a call after a report that the store has an outcome for is an expected failure,
or no failure at all. -/
theorem expects_of_absorbs {failure : Failure} (hrequest : request? call = some request)
    (hreport : service.answer (requests exchanges) request = .error report)
    (habsorbs : request.absorbs report = true)
    (h : (storeOver service).answer exchanges call = .error failure) :
    call.expects failure.problem = true ∧
      (failure.problem.isNotEmpty = true → ∃ path, call = .delete path anyVersion ∧
        failure.problem = .ofStore .notEmpty path ∧ report.fault.isAbsence = false ∧
        report.code = some notEmptyCode) := by
  have hreply := Service.reply_of_report hreport
  rcases request?_eq_some_iff.mp hrequest with ⟨path, rfl, rfl⟩ | ⟨path, rfl, rfl⟩ |
    ⟨path, acl, rfl, rfl⟩ | ⟨path, rfl, rfl⟩
  · have habsent : report.fault.isAbsence = true := habsorbs
    rw [answer_over_probe, hreply, found_of_absence habsent] at h
    cases h
  · have habsent : report.fault.isAbsence = true := habsorbs
    rw [answer_over_children, hreply, listed_of_absence path habsent] at h
    cases h
    exact ⟨rfl, fun hfull => by cases hfull⟩
  · have hexists : report.fault = .resourceExists := by
      simpa [ServiceRequest.absorbs] using habsorbs
    rw [answer_over_create, hreply, created_of_exists path hexists] at h
    cases h
    exact ⟨rfl, fun hfull => by cases hfull⟩
  · rw [answer_over_delete, hreply] at h
    cases habsent : report.fault.isAbsence with
    | true =>
      rw [deleted_of_absence path habsent] at h
      cases h
      exact ⟨rfl, fun hfull => by cases hfull⟩
    | false =>
      have hcode : report.code = some notEmptyCode := by
        simpa [ServiceRequest.absorbs, habsent] using habsorbs
      rw [deleted_of_full path habsent hcode] at h
      cases h
      exact ⟨rfl, fun _ => ⟨path, rfl, rfl, rfl, hcode⟩⟩

/-- A listed object without a text for a path is a problem of its kind. -/
theorem nameOf_error {object : Value} {failure : Failure} (h : nameOf object = .error failure) :
    ∃ problem : Problem, problem.isOwn = true ∧ failure = problem := by
  cases object <;> cases h
  all_goals exact ⟨.wrongType, rfl, rfl⟩

/-- An answer that lists no objects with paths is a problem of its kind. -/
theorem objectPaths_error {objects : Value} {failure : Failure}
    (h : objectPaths objects = .error failure) :
    ∃ problem : Problem, problem.isOwn = true ∧ failure = problem := by
  unfold objectPaths at h
  split at h
  · cases h
  · cases h
  · split at h
    · cases h
    · cases h
      exact ⟨.noMember, rfl, rfl⟩
  · split at h
    · cases h
    · cases h
      exact ⟨.noMember, rfl, rfl⟩
  · cases h
    exact ⟨.wrongType, rfl, rfl⟩

/-- The answer to a listing fails over nothing but its kind. -/
theorem listed_error {path : String} {objects : Value} {failure : Failure}
    (h : listed path (.ok objects) = .error failure) :
    ∃ problem : Problem, problem.isOwn = true ∧ failure = problem := by
  unfold listed at h
  dsimp only at h
  cases hpaths : objectPaths objects with
  | error failure' =>
    rw [hpaths] at h
    cases h
    exact objectPaths_error hpaths
  | ok paths =>
    rw [hpaths] at h
    cases hnames : (paths.filter Value.truthy).mapM nameOf with
    | ok names =>
      simp only [hnames, bind, Except.bind] at h
      cases h
    | error failure' =>
      simp only [hnames, bind, Except.bind] at h
      cases h
      obtain ⟨object, -, hobject⟩ := Operation.exists_of_mapM_eq_error hnames
      exact nameOf_error hobject

/-- A failure of the store without a report is one with the arguments or with the answer. -/
theorem over_error_of_not_report {failure : Failure}
    (hreport : ¬ ∃ request report, request? call = some request ∧
      service.answer (requests exchanges) request = .error report)
    (h : (storeOver service).answer exchanges call = .error failure) :
    ∃ problem : Problem, failure = problem ∧
      (problem.isOwn = true ∨ ∃ fault, problem = .argument fault ∧ plan call = .refuse fault) := by
  cases hplan : plan call with
  | refuse fault =>
    rw [answer_over_refuse hplan] at h
    cases h
    exact ⟨.argument fault, rfl, .inr ⟨fault, rfl, rfl⟩⟩
  | answer value =>
    rw [answer_over_answer hplan] at h
    cases h
  | ask remark request interpret =>
    have hrequest : request? call = some request := by rw [request?, hplan]
    obtain ⟨value, hvalue⟩ | ⟨report, hreply, -⟩ :=
      reply_cases service (requests exchanges) request
    case inr => exact absurd ⟨request, report, hrequest, hreply⟩ hreport
    rcases request?_eq_some_iff.mp hrequest with ⟨path, rfl, rfl⟩ | ⟨path, rfl, rfl⟩ |
      ⟨path, acl, rfl, rfl⟩ | ⟨path, rfl, rfl⟩
    · rw [answer_over_probe, hvalue] at h
      cases h
    · rw [answer_over_children, hvalue] at h
      obtain ⟨problem, hown, he⟩ := listed_error h
      exact ⟨problem, he, .inl hown⟩
    · rw [answer_over_create, hvalue] at h
      cases h
    · rw [answer_over_delete, hvalue] at h
      cases h

/-- The exchange that led to a request. -/
theorem exists_exchange {before after : List ServiceRequest}
    (h : requests exchanges = before ++ request :: after) :
    ∃ earlier call answer later, exchanges = earlier ++ ⟨call, answer⟩ :: later ∧
      requests earlier = before ∧ request? call = some request ∧ requests later = after := by
  obtain ⟨earlier, rest, rfl, hbefore, hrest⟩ := List.filterMap_eq_append_iff.mp h
  obtain ⟨skipped, ⟨call, answer⟩, later, rfl, hskipped, hcall, hlater⟩ :=
    List.filterMap_eq_cons_iff.mp hrest
  refine ⟨earlier ++ skipped, call, answer, later, by simp, ?_, hcall, hlater⟩
  rw [requests_append, show requests earlier = before from hbefore,
    show requests skipped = [] from List.filterMap_eq_nil_iff.mpr hskipped, List.append_nil]

end Workspace

/-- What a recursive operation over a service fails with after some requests. -/
inductive Report.Leaves (service : Service) (asked : List ServiceRequest) : Failure → Prop
  /-- A problem with arguments or values. -/
  | other (problem : Problem) (kind : problem.isOwn = true ∨ ∃ fault, problem = .argument fault) :
      Leaves service asked problem
  /-- The last report, which has no meaning for the operation. -/
  | unchanged (before : List ServiceRequest) (request : ServiceRequest) (report : Report)
      (asked_eq : asked = before ++ [request])
      (reported : service.answer before request = .error report)
      (unabsorbed : request.absorbs report = false) : Leaves service asked report.failure
  /-- The attempts to delete a node are used up; the last report was that it has children. -/
  | exhausted (before : List ServiceRequest) (path : String) (attempts : Int) (report : Report)
      (asked_eq : asked = before ++ [.delete path])
      (reported : service.answer before (.delete path) = .error report)
      (present : report.fault.isAbsence = false)
      (code : report.code = some Workspace.notEmptyCode) :
      Leaves service asked
        { problem := .retriesExhausted path attempts, source := some (.ofStore .notEmpty path) }

namespace Workspace

open Respondent

variable {service : Service} {ambient own : Context} {operation : Operation} {d : Dialogue}

/-- The failure of the last call, in terms of the requests. -/
theorem leaves_of_heard {exchanges : List Exchange} {call : Call} {failure : Failure}
    (hanswer : (storeOver service).answer exchanges call = .error failure)
    (hu : call.expects failure.problem = false) :
    Report.Leaves service (requests exchanges ++ (request? call).toList) failure := by
  by_cases hreport : ∃ request report, request? call = some request ∧
      service.answer (requests exchanges) request = .error report
  · obtain ⟨request, report, hrequest, hreport⟩ := hreport
    cases habsorbs : request.absorbs report with
    | true =>
      rw [(expects_of_absorbs hrequest hreport habsorbs hanswer).1] at hu
      cases hu
    | false =>
      have hown := answer_over_of_report hrequest hreport habsorbs
      cases hown.symm.trans hanswer
      exact .unchanged _ request report (by simp [hrequest]) hreport habsorbs
  · obtain ⟨problem, rfl, hkind⟩ := over_error_of_not_report hreport hanswer
    exact .other problem (hkind.imp_right fun ⟨fault, he, _⟩ => ⟨fault, he⟩)

/-- A node was found to have children only by a report with that code, from a node that is there. -/
theorem leaves_of_exhausted {exchanges : List Exchange} {path : String} {failure : Failure}
    (hanswer : (storeOver service).answer exchanges (.delete path anyVersion) = .error failure)
    (hfull : failure.problem.isNotEmpty = true) (attempts : Int) :
    Report.Leaves service (requests exchanges ++ [.delete path])
      { problem := .retriesExhausted path attempts, source := some failure.problem } := by
  have hrequest := request?_delete path
  rcases reply_cases service (requests exchanges) (.delete path) with
    ⟨value, hvalue⟩ | ⟨report, hreport, -⟩
  · rw [answer_over_delete, hvalue] at hanswer
    cases hanswer
  · cases habsorbs : (ServiceRequest.delete path).absorbs report with
    | false =>
      have hown := answer_over_of_report hrequest hreport habsorbs
      cases hown.symm.trans hanswer
      cases hfull
    | true =>
      obtain ⟨path', hpath, hproblem, hpresent, hcode⟩ :=
        (expects_of_absorbs hrequest hreport habsorbs hanswer).2 hfull
      cases hpath
      rw [hproblem]
      exact .exhausted _ path attempts report rfl hreport hpresent hcode

/-- Where a failure comes from, in terms of the requests. -/
theorem leaves_of_origin {exchanges : List Exchange} {raised : Failure}
    (hanswered : (storeOver service).Answered exchanges) (h : raised.Origin exchanges) :
    Report.Leaves service (requests exchanges) raised := by
  cases h with
  | own problem isOwn => exact .other problem (.inl isOwn)
  | heard before call failure exchanges_eq unexpected =>
    have hanswer := (hanswered before call _ [] exchanges_eq).symm
    rw [exchanges_eq, requests_append]
    exact leaves_of_heard hanswer unexpected
  | exhausted before path attempts failure exchanges_eq full =>
    have hanswer := (hanswered before _ _ [] exchanges_eq).symm
    rw [exchanges_eq, requests_append]
    exact leaves_of_exhausted hanswer full attempts

/-- Whatever the service answers, a report that has no meaning for a recursive operation is the last
thing that is asked for, and the operation ends with it. An operation that fails otherwise fails
over arguments and values, or because a node still has children after the last attempt, and no other
report is left in its failure. In all of this a failure leaves the context that it is raised in:
with another note at most if the operation's own context can be written, while otherwise the failure
to write the context may take its place. A report that the node to be deleted is missing counts as a
deletion, whatever its code. -/
theorem reports_leave (service : Service) (ambient : Context) {own : Context}
    {start operation : Operation} {known : Option CreateMode} {d : Dialogue}
    (hstart : start.Recursive ambient own)
    (h : (storeOver service).Reaches ambient (start, { known }) (operation, d)) :
    (∀ (before after : List ServiceRequest) (request : ServiceRequest) (report : Report),
      requests d.exchanges = before ++ request :: after →
      service.answer before request = .error report → request.absorbs report = false →
      after = [] ∧ ∃ here earlier, (storeOver service).Reaches ambient (start, { known })
          (here, earlier) ∧
        requests earlier.exchanges = before ∧
        (storeOver service).Steps ambient (here, earlier) (operation, d) ∧
        ∃ f : Failure, f = report.failure.leaving (here.context ambient) ∧
          (storeOver service).Ends ambient (start, { known }) (.error f) d ∧
          (own.isOverlong = false → f.problem = report.problem ∧ f.source = report.source)) ∧
    (∀ f : Failure, (storeOver service).Ends ambient (start, { known }) (.error f) d →
      ∃ raised : Failure, Report.Leaves service (requests d.exchanges) raised ∧
        raised.LeavesAs own f ∧
        (own.isOverlong = false → f.problem = raised.problem ∧ f.source = raised.source)) ∧
    ∀ (limit : Value) (frame : Clear.Frame) (outer : List Clear.Frame) (report : Report),
      operation = .clear (.deleting limit frame outer) →
      service.answer (requests d.exchanges) (.delete frame.path) = .error report →
      report.fault.isAbsence = true →
      ∃ after, (storeOver service).Steps ambient (operation, d)
          (.clear (.proceed limit frame.attempts frame.outside outer), after) ∧
        requests after.exchanges = requests d.exchanges ++ [.delete frame.path] := by
  refine ⟨?_, ?_, ?_⟩
  · intro before after request report heq hreport habsorbs
    obtain ⟨earlier, call, answer, later, hexchanges, rfl, hrequest, rfl⟩ := exists_exchange heq
    have hanswer := h.answered hstart.scoped earlier call answer later hexchanges
    rw [answer_over_of_report hrequest hreport habsorbs] at hanswer
    rw [hanswer] at hexchanges
    obtain ⟨rfl, ⟨here, past⟩, hreach, hpast, hstep, hends⟩ :=
      (h.careful hstart.scoped rfl).ends hexchanges (expects_report call report)
    have hrun : ∀ outcome, here.next ≠ .finished outcome := by
      intro outcome hdone
      rw [Steps, run_step_of_finished hdone] at hstep
      cases hstep
    have hrecursive := hreach.ne_listing hstart.ne_listing
    refine ⟨rfl, here, past, hreach, congrArg requests hpast, hstep, here.leave report.failure,
      Operation.leave_eq_leaving ambient hrecursive hrun report.failure,
      h.ends (ends_of_finished hends), fun hown => ?_⟩
    exact (hreach.scoped hstart.scoped).leave_problem hown hrun report.failure
  · intro f hend
    obtain ⟨⟨last, after⟩, hreach, hn, rfl⟩ := hend.reaches
    obtain ⟨raised, horigin, hleaves⟩ := hreach.origin hstart hn
    exact ⟨raised, leaves_of_origin (hreach.answered hstart.scoped) horigin, hleaves,
      hleaves.problem_eq⟩
  · rintro limit frame outer report rfl hreport habsent
    have hanswer : (storeOver service).answer d.exchanges (.delete frame.path anyVersion) =
        .error (translated .noNode frame.path report.failure) := by
      rw [answer_over_delete, Service.reply, hreport]
      simp [Except.mapError, deleted, Report.failure, Report.problem, habsent]
    have hn : (Operation.clear (.deleting limit frame outer)).next = .calling
        (.delete frame.path anyVersion) _ := rfl
    have hstep := steps_of_calling hn (storeOver service) ambient d
    rw [hanswer] at hstep
    refine ⟨_, hstep, ?_⟩
    rw [Dialogue.reported, Dialogue.heard, requests_append]
    simp [requests, request?, plan_delete]

/-- A child may not be deleted; that its report has a code besides makes no difference. -/
theorem reports_leave_denied :
    let denied : Report := { fault := .permissionDenied, text := "no", code := some "DENIED" }
    let service : Service :=
      { answer _ request := match request with
          | .list path => .ok (.list (if path = "/a" then [.str "/a/b"] else []))
          | _ => .error denied }
    ∃ f d, f.problem = .service .permissionDenied "no" (some "DENIED") ∧
      requests d.exchanges = [.list "/a", .list "/a/b", .delete "/a/b"] ∧
      (storeOver service).Ends [] (.deleteChildren [] "/a" none none, {}) (.error f) d := by
  intro denied service
  obtain ⟨operation, hreach, -⟩ :=
    reaches_run (storeOver service) [] 3 (.deleteChildren [] "/a" none none, {})
  have hrequests :
      let after :=
        (((storeOver service).client.run [] 3 (.deleteChildren [] "/a" none none)).run {}).2
      requests after.exchanges = [.list "/a", .list "/a/b", .delete "/a/b"] := by decide +kernel
  have hstart : (Operation.deleteChildren [] "/a" none none).Recursive []
      (Operation.deletionContext [] "/a" none none) := .deleteChildren "/a" none none
  obtain ⟨-, -, -, -, -, -, f, -, hend, hsame⟩ :=
    (reports_leave service [] hstart hreach).1
      [.list "/a", .list "/a/b"] [] (.delete "/a/b") denied hrequests rfl (by decide)
  exact ⟨f, _, (hsame (by decide)).1, hrequests, hend⟩

/-- If the limit has too many digits to be written, a refused permission does not come out: the
failure to write the context takes its place. -/
theorem denied_replaced :
    let denied : Report := { fault := .permissionDenied, text := "no" }
    let service : Service := { answer _ _ := .error denied }
    let start := Operation.deleteChildren [] "/a" none (some (.int (2 ^ 14400 : Nat)))
    ∃ d, requests d.exchanges = [.list "/a"] ∧
      (ServiceRequest.list "/a").absorbs denied = false ∧
      (storeOver service).Ends [] (start, {}) (.error Failure.overlong) d ∧
      ¬ ∃ f d', f.problem = denied.problem ∧
        (storeOver service).Ends [] (start, {}) (.error f) d' := by
  have hlong := Value.isOverlong_two_pow
  generalize (2 ^ 14400 : Nat) = n at hlong ⊢
  intro denied service start
  have hown := Operation.covers_deletionContext [] "/a" none (some (.int n)) hlong
  have hend : (storeOver service).Ends [] (start, {}) (.error (denied.failure.leaving _)) _ :=
    ends_of_refused (by cbv) rfl rfl none (some (.int n))
  rw [Failure.leaving_of_overlong rfl rfl hown] at hend
  refine ⟨_, rfl, rfl, hend, ?_⟩
  rintro ⟨f, d', hproblem, hother⟩
  obtain ⟨hsame, -⟩ := hend.unique hother
  obtain rfl := Except.error.inj hsame
  cases hproblem

end Workspace

end TreeStore
