import TreeStore.Proofs.Operation.Propagation
import TreeStore.Workspace

/-!
# The service behind a store of workspace directories

A service answers requests with values and reports; as with stores, nothing is known about it, and
its answers may depend on all that it was asked before. What a store of workspace directories makes
of the answers is a store like any other, so that what is known about operations against any store
can be read as statements about the requests that the service gets.
-/

namespace TreeStore

/-- What the service raises instead of an answer. -/
structure Report where
  /-- The kind of the report. -/
  fault : ServiceFault
  /-- Its text. -/
  text : String := ""
  /-- Its code, if it has one. -/
  code : Option String := none
  /-- Remarks that it was raised with. -/
  notes : List String := []
  /-- The problem that it was raised from. -/
  source : Option Problem := none

namespace Report

/-- The problem that a report is. -/
def problem (report : Report) : Problem := .service report.fault report.text report.code

/-- The failure that a report is when it leaves the service. -/
def failure (report : Report) : Failure :=
  { problem := report.problem, notes := report.notes, source := report.source }

end Report

/-- A workspace service. -/
structure Service where
  /-- Its answer to a request, after the given ones. -/
  answer : List ServiceRequest → ServiceRequest → Except Report Value

/-- The answer of a service as its client gets it. -/
def Service.reply (service : Service) (asked : List ServiceRequest) (request : ServiceRequest) :
    Answer :=
  (service.answer asked request).mapError Report.failure

/-- A value is replied as it is. -/
theorem Service.reply_of_ok {service : Service} {asked : List ServiceRequest}
    {request : ServiceRequest} {value : Value} (h : service.answer asked request = .ok value) :
    service.reply asked request = .ok value := by
  rw [reply, h]
  rfl

/-- A report is replied as the failure it stands for. -/
theorem Service.reply_of_report {service : Service} {asked : List ServiceRequest}
    {request : ServiceRequest} {report : Report}
    (h : service.answer asked request = .error report) :
    service.reply asked request = .error report.failure := by
  rw [reply, h]
  rfl

/-- The reports that a store of directories has an outcome for: that the object is missing, that
another object has the path of a directory to be made, and that a directory to be deleted is not
empty. -/
def ServiceRequest.absorbs (request : ServiceRequest) (report : Report) : Bool :=
  match request with
  | status _ | list _ => report.fault.isAbsence
  | makeDirectories _ => report.fault = .resourceExists
  | delete _ => report.fault.isAbsence || report.code = some Workspace.notEmptyCode

namespace Workspace

/-- The request that a call leads to. -/
def request? (call : Call) : Option ServiceRequest :=
  match plan call with
  | .ask _ request _ => some request
  | _ => none

/-- The requests that some exchanges led to. -/
def requests (exchanges : List Exchange) : List ServiceRequest :=
  exchanges.filterMap fun exchange => request? exchange.call

/-- The store of directories on top of a service. -/
def storeOver (service : Service) : Respondent where
  className := className
  answer exchanges call :=
    carryOut (m := Id) (fun _ => ()) (service.reply (requests exchanges)) call

variable {service : Service} {exchanges : List Exchange} {call : Call} {request : ServiceRequest}
  {report : Report}

/-- The requests of one stretch of calls come before those of the next. -/
@[simp] theorem requests_append (exchanges more : List Exchange) :
    requests (exchanges ++ more) = requests exchanges ++ requests more :=
  List.filterMap_append

/-- A call that is refused for its arguments fails without a request. -/
theorem answer_over_refuse {fault : ArgumentFault} (h : plan call = .refuse fault) :
    (storeOver service).answer exchanges call = .error (Problem.argument fault : Problem) := by
  simp only [storeOver, carryOut, h]
  rfl

/-- A call that needs no request is answered at once. -/
theorem answer_over_answer {value : Value} (h : plan call = .answer value) :
    (storeOver service).answer exchanges call = .ok value := by
  simp only [storeOver, carryOut, h]
  rfl

/-- Any other call is answered by what its request is replied. -/
theorem answer_over_ask {remark : Option String} {interpret : Answer → Answer}
    (h : plan call = .ask remark request interpret) :
    (storeOver service).answer exchanges call =
      interpret (service.reply (requests exchanges) request) := by
  simp only [storeOver, carryOut, h]
  cases remark <;> rfl

/-- A probe asks for the status of the object. -/
theorem answer_over_probe (path : String) :
    (storeOver service).answer exchanges (.probe path) =
      found (service.reply (requests exchanges) (.status path)) :=
  answer_over_ask rfl

/-- A listing asks for the objects in the directory. -/
theorem answer_over_children (path : String) :
    (storeOver service).answer exchanges (.children path) =
      listed path (service.reply (requests exchanges) (.list path)) :=
  answer_over_ask rfl

/-- A plain node without a payload is created as a directory. -/
theorem plan_create (path : String) (acl : List Acl) : plan (.create path [] acl .persistent) =
    .ask (aclRemark path acl) (.makeDirectories path) (created path) := by
  simp [plan]

/-- The reply to a request to make directories answers the creation of a plain node. -/
theorem answer_over_create (path : String) (acl : List Acl) :
    (storeOver service).answer exchanges (.create path [] acl .persistent) =
      created path (service.reply (requests exchanges) (.makeDirectories path)) :=
  answer_over_ask (plan_create path acl)

/-- A node of any version is deleted by one request. -/
theorem plan_delete (path : String) :
    plan (.delete path anyVersion) = .ask none (.delete path) (deleted path) := by
  simp [plan]

/-- The reply to that request answers its deletion. -/
theorem answer_over_delete (path : String) :
    (storeOver service).answer exchanges (.delete path anyVersion) =
      deleted path (service.reply (requests exchanges) (.delete path)) :=
  answer_over_ask (plan_delete path)

/-- A workspace cannot create containers, and is not asked. -/
theorem answer_over_capability :
    (storeOver service).answer exchanges .capability = .ok (.bool false) :=
  answer_over_answer rfl

/-- A missing object is no node. -/
theorem found_of_absence (h : report.fault.isAbsence = true) :
    found (.error report.failure) = .ok (.bool false) := by
  simp [found, Report.failure, Report.problem, h]

/-- A missing directory cannot be listed. -/
theorem listed_of_absence (path : String) (h : report.fault.isAbsence = true) :
    listed path (.error report.failure) = .error (translated .noNode path report.failure) := by
  simp [listed, missing, Report.failure, Report.problem, h]

/-- An object in the way is a node that exists. -/
theorem created_of_exists (path : String) (h : report.fault = .resourceExists) :
    created path (.error report.failure) = .error (translated .nodeExists path report.failure) := by
  simp [created, Report.failure, Report.problem, h]

/-- A missing object cannot be deleted. -/
theorem deleted_of_absence (path : String) (h : report.fault.isAbsence = true) :
    deleted path (.error report.failure) = .error (translated .noNode path report.failure) := by
  simp [deleted, Report.failure, Report.problem, h]

/-- A directory with objects in it is a node with children. -/
theorem deleted_of_full (path : String) (h : report.fault.isAbsence = false)
    (hcode : report.code = some notEmptyCode) :
    deleted path (.error report.failure) = .error (translated .notEmpty path report.failure) := by
  simp [deleted, Report.failure, Report.problem, h, hcode]

/-- The creation of a plain node makes one request. -/
theorem request?_create (path : String) (acl : List Acl) :
    request? (.create path [] acl .persistent) = some (.makeDirectories path) := by
  rw [request?, plan_create]

/-- The deletion of a node of any version makes one request. -/
theorem request?_delete (path : String) :
    request? (.delete path anyVersion) = some (.delete path) := by
  rw [request?, plan_delete]

/-- A single call makes its own request, if it makes one. -/
theorem requests_singleton (call : Call) (answer : Answer) :
    requests [⟨call, answer⟩] = (request? call).toList := by
  rw [requests, List.filterMap_cons, List.filterMap_nil]
  cases request? call <;> rfl

/-- The calls that lead to a request. -/
theorem request?_eq_some_iff : request? call = some request ↔
    (∃ path, call = .probe path ∧ request = .status path) ∨
    (∃ path, call = .children path ∧ request = .list path) ∨
    (∃ path acl, call = .create path [] acl .persistent ∧ request = .makeDirectories path) ∨
    ∃ path, call = .delete path anyVersion ∧ request = .delete path := by
  cases call with
  | probe path => simp [request?, plan, eq_comm]
  | children path => simp [request?, plan, eq_comm]
  | capability => simp [request?, plan]
  | create path data acl mode =>
    by_cases hmode : mode = .persistent <;> by_cases hdata : data = [] <;>
      simp [request?, plan, hmode, hdata, eq_comm]
  | delete path version =>
    by_cases hversion : version = anyVersion
    · subst hversion
      simp [request?, plan, eq_comm]
    · simp [request?, plan, hversion]

/-- The answer to a call after a report that the store has no outcome for is this report. -/
theorem answer_over_of_report (hrequest : request? call = some request)
    (hreport : service.answer (requests exchanges) request = .error report)
    (habsorbs : request.absorbs report = false) :
    (storeOver service).answer exchanges call = .error report.failure := by
  have hreply := Service.reply_of_report hreport
  rcases request?_eq_some_iff.mp hrequest with ⟨path, rfl, rfl⟩ | ⟨path, rfl, rfl⟩ |
    ⟨path, acl, rfl, rfl⟩ | ⟨path, rfl, rfl⟩
  · have hpresent : report.fault.isAbsence = false := habsorbs
    rw [answer_over_probe, hreply]
    simp [found, Report.failure, Report.problem, hpresent]
  · have hpresent : report.fault.isAbsence = false := habsorbs
    rw [answer_over_children, hreply]
    simp [listed, missing, Report.failure, Report.problem, hpresent]
  · have hother : report.fault ≠ .resourceExists := by
      simpa [ServiceRequest.absorbs] using habsorbs
    rw [answer_over_create, hreply]
    cases hfault : report.fault <;> simp [created, Report.failure, Report.problem, hfault]
    exact absurd hfault hother
  · obtain ⟨hpresent, hcode⟩ : report.fault.isAbsence = false ∧
        ¬ report.code = some notEmptyCode := by
      simpa [ServiceRequest.absorbs] using habsorbs
    rw [answer_over_delete, hreply]
    simp [deleted, Report.failure, Report.problem, hpresent, hcode]

end Workspace

end TreeStore
