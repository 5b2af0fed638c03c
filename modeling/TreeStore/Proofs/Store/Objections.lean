import TreeStore.Proofs.Operation.Modes
import TreeStore.Proofs.Store.Refusal
import TreeStore.Proofs.Workspace.Reports

/-!
# Objections to arguments

A store in memory objects to containers if it has none, and a store of directories to whatever is no
plain empty node and to versions. Apart from malformed paths there is nothing else that they object
to: all other failures come from the nodes, the session or the service.
-/

namespace TreeStore

/-- What goes wrong in a store is no objection to an argument. -/
theorem Problem.store_ne_argument (found : StoreFault) (path message : String)
    (fault : ArgumentFault) : store found path message ≠ .argument fault := by
  intro h
  cases h

namespace Memory

variable {m : Memory} {path : String} {problem : Problem} {failure : Failure}

theorem not_argument_of_validate {isOpen : Bool} (h : Path.validate path isOpen = .error problem)
    (fault : ArgumentFault) : problem ≠ .argument fault := by
  obtain ⟨found, -, rfl⟩ := Path.validate_eq_error_iff.mp h
  nofun

theorem create_not_argument {data : List UInt8} {acl : List Acl} {mode : CreateMode}
    (hcontainer : mode.isContainer = true → m.containers = true)
    (h : (m.create path data acl mode).2 = .error problem) (fault : ArgumentFault) :
    problem ≠ .argument fault := by
  have hplace (m : Memory) (above path : String) (node : Node)
      (h : (m.place above path node).2 = .error problem) : problem ≠ .argument fault := by
    rw [place] at h
    split at h
    · cases h
      exact Problem.store_ne_argument _ _ _ fault
    · cases h
  rw [create] at h
  split at h
  · rename_i hv
    cases h
    exact not_argument_of_validate hv fault
  split at h
  · rename_i hmode
    simp only [Bool.and_eq_true, Bool.not_eq_true'] at hmode
    rw [hcontainer hmode.1] at hmode
    cases hmode.2
  split at h
  · cases h
    exact Problem.store_ne_argument _ _ _ fault
  dsimp only at h
  split at h
  · cases h
    exact Problem.store_ne_argument _ _ _ fault
  split at h
  · exact hplace _ _ _ _ h
  · exact hplace _ _ _ _ h

theorem delete_not_argument {version : Int} (h : (m.delete path version).2 = .error problem)
    (fault : ArgumentFault) : problem ≠ .argument fault := by
  rw [delete] at h
  split at h
  · rename_i hv
    cases h
    exact not_argument_of_validate hv fault
  split at h
  · cases h
    exact Problem.store_ne_argument _ _ _ fault
  split at h
  · cases h
    exact Problem.store_ne_argument _ _ _ fault
  split at h
  · cases h
    exact Problem.store_ne_argument _ _ _ fault
  split at h
  · cases h
    exact Problem.store_ne_argument _ _ _ fault
  rw [unlink] at h
  split at h
  · cases h
  · cases h
    intro hproblem
    cases hproblem

theorem children_not_argument (h : m.children path = .error problem) (fault : ArgumentFault) :
    problem ≠ .argument fault := by
  cases hv : Path.validate path false with
  | error refusal =>
    rw [children, hv] at h
    cases h
    exact not_argument_of_validate hv fault
  | ok p =>
    cases ho : m.closed with
    | true =>
      rw [children, hv, ho] at h
      cases h
      exact Problem.store_ne_argument _ _ _ fault
    | false =>
      have hp : Path.IsValid path := ⟨(Path.validate_eq_ok_iff.mp hv).1⟩
      rw [children_of_open hp ho] at h
      split at h
      · cases h
        exact Problem.store_ne_argument _ _ _ fault
      · cases h

/-- A store in memory objects to the arguments of a call only if it is to create a container and
cannot. -/
theorem not_argument_of_serve {call : Call} (arrange : List String → List String)
    (h : ∀ path data acl mode, call = .create path data acl mode → mode.isContainer = true →
      m.containers = true) (hfailure : (m.serve arrange call).2 = .error failure)
    (fault : ArgumentFault) : failure.problem ≠ .argument fault := by
  cases call with
  | probe path =>
    obtain ⟨problem, he, rfl⟩ := Answer.of_eq_error_iff.mp hfailure
    rw [probe] at he
    split at he
    · cases he
      exact Problem.store_ne_argument _ _ _ fault
    · cases he
  | children path =>
    obtain ⟨problem, he, rfl⟩ := Answer.of_eq_error_iff.mp hfailure
    exact children_not_argument he fault
  | create path data acl mode =>
    obtain ⟨problem, he, rfl⟩ := Answer.of_eq_error_iff.mp hfailure
    exact create_not_argument (h path data acl mode rfl) he fault
  | delete path version =>
    obtain ⟨problem, he, rfl⟩ := Answer.of_eq_error_iff.mp hfailure
    exact delete_not_argument he fault
  | capability => cases hfailure

end Memory

namespace Workspace

variable {service : Service} {heard : List Exchange} {call : Call} {failure : Failure}

theorem plan_of_suits (h : call.Suits (· = .persistent)) (fault : ArgumentFault) :
    plan call ≠ .refuse fault := by
  cases call with
  | create path data acl mode =>
    obtain ⟨rfl, rfl⟩ := h
    rw [plan_create]
    nofun
  | delete path version =>
    obtain rfl : version = anyVersion := h
    rw [plan_delete]
    nofun
  | _ => nofun

/-- A store of directories objects to the arguments of a call only if it is to create anything but
an empty plain node, or to delete a certain version. -/
theorem not_argument_of_answer (h : call.Suits (· = .persistent))
    (hfailure : (storeOver service).answer heard call = .error failure) (fault : ArgumentFault) :
    failure.problem ≠ .argument fault := by
  by_cases hreport : ∃ request report, request? call = some request ∧
      service.answer (requests heard) request = .error report
  · obtain ⟨request, report, hrequest, hreported⟩ := hreport
    cases habsorbs : request.absorbs report with
    | true =>
      have hexpected := (expects_of_absorbs hrequest hreported habsorbs hfailure).1
      intro hproblem
      rw [hproblem] at hexpected
      cases call <;> cases hexpected
    | false =>
      rw [answer_over_of_report hrequest hreported habsorbs] at hfailure
      cases hfailure
      nofun
  · obtain ⟨problem, rfl, hown | ⟨refused, -, hplan⟩⟩ := over_error_of_not_report hreport hfailure
    · intro hproblem
      obtain rfl : problem = .argument fault := hproblem
      cases hown
    · exact absurd hplan (plan_of_suits h refused)

end Workspace

end TreeStore
