import TreeStore.Proofs.Store.Requests

/-!
# Refused requests

A request that fails leaves a store in memory as it is. The one exception is the counter of a
sequential creation: it is given out before the path is looked for, so that it has moved on when the
path turns out to be taken.
-/

namespace TreeStore

/-- An answer is a failure exactly if the result that it shows is a problem, which is just raised.
-/
theorem Answer.of_eq_error_iff {α : Type} {toValue : α → Value} {result : Except Problem α}
    {failure : Failure} :
    Answer.of toValue result = .error failure ↔
      ∃ problem, result = .error problem ∧ failure = { problem } := by
  cases result with
  | ok a => simp [Answer.of, Failure.ofResult, Except.map]
  | error problem => simp [Answer.of, Failure.ofResult, Except.map, eq_comm]

namespace Memory

/-- The node whose counter a request moves on: the parent of the new node in a sequential creation.
-/
def Request.counterAt? : Request → Option String
  | .call (.create path _ _ mode) => if mode.isSequential then some (Path.parent path) else none
  | _ => none

/-- A request was refused for some problem: it left the store as it was, but for the counter of a
sequential creation whose path is taken. -/
structure Refused (m : Memory) (request : Request) (problem : Problem) : Prop where
  /-- The problem is of one of the kinds. -/
  kind : problem.kind ∈ refusals
  /-- The counter moved on by one. -/
  counted : ∀ above, request.counterAt? = some above → problem.isNodeExists = true →
    m.has above = true ∧ m.after request = m.modify above Node.counted
  /-- Nothing else changed. -/
  unchanged : request.counterAt? = none ∨ problem.isNodeExists = false → m.after request = m

variable {m : Memory} {path : String} {problem : Problem} {version : Int}

theorem Refused.of_refuses {request : Request} (h : Refuses problem)
    (hsame : m.after request = m) : m.Refused request problem := by
  refine ⟨h.kind, fun above _ htaken => ?_, fun _ => hsame⟩
  rw [h.free] at htaken
  cases htaken

theorem probe_refused (h : m.probe path = .error problem) :
    m.Refused (.call (.probe path)) problem := by
  rw [probe] at h
  split at h
  · obtain rfl := Except.error.inj h
    exact .of_refuses (refuses_gone path) rfl
  · cases h

theorem children_refused (h : m.children path = .error problem) :
    m.Refused (.call (.children path)) problem := by
  refine .of_refuses ?_ rfl
  rw [children] at h
  cases hv : Path.validate path false with
  | error refusal =>
    rw [hv] at h
    obtain rfl := Except.error.inj h
    exact refuses_of_validate hv
  | ok p =>
    rw [hv] at h
    cases ho : m.closed with
    | true =>
      rw [ho] at h
      obtain rfl := Except.error.inj h
      exact refuses_gone path
    | false =>
      rw [ho] at h
      cases hn : m.find? path with
      | none =>
        rw [hn] at h
        obtain rfl := Except.error.inj h
        exact refuses_noNode path
      | some node =>
        rw [hn] at h
        cases h

/-- A creation fails before anything is changed, or because the path is taken, after the counter
moved on. -/
theorem create_refused {data : List UInt8} {acl : List Acl} {mode : CreateMode}
    (h : (m.create path data acl mode).2 = .error problem) :
    m.Refused (.call (.create path data acl mode)) problem := by
  obtain ⟨refusal, hrefuses, he⟩ | ⟨parent, ha, ⟨-, he⟩ | ⟨-, he⟩⟩ :=
    create_cases m path data acl mode
  · rw [he] at h
    obtain rfl := Except.error.inj h
    exact .of_refuses hrefuses (by rw [after_create, he])
  · rw [he] at h
    obtain rfl := Except.error.inj h
    have hafter : m.after (.call (.create path data acl mode)) = m.counting path mode := by
      rw [after_create, he]
    refine ⟨by simp [refusals, Problem.ofStore, Problem.kind], fun above habove _ => ?_, ?_⟩
    · simp only [Request.counterAt?] at habove
      split at habove
      · rename_i hmode
        obtain rfl := Option.some.inj habove
        exact ⟨has_of_find? ha.parent, by rw [hafter, counting, if_pos hmode]⟩
      · cases habove
    · rintro (hnone | hfree)
      · simp only [Request.counterAt?] at hnone
        split at hnone
        · cases hnone
        · rename_i hmode
          rw [hafter, counting, if_neg hmode]
      · cases hfree
  · rw [he] at h
    cases h

/-- A deletion fails before anything is changed, but for that of the root. -/
theorem delete_refused (hm : m.Consistent) (hne : path ≠ Path.root)
    (h : (m.delete path version).2 = .error problem) :
    m.Refused (.call (.delete path version)) problem := by
  obtain ⟨refusal, hrefuses, he⟩ | ⟨node, -, -, hn, -, -, he⟩ := delete_cases m path version
  · rw [he] at h
    obtain rfl := Except.error.inj h
    exact .of_refuses hrefuses (by rw [after_delete, he])
  · rw [he, hm.unlink_eq_ok (has_of_find? hn) hne] at h
    cases h

theorem setData_refused {data : List UInt8} (h : (m.setData path data version).2 = .error problem) :
    m.Refused (.setData path data version) problem := by
  obtain ⟨refusal, hrefuses, he⟩ | ⟨node, -, -, -, he⟩ := setData_cases m path data version
  · rw [he] at h
    obtain rfl := Except.error.inj h
    exact .of_refuses hrefuses (by rw [after_setData, he])
  · rw [he] at h
    cases h

theorem reap_refused (h : m.reap.2 = .error problem) : m.Refused .reap problem := by
  rw [reap] at h
  split at h
  · rename_i hclosed
    obtain rfl := Except.error.inj h
    exact .of_refuses (refuses_gone Path.root) (by rw [after_reap, if_pos hclosed])
  · cases h

/-- A request that fails changes nothing, whatever it asks for and in whatever state the store is,
unless it is to delete the root. Only a sequential creation whose path is taken has moved on the
counter of its parent, by one. -/
theorem refused_unchanged (hm : m.Reachable) {request : Request}
    (hroot : ∀ version, request ≠ .call (.delete Path.root version)) {failure : Failure}
    (h : (m.handle request).2 = .error failure) : m.Refused request failure.problem := by
  cases request with
  | call call =>
    cases call with
    | probe path =>
      obtain ⟨problem, he, rfl⟩ := Answer.of_eq_error_iff.mp h
      exact probe_refused he
    | children path =>
      obtain ⟨problem, he, rfl⟩ := Answer.of_eq_error_iff.mp h
      exact children_refused he
    | create path data acl mode =>
      obtain ⟨problem, he, rfl⟩ := Answer.of_eq_error_iff.mp h
      exact create_refused he
    | delete path version =>
      obtain ⟨problem, he, rfl⟩ := Answer.of_eq_error_iff.mp h
      exact delete_refused hm.consistent (fun hp => hroot version (by rw [hp])) he
    | capability => cases h
  | setData path data version =>
    obtain ⟨problem, he, rfl⟩ := Answer.of_eq_error_iff.mp h
    exact setData_refused he
  | reap =>
    obtain ⟨problem, he, rfl⟩ := Answer.of_eq_error_iff.mp h
    exact reap_refused he
  | close => cases h

/-- The name that the counter is about to produce was given to another node. -/
theorem refused_unchanged_numbered :
    let m := ({} : Memory).run [.call (.create "/0000000000" [] [] .persistent)]
    let request : Request := .call (.create "/" [1] [] .ephemeralSequential)
    ∃ failure, (m.handle request).2 = .error failure ∧ failure.problem.isNodeExists = true ∧
      m.after request = m.modify Path.root Node.counted := by
  intro m request
  have hfails : Except.casesOn (motive := fun _ => Bool) (m.handle request).2
      (fun failure => failure.problem.isNodeExists) (fun _ => false) = true := by decide +kernel
  cases he : (m.handle request).2 with
  | error failure =>
    rw [he] at hfails
    have hrefused := refused_unchanged ⟨true, _, rfl⟩ (by simp [request]) he
    have habove : request.counterAt? = some Path.root := by
      simp only [request, Request.counterAt?]
      decide +kernel
    exact ⟨failure, rfl, hfails, (hrefused.counted _ habove hfails).2⟩
  | ok value =>
    rw [he] at hfails
    cases hfails

end Memory

end TreeStore
