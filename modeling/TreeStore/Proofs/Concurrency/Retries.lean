import TreeStore.Proofs.Concurrency.Removal
import TreeStore.Proofs.Text.Overlong

/-!
# The price of a retry

A recursive deletion makes another attempt at a node only because someone else created a child of
it. Each attempt but the last one has such a creation of its own, at every depth and whatever other
clients do to the nodes in the meantime, as long as they do not close the store.
-/

namespace TreeStore.Concurrency

/-- A recursive deletion ends by returning or because there may be no more attempts at one of its
nodes. Of the attempts that it returns, all but one are paid for by creations of direct children of
its node by other clients during the call; of the attempts that it gives up after, all are, at the
node that it gives up. That there may be no more attempts is what it fails with as long as the
context of that node's level can be written; otherwise the failure to write it takes the place of
that. -/
theorem attempts_paid {m : Memory} (hm : m.Reachable) (ho : m.closed = false) (asked : Bool)
    {call : Removal} (hpath : Path.IsValid call.path)
    (hroot : call.deletesSelf = true → call.path ≠ Path.root) {moves : List Move}
    (hmoves : ∀ move ∈ moves, move ≠ .foreign .close) {outcome : Answer}
    (hend : ((System.start m asked [call.operation]).run moves).outcome 0 = some outcome) :
    ∃ during, during <+: moves ∧
      let s := (System.start m asked [call.operation]).run during
      s.outcome 0 = some outcome ∧
      (∀ earlier, earlier <+: during → earlier ≠ during →
        ((System.start m asked [call.operation]).run earlier).outcome 0 = none) ∧
      ((∃ attempts : Nat, outcome = .ok (.int attempts) ∧ 1 ≤ attempts ∧
          attempts ≤ births s.history call.path + 1) ∨
        ∃ (failure : Failure) (q : String) (attempts : Nat) (most : Int), outcome = .error failure ∧
          failure.problem = (if (call.contextAt q).isOverlong then .argument .overlongNumber
            else .retriesExhausted q attempts) ∧
          (call.context.isOverlong = false → failure.problem = .retriesExhausted q attempts) ∧
          call.most = some most ∧ (attempts : Int) = max most 1 ∧ Path.IsAbove call.path q ∧
          attempts ≤ births s.history q) := by
  obtain ⟨during, hbegins, hout, hfirst⟩ := System.exists_first hend
  refine ⟨during, hbegins, hout, hfirst, ?_⟩
  have hstart : Removing [call] (System.start m asked [call.operation]) := by
    refine Removing.start hm.consistent ho asked ?_
    intro c hc
    obtain rfl := List.mem_singleton.mp hc
    exact ⟨hpath, hroot⟩
  have hrun : Removing [call] ((System.start m asked [call.operation]).run during) := by
    refine System.run_induction hstart fun s hs move hmove => ?_
    cases move with
    | turn turn => exact hs.turn turn
    | foreign request =>
      refine hs.foreign ?_
      rintro rfl
      exact hmoves _ (hbegins.subset hmove) rfl
  cases hrun.outcome rfl hout with
  | returned attempts pos paid _ _ => exact .inl ⟨attempts, rfl, pos, paid⟩
  | exhausted q attempts most limit reached isAbove paid =>
    refine .inr ⟨call.exhausted q attempts, q, attempts, most, rfl, ?_, ?_, limit, reached, isAbove,
      paid⟩
    · exact Removal.exhausted_problem q attempts
    · intro hwritable
      rw [Removal.exhausted_problem, if_neg]
      exact fun hinside => Bool.eq_false_iff.mp hwritable (Removal.isOverlong_context hinside)

/-- A node gains a child after it was listed, and there may be one attempt only. -/
theorem attempts_paid_once :
    let call : Removal := ⟨[], "/a", some (.bool true), some (some 1)⟩
    let create (path : String) : Move := .foreign (.call (.create path [] [] .persistent))
    let turn : Move := .turn ⟨0, id, fun _ => .refl _⟩
    let moves := [create "/a", turn, create "/a/b", turn]
    ∃ during failure q, during <+: moves ∧
      ((System.start {} false [call.operation]).run during).outcome 0 = some (.error failure) ∧
      failure.problem = .retriesExhausted q 1 ∧
      1 ≤ births ((System.start {} false [call.operation]).run during).history q := by
  intro call create turn moves
  have hreachable : ({} : Memory).Reachable := ⟨true, [], rfl⟩
  have hfails : (((System.start {} false [call.operation]).run moves).outcome 0).any
      (fun outcome => !outcome.isOk) = true := by decide +kernel
  obtain ⟨outcome, hend, herror⟩ := (Option.any_eq_true _ _).mp hfails
  have hmoves : ∀ move ∈ moves, move ≠ .foreign .close := by simp [moves, create, turn]
  obtain ⟨during, hbegins, hout, -, ⟨attempts, rfl, -⟩ | hexhausted⟩ :=
    attempts_paid hreachable rfl false (by decide) (fun _ => by decide) hmoves hend
  · cases herror
  · obtain ⟨failure, q, attempts, most, rfl, -, hproblem, hmost, hreached, -, hpaid⟩ := hexhausted
    obtain rfl := Option.some.inj hmost
    obtain rfl : attempts = 1 := by omega
    exact ⟨during, failure, q, hbegins, hout, hproblem (by decide), hpaid⟩

/-- If the limit has too many digits to be written, the call ends neither by returning nor because
there may be no more attempts. -/
theorem attempts_replaced :
    let call : Removal := ⟨[], "/a", some (.bool true), some (some (-(2 ^ 14400 : Nat)))⟩
    let create (path : String) : Move := .foreign (.call (.create path [] [] .persistent))
    let turn : Move := .turn ⟨0, id, fun _ => .refl _⟩
    let moves := [create "/a", turn, create "/a/b", turn]
    ∃ failure, ((System.start {} false [call.operation]).run moves).outcome 0 =
        some (.error failure) ∧
      failure.problem.kind = "ValueError" ∧
      ∀ q attempts, failure.problem ≠ .retriesExhausted q attempts := by
  intro call create turn moves
  let kind (outcome : Answer) : Except String Unit :=
    (outcome.mapError (·.problem.kind)).map fun _ => ()
  have hfails : (((System.start {} false [call.operation]).run moves).outcome 0).any
      (fun outcome => decide (kind outcome = .error "ValueError")) = true := by decide +kernel
  obtain ⟨outcome, hend, herror⟩ := (Option.any_eq_true _ _).mp hfails
  have herror := of_decide_eq_true herror
  cases outcome with
  | ok value => cases herror
  | error failure =>
    have hkind : failure.problem.kind = "ValueError" := Except.error.inj herror
    refine ⟨failure, hend, hkind, fun q attempts hproblem => ?_⟩
    rw [hproblem] at hkind
    simp [Problem.kind] at hkind

end TreeStore.Concurrency
