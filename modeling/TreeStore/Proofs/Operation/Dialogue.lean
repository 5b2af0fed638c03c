import TreeStore.Tree
import Mathlib.Logic.Relation

/-!
# Operations against any store

An operation knows its store from the answers alone. Here nothing is known about the store: each
answer may be any value or failure and may depend on everything that was asked before. What such a
store hears and answers is kept, and with it what the operation reports, so that statements about
all stores are statements about all dialogues.
-/

namespace TreeStore

/-- A call to a store and its answer. -/
structure Exchange where
  /-- The call. -/
  call : Call
  /-- The answer. -/
  answer : Answer

/-- What passed between an operation and its store. -/
structure Dialogue where
  /-- The calls and their answers, the earliest first. -/
  exchanges : List Exchange := []
  /-- The mode for containers that was learnt. -/
  known : Option CreateMode := none
  /-- The records that were reported, the earliest first. -/
  records : List LogRecord := []

namespace Dialogue

/-- The dialogue after one more exchange. -/
def heard (d : Dialogue) (call : Call) (answer : Answer) : Dialogue :=
  { d with exchanges := d.exchanges ++ [⟨call, answer⟩] }

/-- The dialogue after more records. -/
def reported (d : Dialogue) (records : List LogRecord) : Dialogue :=
  { d with records := d.records ++ records }

/-- The dialogue after the mode for containers was learnt. -/
def learnt (d : Dialogue) (mode : CreateMode) : Dialogue := { d with known := some mode }

theorem reported_nil (d : Dialogue) : d.reported [] = d := by
  simp [reported]

theorem reported_cons (d : Dialogue) (record : LogRecord) (records : List LogRecord) :
    d.reported (record :: records) = (d.reported [record]).reported records := by
  simp [reported]

end Dialogue

/-- A store of any kind. -/
structure Respondent where
  /-- The name of its kind. -/
  className : String
  /-- Its answer to a call, after the given exchanges. -/
  answer : List Exchange → Call → Answer

namespace Respondent

variable {store : Respondent} {ambient : Context} {operation : Operation} {d : Dialogue}

/-- How operations reach the store. -/
def client (store : Respondent) : Client (StateM Dialogue) where
  className := return store.className
  call _ call := do
    let d ← get
    let answer := store.answer d.exchanges call
    set (d.heard call answer)
    return answer
  known := return (← get).known
  learn mode := modify fun d => d.learnt mode
  log record := modify fun d => d.reported [record]

private theorem run_report (store : Respondent) (records : List LogRecord) (d : Dialogue) :
    (records.forM store.client.log).run d = ((), d.reported records) :=
  Client.run_forM_log (fun _ _ => rfl) Dialogue.reported_nil Dialogue.reported_cons records d

/-- What is reported about the mode that was chosen from a store's answer. -/
def remarks (store : Respondent) (context : Context) (mode : CreateMode) : List LogRecord :=
  if mode = .persistent then
    [⟨.warning, .tree, Client.fallbackMessage store.className, context⟩]
  else []

/-- The mode for containers and the dialogue afterwards: a mode that is not known is asked for. -/
def choice (store : Respondent) (context : Context) (d : Dialogue) :
    Except Failure CreateMode × Dialogue :=
  match d.known with
  | some mode => (.ok mode, d)
  | none =>
    let answer := store.answer d.exchanges .capability
    let asked := d.heard .capability answer
    match answer with
    | .error failure => (.error failure, asked)
    | .ok value =>
      let mode := Client.modeOf value
      (.ok mode, (asked.reported (store.remarks context mode)).learnt mode)

theorem run_containerMode (context : Context) :
    (store.client.containerMode context).run d = store.choice context d := by
  obtain ⟨exchanges, known, records⟩ := d
  rw [Client.containerMode, choice]
  cases known with
  | some mode => rfl
  | none =>
    -- The right side is made a result in the monad, as `simp` leaves the left one.
    change _ = (pure _ : Id _)
    cases ha : store.answer exchanges .capability with
    | error failure => simp [client, ha]
    | ok value =>
      by_cases hm : Client.modeOf value = .persistent
      · simp [client, ha, hm, remarks]
      · simp [client, ha, hm, remarks, Dialogue.reported_nil]

/-- An operation that is done makes no request. -/
theorem run_step_of_finished {outcome : Answer} (h : operation.next = .finished outcome) :
    (store.client.step ambient operation).run d = (.inl outcome, d) := by
  rw [Client.step, h]
  rfl

/-- A step from one operation and dialogue to another. -/
def Steps (store : Respondent) (ambient : Context) (here there : Operation × Dialogue) : Prop :=
  (store.client.step ambient here.1).run here.2 = (.inr there.1, there.2)

/-- An operation that makes a call goes on from the answer. -/
theorem steps_of_calling {call : Call} {resume : Answer → List LogRecord × Operation}
    (h : operation.next = .calling call resume) (store : Respondent) (ambient : Context)
    (d : Dialogue) :
    let answer := store.answer d.exchanges call
    store.Steps ambient (operation, d)
      ((resume answer).2, (d.heard call answer).reported (resume answer).1) := by
  intro answer
  have hc : (store.client.call (operation.context ambient) call).run d =
      (answer, d.heard call answer) := rfl
  rw [Steps, Client.step, h]
  simp only [StateT.run_bind, hc, run_report, StateT.run_pure]
  rfl

/-- An operation that asks for the mode for containers goes on from the choice. -/
theorem steps_of_choosing {resume : Except Failure CreateMode → List LogRecord × Operation}
    (h : operation.next = .choosing resume) (store : Respondent) (ambient : Context)
    (d : Dialogue) :
    let choice := store.choice (operation.context ambient) d
    store.Steps ambient (operation, d)
      ((resume choice.1).2, choice.2.reported (resume choice.1).1) := by
  intro choice
  rw [Steps, Client.step, h]
  simp only [StateT.run_bind, run_containerMode, run_report, StateT.run_pure]
  rfl

/-- An operation that is not done takes a step. -/
theorem exists_steps (store : Respondent) (ambient : Context) (operation : Operation)
    (d : Dialogue) :
    (∃ outcome, operation.next = .finished outcome) ∨
      ∃ there, store.Steps ambient (operation, d) there := by
  cases hn : operation.next with
  | finished outcome => exact .inl ⟨outcome, rfl⟩
  | calling call resume => exact .inr ⟨_, steps_of_calling hn store ambient d⟩
  | choosing resume => exact .inr ⟨_, steps_of_choosing hn store ambient d⟩

/-- There is no other step from the same place. -/
theorem Steps.unique {here there other : Operation × Dialogue} (h : store.Steps ambient here there)
    (h' : store.Steps ambient here other) : other = there := by
  rw [Steps, h] at h'
  injection h' with hr hd
  exact Prod.ext (Sum.inr.inj hr).symm hd.symm

/-- An operation that takes a step either makes a call or asks for the mode for containers. -/
theorem Steps.cases {there : Operation × Dialogue}
    (h : store.Steps ambient (operation, d) there) :
    (∃ call resume, operation.next = .calling call resume ∧
      let answer := store.answer d.exchanges call
      there = ((resume answer).2, (d.heard call answer).reported (resume answer).1)) ∨
    ∃ resume, operation.next = .choosing resume ∧
      let choice := store.choice (operation.context ambient) d
      there = ((resume choice.1).2, choice.2.reported (resume choice.1).1) := by
  cases hn : operation.next with
  | finished outcome =>
    rw [Steps, run_step_of_finished hn] at h
    cases h
  | calling call resume =>
    exact .inl ⟨call, resume, rfl, (steps_of_calling hn store ambient d).unique h⟩
  | choosing resume => exact .inr ⟨resume, rfl, (steps_of_choosing hn store ambient d).unique h⟩

/-- A machine that makes a call goes on from some answer. -/
theorem Steps.answered {σ : Type} {wrap : σ → Operation} {call : Call}
    {resume : Answer → List LogRecord × σ} {there : Operation × Dialogue}
    (h : store.Steps ambient (operation, d) there)
    (hn : operation.next = (Next.calling call resume).map wrap) :
    ∃ answer, there = (wrap (resume answer).2, (d.heard call answer).reported (resume answer).1) :=
  ⟨_, (h.unique (steps_of_calling hn store ambient d)).symm⟩

/-- What a run from an operation and a dialogue goes through. -/
def Reaches (store : Respondent) (ambient : Context) (here there : Operation × Dialogue) : Prop :=
  Relation.ReflTransGen (store.Steps ambient) here there

/-- A run ends with the outcome and leaves the dialogue, as long as its budget is large enough. -/
def Ends (store : Respondent) (ambient : Context) (here : Operation × Dialogue) (outcome : Answer)
    (d : Dialogue) : Prop :=
  ∃ enough, ∀ budget, enough ≤ budget →
    (store.client.run ambient budget here.1).run here.2 = (some outcome, d)

variable {here there : Operation × Dialogue} {outcome : Answer}

theorem run_of_steps (h : store.Steps ambient here there) (budget : Nat) :
    (store.client.run ambient (budget + 1) here.1).run here.2 =
      (store.client.run ambient budget there.1).run there.2 := by
  rw [Client.run, StateT.run_bind, h]
  rfl

theorem run_of_finished (h : here.1.next = .finished outcome) (budget : Nat) :
    (store.client.run ambient (budget + 1) here.1).run here.2 = (some outcome, here.2) := by
  rw [Client.run, StateT.run_bind, run_step_of_finished h]
  rfl

/-- An operation that is done ends there and then. -/
theorem ends_of_finished (h : here.1.next = .finished outcome) :
    store.Ends ambient here outcome here.2 := by
  refine ⟨1, fun budget hb => ?_⟩
  obtain ⟨rest, rfl⟩ := Nat.exists_eq_add_of_le' hb
  exact run_of_finished h rest

/-- A run ends as it does from any of the places that it goes through. -/
theorem Reaches.ends (h : store.Reaches ambient here there)
    (hend : store.Ends ambient there outcome d) : store.Ends ambient here outcome d := by
  induction h using Relation.ReflTransGen.head_induction_on with
  | refl => exact hend
  | head hstep _ ih =>
    obtain ⟨enough, hrun⟩ := ih
    refine ⟨enough + 1, fun budget hb => ?_⟩
    obtain ⟨rest, rfl⟩ := Nat.exists_eq_add_of_le' (Nat.le_of_add_left_le hb)
    rw [run_of_steps hstep]
    exact hrun rest (by omega)

/-- Whatever a run does within its budget, it reaches a place with that dialogue. -/
theorem reaches_run (store : Respondent) (ambient : Context) (budget : Nat)
    (here : Operation × Dialogue) :
    ∃ operation, store.Reaches ambient here
      (operation, ((store.client.run ambient budget here.1).run here.2).2) ∧
      ∀ outcome, ((store.client.run ambient budget here.1).run here.2).1 = some outcome →
        operation.next = .finished outcome := by
  induction budget generalizing here with
  | zero => exact ⟨here.1, .refl, fun _ h => nomatch h⟩
  | succ budget ih =>
    obtain ⟨operation, d⟩ := here
    obtain ⟨outcome, hn⟩ | ⟨there, hstep⟩ := exists_steps store ambient operation d
    · rw [run_of_finished hn]
      exact ⟨operation, .refl, fun _ h => by rw [hn, Option.some.inj h]⟩
    · obtain ⟨last, hreach, hlast⟩ := ih there
      rw [run_of_steps hstep]
      exact ⟨last, .head hstep hreach, hlast⟩

/-- A run that is done within some budget ends like this with any larger one. -/
theorem ends_of_run (budget : Nat)
    (h : (store.client.run ambient budget here.1).run here.2 = (some outcome, d)) :
    store.Ends ambient here outcome d := by
  obtain ⟨operation, hreach, hlast⟩ := reaches_run store ambient budget here
  rw [h] at hreach hlast
  exact hreach.ends (ends_of_finished (hlast outcome rfl))

/-- A run that ends reaches the place where its operation is done. -/
theorem Ends.reaches (h : store.Ends ambient here outcome d) :
    ∃ there, store.Reaches ambient here there ∧ there.1.next = .finished outcome ∧
      there.2 = d := by
  obtain ⟨enough, hrun⟩ := h
  obtain ⟨operation, hreach, hlast⟩ := reaches_run store ambient enough here
  rw [hrun enough (Nat.le_refl _)] at hreach hlast
  exact ⟨_, hreach, hlast outcome rfl, rfl⟩

/-- A run ends in one way only. -/
theorem Ends.unique {outcome' : Answer} {d' : Dialogue} (h : store.Ends ambient here outcome d)
    (h' : store.Ends ambient here outcome' d') : outcome = outcome' ∧ d = d' := by
  obtain ⟨enough, hrun⟩ := h
  obtain ⟨enough', hrun'⟩ := h'
  have hsame := (hrun (max enough enough') (Nat.le_max_left _ _)).symm.trans
    (hrun' (max enough enough') (Nat.le_max_right _ _))
  exact ⟨Option.some.inj (congrArg Prod.fst hsame), congrArg Prod.snd hsame⟩

end Respondent

end TreeStore
