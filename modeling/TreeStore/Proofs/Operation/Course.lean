import TreeStore.Proofs.Concurrency.Creation
import TreeStore.Proofs.Operation.Dialogue
import TreeStore.Proofs.Path.Joining
import Mathlib

/-!
# The order of calls in recursive creation

A recursive creation asks about the nodes along its path from the leaf upwards, no further than to
the first that is there, and then creates those below it downwards. Whatever the store answers, it
asks and creates no node twice, leaves none out in between, and calls for nothing else but, once,
for the mode of containers. A call that fails in an unexpected way only cuts this course short.
-/

namespace TreeStore

/-- The calls that a store heard, the earliest first. -/
def Dialogue.calls (d : Dialogue) : List Call := d.exchanges.map Exchange.call

theorem Dialogue.calls_heard (d : Dialogue) (call : Call) (answer : Answer) :
    (d.heard call answer).calls = d.calls ++ [call] := by
  simp [calls, heard]

theorem Dialogue.calls_reported (d : Dialogue) (records : List LogRecord) :
    (d.reported records).calls = d.calls := rfl

namespace Concurrency.Creation

variable {c : Creation} {known : Option CreateMode} {mode : CreateMode} {d : Dialogue}
  {existing missing before rest : List String}

/-- The questions of a call that finds the first nodes along its path existing and the others
missing: about the missing ones, upwards, and about the last existing one if there is any. -/
def questions (existing missing : List String) : List Call :=
  missing.reverse.map .probe ++ existing.getLast?.toList.map .probe

/-- The question about containers, which is put only if the call is to create such and nothing is
known about them. -/
def inquiry (c : Creation) (known : Option CreateMode) : List Call :=
  if c.wantsContainers && known.isNone then [.capability] else []

/-- The request to create a node. -/
def creation (c : Creation) (mode : CreateMode) (q : String) : Call :=
  .create q [] (c.acl q) mode

theorem creation_ne_probe (c : Creation) (mode : CreateMode) (q r : String) :
    c.creation mode q ≠ .probe r :=
  fun h => nomatch h

/-- The calls in order, if the first nodes along the path exist and the others are missing. -/
def course (c : Creation) (known : Option CreateMode) (mode : CreateMode)
    (existing missing : List String) : List Call :=
  questions existing missing ++ c.inquiry known ++ (c.wantedOf missing).map (c.creation mode)

/-- The answers say that of the nodes asked about none is there but the last existing one. -/
def Told (existing : List String) (exchanges : List Exchange) : Prop :=
  ∀ q answer, ⟨.probe q, answer⟩ ∈ exchanges →
    ∃ value, answer = .ok value ∧ (value.truthy = true ↔ existing.getLast? = some q)

/-- An answer to another call tells nothing about nodes. -/
theorem Told.heard (h : Told existing d.exchanges) {call : Call} (hcall : ∀ q, call ≠ .probe q)
    (answer : Answer) : Told existing (d.heard call answer).exchanges := by
  intro q answer' hmem
  obtain hmem | hlast := List.mem_append.mp hmem
  · exact h q answer' hmem
  · obtain ⟨hprobe, -⟩ : Call.probe q = call ∧ answer' = answer := by simpa using hlast
    exact absurd hprobe.symm (hcall q)

/-- What an operation that carries out the call and its store have said to each other. -/
inductive OnCourse (c : Creation) (known : Option CreateMode) : Ensure → Dialogue → Prop
  | probing {path : String} {above missing : List String} {d : Dialogue}
      (along : Path.prefixes c.path = above.reverse ++ path :: missing) (unasked : d.known = known)
      (calls : d.calls = missing.reverse.map .probe) (told : Told [] d.exchanges) :
      OnCourse c known (.probing c.job path above missing) d
  | choosing {existing missing : List String} {d : Dialogue}
      (along : Path.prefixes c.path = existing ++ missing) (wants : c.wantsContainers = true)
      (unasked : d.known = known) (calls : d.calls = questions existing missing)
      (told : Told existing d.exchanges) :
      OnCourse c known (.choosing c.job (c.wantedOf missing)) d
  | creating {path : String} {mode : CreateMode} {existing missing before below : List String}
      {d : Dialogue} (along : Path.prefixes c.path = existing ++ missing)
      (wanted : c.wantedOf missing = before ++ path :: below)
      (calls : d.calls =
        questions existing missing ++ c.inquiry known ++ before.map (c.creation mode))
      (told : Told existing d.exchanges) :
      OnCourse c known (.creating c.job mode path below) d
  | succeeded {mode : CreateMode} {existing missing : List String} {d : Dialogue}
      (along : Path.prefixes c.path = existing ++ missing)
      (calls : d.calls = c.course known mode existing missing) (told : Told existing d.exchanges) :
      OnCourse c known (.done (.ok .null)) d
  | failed {mode : CreateMode} {existing missing : List String} {d : Dialogue}
      {earlier : List Exchange} {call : Call} {failure f : Failure}
      (along : Path.prefixes c.path = existing ++ missing)
      (last : d.exchanges = earlier ++ [⟨call, .error failure⟩])
      (calls : d.calls <+: c.course known mode existing missing) (told : Told existing earlier) :
      OnCourse c known (.done (.error f)) d

/-- The next of the wanted nodes is to be created, or none is left. -/
theorem onCourse_create (hp : Path.prefixes c.path = existing ++ missing)
    (hwanted : c.wantedOf missing = before ++ rest)
    (hcalls : d.calls =
      questions existing missing ++ c.inquiry known ++ before.map (c.creation mode))
    (htold : Told existing d.exchanges) : OnCourse c known (Ensure.create c.job mode rest) d := by
  cases rest with
  | cons path below => exact .creating hp hwanted hcalls htold
  | nil =>
    rw [List.append_nil] at hwanted
    have hcourse : d.calls = c.course known mode existing missing := by
      rw [course, hwanted, hcalls]
    exact .succeeded hp hcourse htold

/-- Nothing is created yet. -/
theorem onCourse_create_first (hp : Path.prefixes c.path = existing ++ missing)
    (hcalls : d.calls = questions existing missing ++ c.inquiry known)
    (htold : Told existing d.exchanges) :
    OnCourse c known (Ensure.create c.job mode (c.wantedOf missing)) d := by
  have hwanted : c.wantedOf missing = [] ++ c.wantedOf missing := rfl
  refine onCourse_create hp hwanted ?_ htold
  rw [hcalls, List.map_nil, List.append_nil]

/-- The questions so far and the next one begin those of a call that finds no node. -/
theorem prefix_questions {path : String} {above : List String}
    (hp : Path.prefixes c.path = above.reverse ++ path :: missing)
    (hcalls : d.calls = missing.reverse.map .probe) :
    d.calls ++ [.probe path] <+: questions [] (Path.prefixes c.path) := by
  refine ⟨above.map .probe, ?_⟩
  rw [hcalls, questions, hp]
  simp

/-- All questions about nodes are answered. -/
theorem onCourse_found (hp : Path.prefixes c.path = existing ++ missing) (hknown : d.known = known)
    (hcalls : d.calls = questions existing missing) (htold : Told existing d.exchanges) :
    OnCourse c known (Ensure.found c.job missing) d := by
  rw [found_job]
  cases hwants : c.wantsContainers with
  | true => exact .choosing hp hwants hknown hcalls htold
  | false =>
    refine onCourse_create_first hp ?_ htold
    simp [hcalls, inquiry, hwants]

/-- None of the nodes asked about so far is there. -/
theorem onCourse_probe {above : List String}
    (hp : Path.prefixes c.path = above.reverse ++ missing) (hknown : d.known = known)
    (hcalls : d.calls = missing.reverse.map .probe) (htold : Told [] d.exchanges) :
    OnCourse c known (Ensure.probe c.job missing above) d := by
  cases above with
  | cons path above => exact .probing (by simpa using hp) hknown hcalls htold
  | nil =>
    rw [List.reverse_nil] at hp
    refine onCourse_found hp hknown ?_ htold
    simp [hcalls, questions]

theorem onCourse_start (hc : Path.IsValid c.path) (known : Option CreateMode) :
    OnCourse c known (Ensure.start c.job c.path) { known } := by
  rw [Ensure.start, hc.validate]
  refine onCourse_probe (by simp) rfl rfl ?_
  intro q answer hmem
  cases hmem

end Concurrency.Creation

namespace Respondent

open Concurrency Creation

variable {store : Respondent} {ambient : Context} {c : Creation} {known : Option CreateMode}
  {d : Dialogue}

/-- The answer to the question about a node. -/
theorem onCourse_probed (hc : Path.IsValid c.path) {path : String} {above missing : List String}
    (hp : Path.prefixes c.path = above.reverse ++ path :: missing) (hknown : d.known = known)
    (hcalls : d.calls = missing.reverse.map .probe) (htold : Told [] d.exchanges)
    (value : Value) :
    OnCourse c known
      (if value.truthy then Ensure.found c.job missing
        else Ensure.probe c.job (path :: missing) above)
      (d.heard (.probe path) (.ok value)) := by
  have hasked : (d.heard (.probe path) (.ok value)).calls =
      (path :: missing).reverse.map .probe := by
    rw [Dialogue.calls_heard, hcalls]
    simp
  have hsplit : ∀ q answer, ⟨.probe q, answer⟩ ∈ (d.heard (.probe path) (.ok value)).exchanges →
      (⟨.probe q, answer⟩ ∈ d.exchanges ∧ q ∈ missing) ∨ (q = path ∧ answer = .ok value) := by
    intro q answer hmem
    obtain hmem | hlast := List.mem_append.mp hmem
    · refine .inl ⟨hmem, ?_⟩
      have hcall : Call.probe q ∈ d.calls := List.mem_map_of_mem hmem
      rw [hcalls] at hcall
      simpa using hcall
    · exact .inr (by simpa using hlast)
  cases hvalue : value.truthy with
  | true =>
    have hp' : Path.prefixes c.path = (above.reverse ++ [path]) ++ missing := by simpa using hp
    have hlast : (above.reverse ++ [path]).getLast? = some path := List.getLast?_concat
    refine onCourse_found hp' hknown ?_ ?_
    · rw [hasked, questions, hlast]
      simp
    · intro q answer hmem
      rw [hlast]
      obtain ⟨hold, hq⟩ | ⟨rfl, rfl⟩ := hsplit q answer hmem
      · obtain ⟨v, rfl, hv⟩ := htold q answer hold
        refine ⟨v, rfl, hv.trans ?_⟩
        have hnodup := Path.nodup_prefixes hc
        rw [hp'] at hnodup
        have hne : path ≠ q := (List.nodup_append.mp hnodup).2.2 path (by simp) q hq
        simp [hne]
      · exact ⟨value, rfl, by simp [hvalue]⟩
  | false =>
    refine onCourse_probe (by simpa using hp) hknown hasked ?_
    intro q answer hmem
    obtain ⟨hold, -⟩ | ⟨rfl, rfl⟩ := hsplit q answer hmem
    · exact htold q answer hold
    · exact ⟨value, rfl, by simp [hvalue]⟩

/-- A call that fails is the last one. -/
theorem onCourse_failed {existing missing : List String} {mode : CreateMode} {call : Call}
    (hp : Path.prefixes c.path = existing ++ missing) (htold : Told existing d.exchanges)
    (hcalls : d.calls ++ [call] <+: c.course known mode existing missing) (failure : Failure) :
    OnCourse c known (Ensure.failed c.job failure) (d.heard call (.error failure)) :=
  .failed hp rfl (by rwa [Dialogue.calls_heard]) htold

/-- The mode for containers is known or asked for; a store that fails then ends the call. -/
theorem onCourse_chosen (store : Respondent) (context : Context) {existing missing : List String}
    (hp : Path.prefixes c.path = existing ++ missing) (hwants : c.wantsContainers = true)
    (hknown : d.known = known) (hcalls : d.calls = questions existing missing)
    (htold : Told existing d.exchanges) :
    match store.choice context d with
    | (.ok mode, after) =>
      OnCourse c known (Ensure.create c.job mode (c.wantedOf missing)) after
    | (.error failure, after) => OnCourse c known (Ensure.failed c.job failure) after := by
  obtain ⟨exchanges, learnt, records⟩ := d
  subst hknown
  cases learnt with
  | some mode =>
    refine onCourse_create_first hp ?_ htold
    simp [hcalls, inquiry]
  | none =>
    have hinquiry : c.inquiry none = [.capability] := by simp [inquiry, hwants]
    have hprobe : ∀ q, Call.capability ≠ .probe q := fun q h => nomatch h
    rw [choice]
    cases store.answer exchanges .capability with
    | ok value =>
      refine onCourse_create_first hp ?_ (htold.heard hprobe (.ok value))
      rw [hinquiry, ← hcalls]
      exact Dialogue.calls_heard _ _ _
    | error failure =>
      have hbegins : questions existing missing ++ [.capability] <+:
          c.course none .persistent existing missing := by
        rw [course, hinquiry]
        exact List.prefix_append _ _
      rw [← hcalls] at hbegins
      exact onCourse_failed hp htold hbegins failure

/-- Whatever a store answers, the operation stays on its course. -/
theorem onCourse_step (hc : Path.IsValid c.path) {state : Ensure} (h : OnCourse c known state d)
    {there : Operation × Dialogue} (hstep : store.Steps ambient (.ensure state, d) there) :
    ∃ state', there.1 = .ensure state' ∧ OnCourse c known state' there.2 := by
  cases h with
  | probing along unasked calls told =>
    rename_i path above missing
    obtain ⟨answer, rfl⟩ := hstep.answered rfl
    refine ⟨_, rfl, ?_⟩
    cases answer with
    | ok value =>
      dsimp only
      rw [Dialogue.reported_nil]
      exact onCourse_probed hc along unasked calls told value
    | error failure =>
      dsimp only
      rw [Dialogue.reported_nil]
      have hbegins : questions [] (Path.prefixes c.path) <+:
          c.course known .persistent [] (Path.prefixes c.path) := by
        rw [course, List.append_assoc]
        exact List.prefix_append _ _
      exact onCourse_failed rfl told ((prefix_questions along calls).trans hbegins) failure
  | choosing along wants unasked calls told =>
    rename_i existing missing
    obtain rfl := hstep.unique (steps_of_choosing rfl store ambient d)
    refine ⟨_, rfl, ?_⟩
    have hchosen := onCourse_chosen store c.job.context along wants unasked calls told
    have hcontext : (Operation.ensure (.choosing c.job (c.wantedOf missing))).context ambient =
        c.job.context := rfl
    rw [hcontext]
    generalize store.choice c.job.context d = chosen at hchosen ⊢
    obtain ⟨failure | mode, after⟩ := chosen
    all_goals
      dsimp only [Prod.map, id]
      rw [Dialogue.reported_nil]
      exact hchosen
  | creating along wanted calls told =>
    rename_i path mode existing missing before below
    obtain ⟨answer, rfl⟩ := hstep.answered rfl
    refine ⟨_, rfl, ?_⟩
    have hnext : ∀ records, OnCourse c known (Ensure.create c.job mode below)
        ((d.heard (c.creation mode path) answer).reported records) := by
      intro records
      have hwanted : c.wantedOf missing = (before ++ [path]) ++ below := by
        rw [wanted, List.append_assoc, List.singleton_append]
      refine onCourse_create along hwanted ?_ (told.heard (creation_ne_probe c mode path) answer)
      rw [Dialogue.calls_reported, Dialogue.calls_heard, calls]
      simp
    cases answer with
    | ok value => exact hnext _
    | error failure =>
      dsimp only
      split
      · exact hnext _
      · rw [Dialogue.reported_nil]
        have hbegins : d.calls ++ [c.creation mode path] <+:
            c.course known mode existing missing := by
          rw [calls, course, wanted]
          exact ⟨below.map (c.creation mode), by simp⟩
        exact onCourse_failed along told hbegins failure
  | succeeded | failed =>
    rw [Steps, run_step_of_finished rfl] at hstep
    cases hstep

theorem onCourse_reaches (hc : Path.IsValid c.path) {here there : Operation × Dialogue}
    (hreach : store.Reaches ambient here there) {state : Ensure} (hhere : here.1 = .ensure state)
    (h : OnCourse c known state here.2) :
    ∃ state', there.1 = .ensure state' ∧ OnCourse c known state' there.2 := by
  induction hreach with
  | refl => exact ⟨state, hhere, h⟩
  | @tail here there _ hstep ih =>
    obtain ⟨state', hhere', h'⟩ := ih
    obtain ⟨operation, d⟩ := here
    subst hhere'
    exact onCourse_step hc h' hstep

/-- Whatever a store answers, a recursive creation ends. -/
theorem exists_ends (store : Respondent) (ambient : Context) (state : Ensure) (d : Dialogue) :
    ∃ outcome after, store.Ends ambient (.ensure state, d) outcome after := by
  induction hturns : state.turnsLeft using Nat.strongRecOn generalizing state d with
  | ind turns ih =>
    subst hturns
    have hgoes : ∀ {state' : Ensure} {d' : Dialogue}, state'.turnsLeft < state.turnsLeft →
        store.Steps ambient (.ensure state, d) (.ensure state', d') →
        ∃ outcome after, store.Ends ambient (.ensure state, d) outcome after := by
      intro state' d' hlt hstep
      obtain ⟨outcome, after, hends⟩ := ih _ hlt state' d' rfl
      exact ⟨outcome, after, Reaches.ends (.single hstep) hends⟩
    cases hn : state.next with
    | finished outcome =>
      exact ⟨outcome, d, ends_of_finished (congrArg (Next.map Operation.ensure) hn)⟩
    | calling call resume =>
      have hnext : (Operation.ensure state).next = (Next.calling call resume).map .ensure :=
        congrArg (Next.map Operation.ensure) hn
      exact hgoes (Ensure.turnsLeft_resume hn _) (steps_of_calling hnext store ambient d)
    | choosing resume =>
      have hnext : (Operation.ensure state).next = (Next.choosing resume).map .ensure :=
        congrArg (Next.map Operation.ensure) hn
      exact hgoes (Ensure.turnsLeft_choice hn _) (steps_of_choosing hnext store ambient d)

/-- Whatever a store answers, a recursive creation ends. It splits the nodes along its path in two.
If it succeeds, the store called the last node of the first part existing and each of the others
that it was asked about missing, and its calls were these: questions about the second part upwards
and about that node, if there is one, then at most one question about containers, then requests to
create the second part downwards, without the path itself if that is not wanted. If it fails, its
last call did, and its calls begin such a course. -/
theorem creation_in_order (store : Respondent) (ambient : Context) (c : Creation)
    (known : Option CreateMode) (hc : Path.IsValid c.path) :
    (∃ outcome d, store.Ends ambient (c.operation, { known }) outcome d) ∧
    ∀ outcome d, store.Ends ambient (c.operation, { known }) outcome d →
      ∃ existing missing mode, Path.lineage c.path = existing ++ missing ∧
        match outcome with
        | .ok _ => Told existing d.exchanges ∧ d.calls = c.course known mode existing missing
        | .error _ => ∃ earlier call failure, d.exchanges = earlier ++ [⟨call, .error failure⟩] ∧
            Told existing earlier ∧ d.calls <+: c.course known mode existing missing := by
  have hstart : c.operation = .ensure (Ensure.start c.job c.path) := rfl
  rw [hstart]
  refine ⟨exists_ends store ambient _ _, fun outcome d hends => ?_⟩
  obtain ⟨⟨_, d'⟩, hreach, hfinished, hd⟩ := hends.reaches
  obtain ⟨state, hstate, hcourse⟩ := onCourse_reaches hc hreach rfl (onCourse_start hc known)
  dsimp only at hstate hd
  subst hstate hd
  rw [← hc.prefixes_eq_lineage]
  cases hcourse with
  | probing | choosing | creating => cases hfinished
  | succeeded along calls told =>
    obtain rfl := Next.finished.inj hfinished
    exact ⟨_, _, _, along, told, calls⟩
  | failed along last calls told =>
    obtain rfl := Next.finished.inj hfinished
    exact ⟨_, _, _, along, _, _, _, last, told, calls⟩

/-- Below the one existing node someone else creates a node first. -/
theorem creation_in_order_below_one_node :
    let store : Respondent :=
      { className := "Store"
        answer _ call := match call with
          | .probe q => .ok (.bool (q = "/a"))
          | .create "/a/b" .. => .error (Problem.ofStore .nodeExists "/a/b" : Problem)
          | call => .ok (.str call.path) }
    let c : Creation := ⟨[], "/a/b/c", none, none, none⟩
    Path.IsValid c.path ∧ ∃ d, store.Ends [] (c.operation, {}) (.ok .null) d ∧
      d.calls = [.probe "/a/b/c", .probe "/a/b", .probe "/a",
        .create "/a/b" [] (c.acl "/a/b") .persistent,
        .create "/a/b/c" [] (c.acl "/a/b/c") .persistent] ∧
      ∃ existing missing mode, Path.lineage c.path = existing ++ missing ∧
        Told existing d.exchanges ∧ d.calls = c.course none mode existing missing := by
  intro store c
  have hvalid : Path.IsValid c.path := by decide
  have hends := (ends_of_run 6 (Prod.ext ?_ rfl) :
    store.Ends [] (c.operation, {}) (.ok .null) _)
  · obtain ⟨existing, missing, mode, hlineage, htold, hcalls⟩ :=
      (creation_in_order store [] c none hvalid).2 _ _ hends
    refine ⟨hvalid, _, hends, ?_, existing, missing, mode, hlineage, htold, hcalls⟩
    cbv
  · cbv

end Respondent

end TreeStore
