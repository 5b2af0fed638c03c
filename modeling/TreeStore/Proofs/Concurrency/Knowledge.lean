import TreeStore.Proofs.Concurrency.Fleet

/-!
# What is known of stores

Whether a store can create containers is learnt from its own answer. What is kept of it agrees with
the calls on record and with the warnings that were reported: calls by operations leave it as it is,
and a choice of the mode for containers asks the store only as long as nothing is known of it.
-/

namespace TreeStore

/-- Nodes are plain exactly if the store says no. -/
theorem Client.modeOf_eq_persistent_iff {value : Value} :
    Client.modeOf value = .persistent ↔ value.truthy = false := by
  rw [modeOf]
  cases value.truthy <;> simp

/-- An operation warns of nothing when it goes on from an answer. -/
theorem Operation.severity_of_calling {operation : Operation} {call : Call}
    {resume : Answer → List LogRecord × Operation} (hn : operation.next = .calling call resume)
    (answer : Answer) : ∀ record ∈ (resume answer).1, record.severity = .debug := by
  cases operation with
  | ensure state =>
    cases state with
    | probing job path above missing =>
      cases hn
      cases answer <;> exact fun _ h => by cases h
    | creating job mode path below =>
      cases hn
      cases answer with
      | ok value => exact fun record h => by rw [List.mem_singleton.mp h]; rfl
      | error failure =>
        dsimp only
        split
        · exact fun record h => by rw [List.mem_singleton.mp h]; rfl
        · exact fun _ h => by cases h
    | choosing | done => cases hn
  | clear state =>
    have hone (frame : Clear.Frame) (message : String) :
        ∀ record ∈ [Clear.record frame message], record.severity = .debug :=
      fun record h => by rw [List.mem_singleton.mp h]; rfl
    have hnone : ∀ record ∈ ([] : List LogRecord), record.severity = .debug := by simp
    cases state with
    | listing limit frame outer =>
      cases hn
      cases answer with
      | ok value =>
        dsimp only
        split <;> exact hnone
      | error failure =>
        dsimp only
        split
        · exact hone frame _
        · exact hnone
    | deleting limit frame outer =>
      cases hn
      cases answer with
      | ok value => exact hone frame _
      | error failure =>
        dsimp only
        split
        · rw [Clear.retry]
          split
          · exact hnone
          · exact hnone
          · exact hone frame _
        · split
          · exact hone frame _
          · exact hnone
    | done => cases hn
  | listing state =>
    cases state with
    | waiting path => cases hn; exact fun _ h => by cases h
    | done => cases hn

/-- An operation warns of nothing when it was told the mode for containers. -/
theorem Operation.records_of_choosing {operation : Operation}
    {resume : Except Failure CreateMode → List LogRecord × Operation}
    (hn : operation.next = .choosing resume) (answer : Except Failure CreateMode) :
    (resume answer).1 = [] := by
  cases operation with
  | ensure state =>
    cases state with
    | choosing job missing => cases hn; cases answer <;> rfl
    | probing | creating | done => cases hn
  | clear state => cases state <;> cases hn
  | listing state => cases state <;> cases hn

namespace Fleet

variable {ι : Type} [DecidableEq ι]

/-- The answer to whether a store can create containers, unless that was a failure. -/
def Visit.capability? (visit : Visit ι) : Option Value :=
  match visit.call, visit.answer with
  | .capability, .ok value => some value
  | _, _ => none

namespace Shared

/-- What a store answered when it was asked whether it can create containers. -/
def capabilities (s : Shared ι) (store : ι) : List Value :=
  s.visits.filterMap fun visit => if visit.store = store then visit.capability? else none

/-- The warnings about a store. -/
def warnings (s : Shared ι) (store : ι) : List String :=
  s.records.filterMap fun (about, record) =>
    if about = store ∧ record.severity = .warning then some record.message else none

/-- What is known of a store agrees with what it answered: it has not answered yet, or it answered
once, its answer was kept, and there was a warning if it cannot create containers. -/
inductive Knows (s : Shared ι) (store : ι) : Prop
  | unasked (capabilities : s.capabilities store = []) (known : s.known store = none)
      (warnings : s.warnings store = [])
  | answered (value : Value) (capabilities : s.capabilities store = [value])
      (known : s.known store = some (Client.modeOf value))
      (warnings : s.warnings store = if value.truthy then [] else
        [Client.fallbackMessage (s.hosts store).className])

/-- Nothing new is known of a store. -/
structure Agrees (s s' : Shared ι) (store : ι) : Prop where
  /-- It gave no answer. -/
  capabilities : s'.capabilities store = s.capabilities store
  /-- Nothing was learnt. -/
  known : s'.known store = s.known store
  /-- There was no warning. -/
  warnings : s'.warnings store = s.warnings store
  /-- It is of the same kind. -/
  className : (s'.hosts store).className = (s.hosts store).className

variable {s s' shared : Shared ι} {store other : ι} {operation : Option Nat}
  {order : Concurrency.Arrangement} {context : Context} {call : Call} {answer : Answer}
  {reply : Except Failure CreateMode}

/-- What is known of a store stays right if nothing new is. -/
theorem Knows.agrees (h : s.Knows store) (ha : s.Agrees s' store) : s'.Knows store := by
  cases h with
  | unasked capabilities known warnings =>
    exact .unasked (ha.capabilities.trans capabilities) (ha.known.trans known)
      (ha.warnings.trans warnings)
  | answered value capabilities known warnings =>
    refine .answered value (ha.capabilities.trans capabilities) (ha.known.trans known) ?_
    rw [ha.className]
    exact ha.warnings.trans warnings

/-- A mode that is known stands for the answer of the store. -/
theorem Knows.of_known (h : s.Knows store) {mode : CreateMode} (hmode : s.known store = some mode) :
    ∃ value, s.capabilities store = [value] ∧ mode = Client.modeOf value ∧
      s.warnings store = if mode = .persistent then
        [Client.fallbackMessage (s.hosts store).className] else [] := by
  cases h with
  | unasked _ known =>
    rw [known] at hmode
    cases hmode
  | answered value capabilities known warnings =>
    rw [known] at hmode
    obtain rfl := Option.some.inj hmode
    refine ⟨value, capabilities, rfl, warnings.trans ?_⟩
    simp only [Client.modeOf_eq_persistent_iff]
    cases value.truthy <;> rfl

/-- A visit teaches nothing by itself. -/
theorem known_visit (hv : s.visit store operation order call = (s', answer)) :
    s'.known = s.known := by
  cases hv
  rfl

/-- A visit is noted. -/
theorem visits_visit (hv : s.visit store operation order call = (s', answer)) :
    s'.visits = s.visits ++ [⟨store, operation, call, answer⟩] := by
  cases hv
  rfl

/-- A visit reports nothing. -/
theorem records_visit (hv : s.visit store operation order call = (s', answer)) :
    s'.records = s.records := by
  cases hv
  rfl

/-- A visit does not change what a store is called. -/
theorem className_visit (hv : s.visit store operation order call = (s', answer)) :
    (s'.hosts other).className = (s.hosts other).className := by
  cases hv
  by_cases he : other = store
  · subst he
    simp
  · simp [he]

/-- A visit adds what the store answers if it is asked what it can do. -/
theorem capabilities_visit (hv : s.visit store operation order call = (s', answer)) :
    s'.capabilities other = s.capabilities other ++
      if store = other then (Visit.capability? ⟨store, operation, call, answer⟩).toList
      else [] := by
  rw [capabilities, visits_visit hv, List.filterMap_append]
  congr 1
  by_cases he : store = other
  · rw [if_pos he, List.filterMap_cons, if_pos he]
    cases Visit.capability? _ <;> rfl
  · rw [if_neg he, List.filterMap_cons, if_neg he]
    rfl

/-- A call leaves what is known of a store as it is, unless that store told what it can do. -/
theorem agrees_visit (hv : s.visit store operation order call = (s', answer))
    (h : store = other → Visit.capability? ⟨store, operation, call, answer⟩ = none) :
    s.Agrees s' other := by
  refine ⟨?_, congrFun (known_visit hv) other, ?_, className_visit hv⟩
  case refine_2 => rw [warnings, records_visit hv, warnings]
  rw [capabilities_visit hv]
  split
  · rename_i he
    rw [h he, Option.toList_none, List.append_nil]
  · rw [List.append_nil]

/-- Reports add the warnings among them, about the store that they are about. -/
theorem warnings_report (records : List LogRecord) : (s.report store records).warnings other =
    s.warnings other ++ if store = other then
      (records.filter (·.severity = .warning)).map LogRecord.message else [] := by
  rw [warnings, report, List.filterMap_append]
  congr 1
  induction records with
  | nil => simp
  | cons record records ih =>
    rw [List.map_cons, List.filterMap_cons, ih]
    by_cases he : store = other <;> by_cases hw : record.severity = .warning <;> simp [he, hw]

/-- Records leave what is known of a store as it is, unless it is warned of that store. -/
theorem agrees_report {records : List LogRecord}
    (h : store = other → ∀ record ∈ records, record.severity = .debug) :
    s.Agrees (s.report store records) other := by
  refine ⟨rfl, rfl, ?_, rfl⟩
  rw [warnings_report]
  split
  · rename_i he
    have hnone : records.filter (·.severity = .warning) = [] := by
      rw [List.filter_eq_nil_iff]
      intro record hmem
      simp [h he record hmem]
    rw [hnone, List.map_nil, List.append_nil]
  · rw [List.append_nil]

/-- What is learnt of one store does not concern another. -/
theorem agrees_learn (h : store ≠ other) (mode : CreateMode) :
    s.Agrees (s.learn store mode) other :=
  ⟨rfl, Function.update_of_ne (Ne.symm h) .., rfl, rfl⟩

omit [DecidableEq ι] in
@[simp] theorem known_report (records : List LogRecord) :
    (s.report store records).known = s.known := rfl

omit [DecidableEq ι] in
@[simp] theorem visits_report (records : List LogRecord) :
    (s.report store records).visits = s.visits := rfl

/-- What is learnt is known. -/
theorem modeOf_known {value : Value} :
    (s.learn store (Client.modeOf value)).known store = some (Client.modeOf value) :=
  Function.update_self ..

/-- Who is told a mode is told the one that is known from now on. -/
theorem known_of_choose (h : s.choose store operation order context = (reply, shared))
    {mode : CreateMode} (hreply : reply = .ok mode) : shared.known store = some mode := by
  obtain ⟨known, hknown, rfl, rfl⟩ | ⟨failure, -, rfl, -⟩ | ⟨asked, value, -, rfl, -, rfl⟩ :=
    choose_cases h
  · rw [hknown, Except.ok.inj hreply]
  · cases hreply
  · rw [← Except.ok.inj hreply]
    exact Function.update_self ..

/-- What is known stays known. -/
theorem known_choose (h : s.choose store operation order context = (reply, shared))
    {mode : CreateMode} (hknown : s.known other = some mode) : shared.known other = some mode := by
  obtain ⟨-, -, -, rfl⟩ | ⟨failure, -, -, hv⟩ | ⟨asked, value, hnone, -, hv, rfl⟩ := choose_cases h
  · exact hknown
  · rwa [known_visit hv]
  · have hne : other ≠ store := by
      rintro rfl
      rw [hnone] at hknown
      cases hknown
    change Function.update asked.known store _ other = _
    rwa [Function.update_of_ne hne, known_visit hv]

/-- All that is asked is what the store can do. -/
theorem visits_choose (h : s.choose store operation order context = (reply, shared)) :
    ∃ asked, shared.visits = s.visits ++ asked ∧
      ∀ visit ∈ asked, ∃ answer, visit = ⟨store, operation, .capability, answer⟩ := by
  obtain ⟨-, -, -, rfl⟩ | ⟨failure, -, -, hv⟩ | ⟨asked, value, -, -, hv, rfl⟩ := choose_cases h
  · exact ⟨[], (List.append_nil _).symm, by simp⟩
  · exact ⟨_, visits_visit hv, fun visit hmem => ⟨_, List.mem_singleton.mp hmem⟩⟩
  · have hvisits : asked.visits = _ := visits_visit hv
    exact ⟨_, hvisits, fun visit hmem => ⟨_, List.mem_singleton.mp hmem⟩⟩

/-- What is known of each store agrees with its answers after a choice, too. -/
theorem knows_choose (hall : ∀ store, s.Knows store)
    (h : s.choose store operation order context = (reply, shared)) (other : ι) :
    shared.Knows other := by
  obtain ⟨-, -, -, rfl⟩ | ⟨failure, -, -, hv⟩ | ⟨asked, value, hnone, -, hv, rfl⟩ := choose_cases h
  · exact hall other
  · exact (hall other).agrees (agrees_visit hv fun _ => rfl)
  by_cases he : store = other
  · subst he
    cases hall store with
    | answered value' _ known =>
      rw [hnone] at known
      cases known
    | unasked capabilities _ warnings =>
      refine .answered value ?_ modeOf_known ?_
      · change asked.capabilities store = _
        rw [capabilities_visit hv, capabilities, if_pos rfl]
        rfl
      · have warnings_eq : asked.warnings store = s.warnings store := by
          rw [Shared.warnings, records_visit hv, Shared.warnings]
        change (asked.report store _).warnings store = _
        rw [warnings_report, warnings_eq, warnings, if_pos rfl, List.nil_append]
        by_cases hmode : Client.modeOf value = .persistent
        · rw [if_pos hmode, if_neg (by simpa using Client.modeOf_eq_persistent_iff.mp hmode)]
          rfl
        · rw [if_neg hmode, if_pos (by simpa using mt Client.modeOf_eq_persistent_iff.mpr hmode)]
          rfl
  · exact (((hall other).agrees (agrees_visit hv fun he' => absurd he' he)).agrees
      (agrees_report fun he' => absurd he' he)).agrees (agrees_learn he _)

end Shared

end Fleet

end TreeStore
