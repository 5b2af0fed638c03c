import TreeStore.Scope.Program

/-!
# What contexts do to failures

Every step of a program leaves the context active that it found. A failure that comes out of a step
was raised in it, or in steps inside of contexts, and left these contexts one after the other. So it
has the notes that it was raised with, or a note of the innermost context that can be written; and
if the innermost of all cannot be written, the failure to write it takes the place of the first one.
-/

namespace TreeStore

/-- A failure as it leaves contexts, the innermost first. -/
def Failure.leavingAll (f : Failure) (contexts : List Context) : Failure :=
  contexts.foldl Failure.leaving f

namespace Failure

variable {f : Failure} {contexts : List Context}

/-- The innermost context is left first. -/
@[simp] theorem leavingAll_cons (f : Failure) (context : Context) (outer : List Context) :
    f.leavingAll (context :: outer) = (f.leaving context).leavingAll outer := rfl

/-- The outermost context is left last. -/
@[simp] theorem leavingAll_concat (f : Failure) (inner : List Context) (context : Context) :
    f.leavingAll (inner ++ [context]) = (f.leavingAll inner).leaving context := by
  rw [leavingAll, List.foldl_append]
  rfl

/-- A failure with notes keeps them. -/
theorem leavingAll_of_notes (h : f.notes ≠ []) (contexts : List Context) :
    f.leavingAll contexts = f := by
  induction contexts with
  | nil => rfl
  | cons context outer ih => rwa [leavingAll_cons, leaving_of_notes h]

/-- An interrupt passes unchanged. -/
theorem leavingAll_of_interrupt (h : f.problem.isInterrupt = true) (contexts : List Context) :
    f.leavingAll contexts = f := by
  induction contexts with
  | nil => rfl
  | cons context outer ih => rwa [leavingAll_cons, leaving_of_interrupt h]

/-- Any other failure gets a note of the innermost context that can be written. If the innermost of
all cannot be written, the failure to do so takes its place. -/
theorem leavingAll_eq (hn : f.notes = []) (hi : f.problem.isInterrupt = false) :
    f.leavingAll contexts =
      let raised := if contexts.head?.any Context.isOverlong then overlong else f
      match contexts.find? fun context => !context.isOverlong with
      | none => raised
      | some context => { raised with notes := ["Context: " ++ context.display] } := by
  induction contexts generalizing f with
  | nil => rfl
  | cons context outer ih =>
    rw [leavingAll_cons]
    cases hcontext : context.isOverlong with
    | false =>
      rw [leaving_of_writable hn hi hcontext, leavingAll_of_notes (List.cons_ne_nil _ _)]
      simp [hcontext]
    | true =>
      rw [leaving_of_overlong hn hi hcontext, ih rfl rfl]
      simp [hcontext]

end Failure

namespace Scope

variable {active : Context} {item : Item} {raised f : Failure} {contexts : List Context}

mutual

/-- Whatever a step does, the context from before is active afterwards. -/
theorem active_run (active : Context) (item : Item) : (run active item).active = active := by
  cases item with
  | within pairs body => rw [run, inside]
  | observe => rw [run, written]; split <;> rfl
  | label => rw [run, written]; split <;> rfl
  | attempt body =>
    rw [run]
    exact active_runAll active body
  | fail failure => rw [run]
  | call function args keywords body value =>
    rw [run]
    split <;> rfl

/-- Whatever steps do, the context from before is active afterwards. -/
theorem active_runAll (active : Context) (body : List Item) :
    (runAll active body).active = active := by
  cases body with
  | nil => rw [runAll]
  | cons item rest =>
    rw [runAll]
    dsimp only
    split
    · rw [active_run active item]
      exact active_runAll active rest
    · exact active_run active item

end

mutual

/-- A step raises a failure, in the given contexts inside of the active one. -/
inductive Raises : Context → Item → Failure → List Context → Prop
  /-- It is to fail. -/
  | fail (active : Context) (failure : Failure) : Raises active (.fail failure) failure []
  /-- The active context is to be shown and cannot be written. -/
  | observe {active : Context} (overlong : active.isOverlong = true) :
      Raises active .observe .overlong []
  /-- The active context is to be added to a record and cannot be written. -/
  | label {active : Context} (overlong : active.isOverlong = true) :
      Raises active .label .overlong []
  /-- A call does not match, so that there is no context for it. -/
  | unmatched {active keywords : Context} {function : Signature} {args : List Value}
      {body : List Item} {value : Value} (pairs : function.contextPairs? args keywords = none) :
      Raises active (.call function args keywords body value) mismatch []
  /-- A call does not match, which is found inside of its context. -/
  | unbound {active keywords : Context} {function : Signature} {args : List Value}
      {body : List Item} {value : Value} {added : List (String × Value)}
      (pairs : function.contextPairs? args keywords = some added)
      (unbound : function.bind? args keywords = none) :
      Raises active (.call function args keywords body value) mismatch [active.extend added]
  /-- The steps of a function raise it. -/
  | call {active keywords : Context} {function : Signature} {args : List Value}
      {body : List Item} {value : Value} {added : List (String × Value)} {raised : Failure}
      {contexts : List Context} (pairs : function.contextPairs? args keywords = some added)
      (bound : (function.bind? args keywords).isSome = true)
      (steps : RaisesAll (active.extend added) body raised contexts) :
      Raises active (.call function args keywords body value) raised
        (contexts ++ [active.extend added])
  /-- Steps inside of a context raise it. -/
  | within {active : Context} {pairs : List (String × Value)} {body : List Item}
      {raised : Failure} {contexts : List Context}
      (steps : RaisesAll (active.extend pairs) body raised contexts) :
      Raises active (.within pairs body) raised (contexts ++ [active.extend pairs])

/-- One of some steps raises a failure, after those in front of it succeeded. -/
inductive RaisesAll : Context → List Item → Failure → List Context → Prop
  /-- The first one does. -/
  | first {active : Context} {item : Item} {rest : List Item} {raised : Failure}
      {contexts : List Context} (step : Raises active item raised contexts) :
      RaisesAll active (item :: rest) raised contexts
  /-- A later one does. -/
  | later {active : Context} {item : Item} {rest : List Item} {raised : Failure}
      {contexts : List Context} (succeeded : (run active item).failure = none)
      (steps : RaisesAll active rest raised contexts) :
      RaisesAll active (item :: rest) raised contexts

end

/-- What comes out of steps inside of a context leaves that context as well. -/
theorem failure_within (active : Context) (pairs : List (String × Value)) (body : List Item) :
    (run active (.within pairs body)).failure =
      (runAll (active.extend pairs) body).failure.map (·.leaving (active.extend pairs)) := by
  rw [run, inside]
  dsimp only
  rw [active_runAll]

/-- What comes out of a function leaves the context of its arguments. -/
theorem failure_call {keywords : Context} {function : Signature} {args : List Value}
    {added : List (String × Value)} (hpairs : function.contextPairs? args keywords = some added)
    (active : Context) (body : List Item) (value : Value) :
    (run active (.call function args keywords body value)).failure =
      (if (function.bind? args keywords).isNone then some mismatch
        else (runAll (active.extend added) body).failure).map
          (·.leaving (active.extend added)) := by
  simp only [run, hpairs, inside]
  split
  · rfl
  · split
    · rename_i hnone
      simp [hnone]
    · rw [active_runAll]

mutual

/-- A failure that comes out of a step was raised in some contexts and left them. -/
theorem exists_raises (active : Context) (item : Item) (f : Failure)
    (h : (run active item).failure = some f) :
    ∃ raised contexts, Raises active item raised contexts ∧ f = raised.leavingAll contexts := by
  cases item with
  | within pairs body =>
    rw [failure_within, Option.map_eq_some_iff] at h
    obtain ⟨inner, hinner, rfl⟩ := h
    obtain ⟨raised, contexts, hsteps, rfl⟩ := exists_raisesAll _ body inner hinner
    exact ⟨raised, _, .within hsteps, (raised.leavingAll_concat contexts _).symm⟩
  | observe =>
    rw [run, written] at h
    split at h
    · obtain rfl := Option.some.inj h
      exact ⟨_, [], .observe ‹_›, rfl⟩
    · cases h
  | label =>
    rw [run, written] at h
    split at h
    · obtain rfl := Option.some.inj h
      exact ⟨_, [], .label ‹_›, rfl⟩
    · cases h
  | attempt body =>
    rw [run] at h
    cases h
  | fail failure =>
    rw [run] at h
    obtain rfl := Option.some.inj h
    exact ⟨_, [], .fail active _, rfl⟩
  | call function args keywords body value =>
    cases hpairs : function.contextPairs? args keywords with
    | none =>
      simp only [run, hpairs] at h
      obtain rfl := Option.some.inj h
      exact ⟨_, [], .unmatched hpairs, rfl⟩
    | some added =>
      rw [failure_call hpairs, Option.map_eq_some_iff] at h
      obtain ⟨inner, hinner, rfl⟩ := h
      split at hinner
      · rename_i hunbound
        obtain rfl := Option.some.inj hinner
        exact ⟨_, _, .unbound hpairs (Option.isNone_iff_eq_none.mp hunbound), rfl⟩
      · rename_i hbound
        obtain ⟨raised, contexts, hsteps, rfl⟩ := exists_raisesAll _ body inner hinner
        refine ⟨raised, _, .call hpairs ?_ hsteps, (raised.leavingAll_concat contexts _).symm⟩
        rwa [Option.isSome_iff_ne_none, ne_eq, ← Option.isNone_iff_eq_none]

/-- A failure that comes out of several steps was raised by one of them. -/
theorem exists_raisesAll (active : Context) (body : List Item) (f : Failure)
    (h : (runAll active body).failure = some f) :
    ∃ raised contexts, RaisesAll active body raised contexts ∧ f = raised.leavingAll contexts := by
  cases body with
  | nil =>
    rw [runAll] at h
    cases h
  | cons item rest =>
    rw [runAll] at h
    dsimp only at h
    split at h
    · rw [active_run] at h
      obtain ⟨raised, contexts, hsteps, rfl⟩ := exists_raisesAll active rest f h
      exact ⟨raised, contexts, .later ‹_› hsteps, rfl⟩
    · obtain ⟨raised, contexts, hstep, rfl⟩ := exists_raises active item f h
      exact ⟨raised, contexts, .first hstep, rfl⟩

end

mutual

/-- A failure that a step raises comes out of it as it leaves its contexts. -/
theorem failure_of_raises (active : Context) (item : Item) {raised : Failure}
    {contexts : List Context} (h : Raises active item raised contexts) :
    (run active item).failure = some (raised.leavingAll contexts) := by
  cases item with
  | attempt body => cases h
  | fail failure =>
    cases h
    rw [run]
    rfl
  | observe =>
    cases h with
    | observe overlong =>
      rw [run, written, if_pos overlong]
      rfl
  | label =>
    cases h with
    | label overlong =>
      rw [run, written, if_pos overlong]
      rfl
  | within pairs body =>
    cases h with
    | within steps =>
      rw [failure_within, failure_of_raisesAll _ body steps, Failure.leavingAll_concat]
      rfl
  | call function args keywords body value =>
    cases h with
    | unmatched pairs =>
      simp only [run, pairs]
      rfl
    | unbound pairs unbound =>
      rw [failure_call pairs, unbound]
      rfl
    | call pairs bound steps =>
      rw [failure_call pairs, Option.isNone_eq_false_iff.mpr bound,
        failure_of_raisesAll _ body steps, Failure.leavingAll_concat]
      rfl

/-- A failure that one of several steps raises comes out of them as it leaves the contexts around.
-/
theorem failure_of_raisesAll (active : Context) (body : List Item) {raised : Failure}
    {contexts : List Context} (h : RaisesAll active body raised contexts) :
    (runAll active body).failure = some (raised.leavingAll contexts) := by
  cases body with
  | nil => cases h
  | cons item rest =>
    rw [runAll]
    cases h with
    | first step =>
      have hfails := failure_of_raises active item step
      simp only [hfails]
    | later succeeded steps =>
      simp only [succeeded, active_run]
      exact failure_of_raisesAll active rest steps

end

/-- A failure comes out of a step exactly if it was raised in it, in some contexts, and left these
from the innermost to the outermost. -/
theorem failure_run_iff : (run active item).failure = some f ↔
    ∃ raised contexts, Raises active item raised contexts ∧ f = raised.leavingAll contexts := by
  constructor
  · exact exists_raises active item f
  · rintro ⟨raised, contexts, hraises, rfl⟩
    exact failure_of_raises active item hraises

/-- A failure with notes comes out unchanged, and so does an interrupt. -/
theorem Raises.unchanged (h : Raises active item raised contexts)
    (hkept : raised.notes ≠ [] ∨ raised.problem.isInterrupt = true) :
    (run active item).failure = some raised := by
  rw [failure_of_raises active item h]
  obtain hnotes | hinterrupt := hkept
  · rw [Failure.leavingAll_of_notes hnotes]
  · rw [Failure.leavingAll_of_interrupt hinterrupt]

/-- Any other failure gets one note, which names the innermost context that can be written. Its
problem and source are kept if the innermost of all can be written; else it is replaced by the
failure to write that. -/
theorem Raises.note (h : Raises active item raised contexts) (hn : raised.notes = [])
    (hi : raised.problem.isInterrupt = false) : ∃ f, (run active item).failure = some f ∧
      f.notes = ((contexts.find? fun context => !context.isOverlong).map
        fun context => "Context: " ++ context.display).toList ∧
      (contexts.head?.any Context.isOverlong = false →
        f.problem = raised.problem ∧ f.source = raised.source) ∧
      (contexts.head?.any Context.isOverlong = true → f.problem = Failure.overlong.problem) := by
  refine ⟨_, failure_of_raises active item h, ?_⟩
  rw [Failure.leavingAll_eq hn hi]
  cases contexts.find? fun context => !context.isOverlong <;>
    cases contexts.head?.any Context.isOverlong <;> simp [hn, Failure.overlong]

end Scope

end TreeStore
