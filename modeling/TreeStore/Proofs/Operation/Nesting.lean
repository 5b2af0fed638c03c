import TreeStore.Proofs.Operation.Dialogue
import TreeStore.Proofs.Operation.Scopes

/-!
# Levels of recursive deletion as deletions of their own

Recursive deletion keeps its levels on a list. The level for a child, with everything below it, is a
recursive deletion of the child: the store hears and answers the same, and the levels above wait
until it is done. If it returns, the level above goes on; if it fails, the failure leaves the levels
above as well.
-/

namespace TreeStore

namespace Clear

/-- A deletion, and the same deletion above which other levels wait for it. -/
inductive Within (limit : Value) (levels : List Frame) : Clear → Clear → Prop
  | listing (frame : Frame) (inner : List Frame) :
      Within limit levels (.listing limit frame inner) (.listing limit frame (inner ++ levels))
  | deleting (frame : Frame) (inner : List Frame) :
      Within limit levels (.deleting limit frame inner) (.deleting limit frame (inner ++ levels))
  | returned (value : Value) (context : Context) :
      Within limit levels (.done (.ok value) context) (proceed limit 0 context levels)
  | failed (failure : Failure) (context : Context) :
      Within limit levels (.done (.error failure) context) (unwind failure context levels)

variable {limit : Value} {frame : Frame} {outer : List Frame}

namespace Within

/-- A failure that leaves the deletion goes on to leave the waiting levels. -/
theorem unwind (failure : Failure) (context : Context) (inner : List Frame) :
    Within limit outer (Clear.unwind failure context inner)
      (Clear.unwind failure context (inner ++ outer)) := by
  induction inner generalizing failure context with
  | nil => exact .failed failure context
  | cons own inner ih => exact ih (failure.leaving context) own.outside

theorem enter (outside context : Context) (path : String) (deleteSelf : Bool)
    (inner : List Frame) :
    Within limit outer (Clear.enter limit outside context path deleteSelf inner)
      (Clear.enter limit outside context path deleteSelf (inner ++ outer)) := by
  unfold Clear.enter
  dsimp only
  split
  · exact .unwind _ _ (_ :: inner)
  · exact .listing _ inner

theorem enterChild (own : Frame) (child : Value) (inner : List Frame) :
    Within limit outer (Clear.enterChild limit own child inner)
      (Clear.enterChild limit own child (inner ++ outer)) := by
  unfold Clear.enterChild
  split
  · exact .unwind _ _ (own :: inner)
  · exact .enter _ _ _ true (own :: inner)

/-- A level that returns to a level of the deletion itself goes on there, and one that returns from
the deletion goes on with the waiting levels. -/
theorem proceed (attempts : Nat) (context : Context) (inner : List Frame) :
    Within limit (frame :: outer) (Clear.proceed limit attempts context inner)
      (Clear.proceed limit attempts context (inner ++ frame :: outer)) := by
  induction inner generalizing attempts context with
  | nil => exact .returned (.int attempts) context
  | cons own inner ih =>
    rw [List.cons_append, Clear.proceed, Clear.proceed]
    cases own.pending with
    | cons child rest => exact .enterChild _ child inner
    | nil =>
      by_cases hs : own.deleteSelf = true
      · simp only [hs, if_true]
        exact .deleting _ inner
      · simp only [hs]
        exact ih own.attempts own.outside

end Within

/-- What a deletion and its copy below waiting levels go on with: the same records, and states that
belong together. -/
structure Alike (limit : Value) (levels : List Frame) (alone below : List LogRecord × Clear) :
    Prop where
  /-- The same is reported. -/
  records : below.1 = alone.1
  /-- The states belong together. -/
  states : Within limit levels alone.2 below.2

namespace Alike

theorem failed (failure : Failure) (own : Frame) (inner : List Frame) :
    Alike limit outer ([], Clear.failed failure own inner)
      ([], Clear.failed failure own (inner ++ outer)) :=
  ⟨rfl, .unwind _ _ (own :: inner)⟩

theorem leave (own : Frame) (inner : List Frame) (message : String) :
    Alike limit (frame :: outer) (Clear.leave limit own inner message)
      (Clear.leave limit own (inner ++ frame :: outer) message) :=
  ⟨rfl, .proceed own.attempts own.outside inner⟩

theorem retry (own : Frame) (inner : List Frame) (failure : Failure) :
    Alike limit outer (Clear.retry limit own inner failure)
      (Clear.retry limit own (inner ++ outer) failure) := by
  unfold Clear.retry
  split
  · exact .failed _ own inner
  · exact .failed _ own inner
  · exact ⟨rfl, .listing _ inner⟩

end Alike

/-- A deletion that is not done calls the store alike whether or not levels wait for it, and after
the same answer the two still belong together. -/
theorem Within.next {alone below : Clear} (h : Within limit (frame :: outer) alone below) :
    (∃ outcome context, alone = .done outcome context) ∨
      ∃ call resume resume', alone.next = .calling call resume ∧
        below.next = .calling call resume' ∧
        ∀ answer, Alike limit (frame :: outer) (resume answer) (resume' answer) := by
  cases h with
  | returned value context => exact .inl ⟨_, _, rfl⟩
  | failed failure context => exact .inl ⟨_, _, rfl⟩
  | listing own inner =>
    refine .inr ⟨_, _, _, rfl, rfl, fun answer => ?_⟩
    cases answer with
    | error failure =>
      by_cases hgone : failure.problem.isNoNode
      · simp only [if_pos hgone]
        exact .leave own inner _
      · simp only [if_neg hgone]
        exact .failed _ own inner
    | ok value =>
      cases hv : value.members? with
      | none =>
        simp only [hv]
        exact .failed _ own inner
      | some names =>
        simp only [hv]
        exact ⟨rfl, .proceed 0 own.context ({ own with pending := names } :: inner)⟩
  | deleting own inner =>
    refine .inr ⟨_, _, _, rfl, rfl, fun answer => ?_⟩
    cases answer with
    | ok value => exact Alike.leave own inner _
    | error failure =>
      by_cases hfull : failure.problem.isNotEmpty
      · simp only [if_pos hfull]
        exact .retry own inner failure
      · by_cases hgone : failure.problem.isNoNode
        · simp only [if_neg hfull, if_pos hgone]
          exact .leave own inner _
        · simp only [if_neg hfull, if_neg hgone]
          exact .failed _ own inner

end Clear

namespace Respondent

variable {store : Respondent} {limit : Value} {frame : Clear.Frame} {outer : List Clear.Frame}
  {alone below : Clear} {d : Dialogue}

/-- The deletion below waiting levels takes every step that it takes alone. -/
theorem steps_within (h : Clear.Within limit (frame :: outer) alone below) {own : Context}
    {there : Operation × Dialogue} (hstep : store.Steps own (.clear alone, d) there)
    (ambient : Context) :
    ∃ alone' below', there.1 = .clear alone' ∧ Clear.Within limit (frame :: outer) alone' below' ∧
      store.Steps ambient (.clear below, d) (.clear below', there.2) := by
  obtain ⟨outcome, _, rfl⟩ | ⟨call, resume, resume', halone, hbelow, hpair⟩ := h.next
  · obtain ⟨_, _, hn, -⟩ | ⟨_, hn, -⟩ := hstep.cases <;> cases hn
  · have halone' : (Operation.clear alone).next = .calling call fun answer =>
        (resume answer).map id .clear := by rw [Operation.next, halone, Next.map]
    have hbelow' : (Operation.clear below).next = .calling call fun answer =>
        (resume' answer).map id .clear := by rw [Operation.next, hbelow, Next.map]
    have hp := hpair (store.answer d.exchanges call)
    obtain rfl := hstep.unique (steps_of_calling halone' store own d)
    refine ⟨_, _, rfl, hp.states, ?_⟩
    have hstep' := steps_of_calling hbelow' store ambient d
    simpa [hp.records] using hstep'

/-- The deletion below waiting levels goes through every dialogue that it goes through alone. -/
theorem reaches_within (h : Clear.Within limit (frame :: outer) alone below) {own : Context}
    {there : Operation × Dialogue} (hreach : store.Reaches own (.clear alone, d) there)
    (ambient : Context) :
    ∃ alone' below', there.1 = .clear alone' ∧ Clear.Within limit (frame :: outer) alone' below' ∧
      store.Reaches ambient (.clear below, d) (.clear below', there.2) := by
  induction hreach with
  | refl => exact ⟨alone, below, rfl, h, .refl⟩
  | @tail mid there _ hstep ih =>
    obtain ⟨operation, later⟩ := mid
    obtain ⟨alone', below', rfl, h', hreach'⟩ := ih
    obtain ⟨alone'', below'', he, h'', hstep'⟩ := steps_within h' hstep ambient
    exact ⟨alone'', below'', he, h'', hreach'.tail hstep'⟩

/-- In every step an operation keeps its context. -/
theorem Steps.scoped {context ambient own : Context} {operation : Operation}
    {there : Operation × Dialogue} (h : store.Steps context (operation, d) there)
    (hscoped : operation.Scoped ambient own) : there.1.Scoped ambient own := by
  obtain ⟨call, resume, hn, rfl⟩ | ⟨resume, hn, rfl⟩ := h.cases
  · exact hscoped.resume hn _
  · exact hscoped.choosing hn _

/-- In every run an operation keeps its context. -/
theorem Reaches.scoped {context ambient own : Context} {here there : Operation × Dialogue}
    (h : store.Reaches context here there) (hscoped : here.1.Scoped ambient own) :
    there.1.Scoped ambient own := by
  induction h with
  | refl => exact hscoped
  | tail _ hstep ih => exact hstep.scoped ih

/-- What a deletion that runs below waiting levels is in when the deletion alone is done: the levels
go on in the context in which it was begun. -/
theorem done_within (h : Clear.Within limit (frame :: outer) alone below) {context own : Context}
    (halone : (Operation.clear alone).Scoped frame.context own) {outcome : Answer}
    {after : Dialogue} (hend : store.Ends context (.clear alone, d) outcome after)
    (ambient : Context) :
    (∀ value, outcome = .ok value → store.Reaches ambient (.clear below, d)
      (.clear (Clear.proceed limit 0 frame.context (frame :: outer)), after)) ∧
    ∀ failure, outcome = .error failure → failure.HasLeft own ∧
      store.Reaches ambient (.clear below, d)
        (.clear (Clear.unwind failure frame.context (frame :: outer)), after) := by
  obtain ⟨there, hreach, hdone, rfl⟩ := hend.reaches
  obtain ⟨alone', below', he, h', hreach'⟩ := reaches_within h hreach ambient
  have hscoped := hreach.scoped halone
  rw [he] at hscoped hdone
  obtain ⟨_, -, hscoped⟩ := hscoped
  cases h' with
  | listing | deleting => cases hdone
  | returned value context =>
    cases hdone
    obtain ⟨rfl, -⟩ := hscoped
    refine ⟨fun _ hv => ?_, fun _ hf => (by cases hf)⟩
    cases hv
    exact hreach'
  | failed failure context =>
    cases hdone
    obtain ⟨rfl, hleft⟩ := hscoped
    refine ⟨fun _ hv => (by cases hv), fun f hf => ?_⟩
    cases hf
    exact ⟨hleft failure rfl, hreach'⟩

/-- The level for a child is a deletion of the child together with the child itself. -/
theorem within_of_level {child : Value} {path : String}
    (hpath : Path.joinValues [.str frame.path, child] = .ok path) :
    Clear.Within limit (frame :: outer)
      (Clear.start limit frame.context (Clear.childContext limit frame.context path) path true)
      (Clear.enterChild limit frame child outer) := by
  rw [Clear.enterChild, hpath]
  exact .enter _ _ path true []

/-- If the deletion of a child fails on its own, the whole one is done without another call to the
store. It fails alike if its levels are nested. -/
theorem ends_of_level {child : Value} {path : String}
    (hpath : Path.joinValues [.str frame.path, child] = .ok path) {failure : Failure}
    {after : Dialogue}
    (hend : store.Ends frame.context
      (.deleteChildren frame.context path (some (.bool true)) (some limit), d) (.error failure)
      after) (ambient : Context) :
    ∃ f, store.Ends ambient (.clear (Clear.enterChild limit frame child outer), d) (.error f)
        after ∧
      ∀ {around own : Context}, Clear.Covers limit own →
        Clear.Nested limit around own (frame :: outer) → f = failure := by
  obtain ⟨hleft, hreach⟩ := (done_within (within_of_level hpath)
    (Operation.scoped_deleteChildren frame.context path (some (.bool true)) (some limit)) hend
    ambient).2 failure rfl
  obtain ⟨f, context, hdone⟩ :=
    Clear.exists_unwind failure frame.context (frame :: outer)
  rw [hdone] at hreach
  refine ⟨f, hreach.ends (ends_of_finished rfl), fun hown hnested => ?_⟩
  rw [hnested.unwind_eq hown] at hdone
  cases hdone
  refine hleft.leaving_eq fun hchild => ?_
  exact (Clear.isOverlong_of_childContext hchild).elim id (hnested.covers hown)

end Respondent

end TreeStore
