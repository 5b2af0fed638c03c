import TreeStore.Tree

/-!
# The contexts of a recursive deletion

Each level of a recursive deletion puts its context in the place of the one from before and puts
that back when it ends. The levels are nested, so what a level finds is the context of the level
that it was begun in. A failure leaves all levels and ends the deletion, annotated by the innermost
one alone: where that context cannot be written, those around it cannot be written either.
-/

namespace TreeStore

namespace Context

variable {ctx : Context} {key other : String} {value : Value} {pairs more : List (String × Value)}

/-- Arguments are set one after the other. -/
theorem extend_cons (ctx : Context) (pair : String × Value) (pairs : List (String × Value)) :
    ctx.extend (pair :: pairs) = (ctx.put pair.1 pair.2).extend pairs := rfl

/-- Setting other names leaves a name alone. -/
theorem get?_extend_of_ne (ctx : Context) (h : ∀ pair ∈ pairs, key ≠ pair.1) :
    (ctx.extend pairs).get? key = ctx.get? key := by
  induction pairs generalizing ctx with
  | nil => rfl
  | cons pair pairs ih =>
    obtain ⟨hpair, hpairs⟩ := List.forall_mem_cons.mp h
    exact (ih (ctx.put pair.1 pair.2) hpairs).trans (get?_put_of_ne ctx pair.2 hpair)

/-- The arguments of a deletion name its path. -/
theorem get?_path_extend (ctx : Context) (path : String) (h : ∀ pair ∈ more, "path" ≠ pair.1) :
    (ctx.extend ([("op", .str "delete_children"), ("path", .str path)] ++ more)).get? "path" =
      some (.str path) :=
  (get?_extend_of_ne _ h).trans (get?_put _ _ _)

/-- A context cannot be written if one of its values cannot. -/
theorem isOverlong_iff : ctx.isOverlong = true ↔ ∃ pair ∈ ctx, pair.2.isOverlong = true := by
  rw [isOverlong, Value.anyOverlong_iff]
  constructor
  · rintro ⟨_, hmem, hvalue⟩
    obtain ⟨pair, hpair, rfl⟩ := List.mem_map.mp hmem
    exact ⟨pair, hpair, hvalue⟩
  · rintro ⟨pair, hpair, hvalue⟩
    exact ⟨pair.2, List.mem_map_of_mem hpair, hvalue⟩

/-- A value that cannot be written keeps its context from being written. -/
theorem isOverlong_of_get? (h : ctx.get? key = some value) (hvalue : value.isOverlong = true) :
    ctx.isOverlong = true := by
  refine isOverlong_iff.mpr ⟨(key, value), ?_, hvalue⟩
  obtain ⟨before, after, rfl, -⟩ := List.lookup_eq_some_iff.mp h
  simp

/-- The values of a context in which a name was set. -/
theorem mem_of_mem_put {pair : String × Value} (h : pair ∈ ctx.put key value) :
    pair ∈ ctx ∨ pair.2 = value := by
  induction ctx with
  | nil => exact .inr (congrArg Prod.snd (List.mem_singleton.mp h))
  | cons first rest ih =>
    rw [put] at h
    split at h
    · obtain rfl | hrest := List.mem_cons.mp h
      · exact .inr rfl
      · exact .inl (List.mem_cons_of_mem _ hrest)
    · obtain rfl | hrest := List.mem_cons.mp h
      · exact .inl List.mem_cons_self
      · exact (ih hrest).imp_left (List.mem_cons_of_mem _)

/-- What keeps a context from being written was there before or was set. -/
theorem isOverlong_put (h : (ctx.put key value).isOverlong = true) :
    ctx.isOverlong = true ∨ value.isOverlong = true := by
  obtain ⟨pair, hmem, hpair⟩ := isOverlong_iff.mp h
  obtain hold | hnew := mem_of_mem_put hmem
  · exact .inl (isOverlong_iff.mpr ⟨pair, hold, hpair⟩)
  · exact .inr (hnew ▸ hpair)

/-- What keeps the context inside of an operation from being written is around it or is an argument.
-/
theorem isOverlong_extend (h : (ctx.extend pairs).isOverlong = true) :
    ctx.isOverlong = true ∨ ∃ pair ∈ pairs, pair.2.isOverlong = true := by
  induction pairs generalizing ctx with
  | nil => exact .inl h
  | cons pair pairs ih =>
    obtain hput | ⟨pair', hmem, hpair⟩ := ih h
    · obtain hctx | hvalue := isOverlong_put hput
      · exact .inl hctx
      · exact .inr ⟨pair, List.mem_cons_self, hvalue⟩
    · exact .inr ⟨pair', List.mem_cons_of_mem _ hmem, hpair⟩

/-- Of two values for one name the later one counts. -/
theorem put_put (ctx : Context) (key : String) (value later : Value) :
    (ctx.put key value).put key later = ctx.put key later := by
  induction ctx with
  | nil => simp [put]
  | cons first rest ih =>
    by_cases h : first.1 = key <;> simp [put, h, ih]

/-- Setting a name does not remove another one. -/
theorem mem_keys_put (ctx : Context) (value : Value) (h : other ∈ ctx.map Prod.fst) :
    other ∈ (ctx.put key value).map Prod.fst := by
  induction ctx with
  | nil => cases h
  | cons first rest ih =>
    by_cases hfirst : first.1 = key
    · simpa [put, hfirst] using h
    · simp only [put, hfirst, if_false, List.map_cons, List.mem_cons] at h ⊢
      exact h.imp_right ih

/-- A name that has its place already keeps it. -/
theorem keys_put_of_mem (value : Value) (h : key ∈ ctx.map Prod.fst) :
    (ctx.put key value).map Prod.fst = ctx.map Prod.fst := by
  induction ctx with
  | nil => cases h
  | cons first rest ih =>
    by_cases hfirst : first.1 = key
    · simp [put, hfirst]
    · have hrest : key ∈ rest.map Prod.fst := by
        simpa [Ne.symm hfirst] using h
      simp [put, hfirst, ih hrest]

/-- A name that is set is there. -/
theorem mem_keys_put_self (ctx : Context) (key : String) (value : Value) :
    key ∈ (ctx.put key value).map Prod.fst := by
  induction ctx with
  | nil => simp [put]
  | cons first rest ih =>
    by_cases h : first.1 = key
    · simp [put, h]
    · simpa [put, h] using Or.inr ih

/-- Two names can be set in either order if one of them has its place already. -/
theorem put_comm (later : Value) (hne : other ≠ key) (h : key ∈ ctx.map Prod.fst) :
    (ctx.put other value).put key later = (ctx.put key later).put other value := by
  induction ctx with
  | nil => cases h
  | cons first rest ih =>
    by_cases hkey : first.1 = key
    · simp [put, hkey, hne.symm]
    · have hrest : key ∈ rest.map Prod.fst := by
        simpa [Ne.symm hkey] using h
      by_cases hother : first.1 = other <;> simp [put, hkey, hother, hne, ih hrest]

/-- A name that has its place already can be set before or after others. -/
theorem put_extend (h : key ∈ ctx.map Prod.fst) (hkey : key ∉ pairs.map Prod.fst) :
    (ctx.extend pairs).put key value = (ctx.put key value).extend pairs := by
  induction pairs generalizing ctx with
  | nil => rfl
  | cons pair pairs ih =>
    rw [List.map_cons, List.mem_cons, not_or] at hkey
    exact (ih (mem_keys_put ctx pair.2 h) hkey.2).trans
      (congrArg (extend · pairs) (put_comm value (Ne.symm hkey.1) h))

/-- Setting an argument anew is the same as giving another argument. -/
theorem put_extend_of_mem (hnodup : (pairs.map Prod.fst).Nodup) (h : key ∈ pairs.map Prod.fst) :
    (ctx.extend pairs).put key value = ctx.extend (put key value pairs) := by
  induction pairs generalizing ctx with
  | nil => cases h
  | cons pair pairs ih =>
    obtain ⟨hpair, hpairs⟩ := List.nodup_cons.mp hnodup
    by_cases hkey : pair.1 = key
    · subst hkey
      have hput : ((ctx.put pair.1 pair.2).extend pairs).put pair.1 value = _ :=
        put_extend (mem_keys_put_self ctx pair.1 pair.2) hpair
      rw [put_put] at hput
      rw [put, if_pos rfl]
      exact hput
    · have hmem : key ∈ pairs.map Prod.fst := by
        simpa [Ne.symm hkey] using h
      rw [put, if_neg hkey]
      exact ih hpairs hmem

/-- Setting arguments anew is the same as giving other arguments. -/
theorem extend_extend (hnodup : (pairs.map Prod.fst).Nodup)
    (h : ∀ pair ∈ more, pair.1 ∈ pairs.map Prod.fst) :
    (ctx.extend pairs).extend more = ctx.extend (extend pairs more) := by
  induction more generalizing pairs with
  | nil => rfl
  | cons pair more ih =>
    obtain ⟨hpair, hmore⟩ := List.forall_mem_cons.mp h
    rw [extend_cons, put_extend_of_mem hnodup hpair, extend_cons]
    refine ih ?_ fun pair' hmem => mem_keys_put pairs pair.2 (hmore pair' hmem)
    rwa [keys_put_of_mem pair.2 hpair]

end Context

/-- What becomes of a failure that leaves a context inside of the given one. If the inner context
cannot be written, neither can the given one. -/
def Failure.LeavesAs (own : Context) (raised f : Failure) : Prop :=
  ∃ context, f = raised.leaving context ∧ (context.isOverlong = true → own.isOverlong = true)

/-- If the outer context can be written, no more than the notes of a failure change. -/
theorem Failure.LeavesAs.problem_eq {own : Context} {raised f : Failure}
    (h : raised.LeavesAs own f) (hown : own.isOverlong = false) :
    f.problem = raised.problem ∧ f.source = raised.source := by
  obtain ⟨context, rfl, hinner⟩ := h
  refine raised.leaving_problem ?_
  rw [← Bool.not_eq_true]
  intro hcontext
  rw [hinner hcontext] at hown
  cases hown

/-- A failure that has left a context inside of the given one. -/
def Failure.HasLeft (own : Context) (f : Failure) : Prop := ∃ raised, Failure.LeavesAs own raised f

/-- Such a failure leaves all wider contexts as it is. -/
theorem Failure.HasLeft.leaving_eq {f : Failure} {own outer : Context} (h : f.HasLeft own)
    (hwider : own.isOverlong = true → outer.isOverlong = true) : f.leaving outer = f := by
  obtain ⟨raised, context, rfl, hinner⟩ := h
  exact raised.leaving_leaving fun hcontext => hwider (hinner hcontext)

namespace Clear

variable {limit : Value} {ambient own context : Context} {frame parent : Frame}
  {outer levels : List Frame} {failure : Failure}

/-- The contexts of all children are made from that of the outermost level. -/
theorem childContext_childContext (limit : Value) (context : Context) (p q : String) :
    childContext limit (childContext limit context p) q = childContext limit context q := by
  let pairs (path : String) : List (String × Value) :=
    [("op", .str "delete_children"), ("path", .str path), ("delete_self", .bool true),
      ("max_attempts", limit)]
  have hnodup (path : String) : ((pairs path).map Prod.fst).Nodup := by simp [pairs]
  change (context.extend (pairs p)).extend (pairs q) = context.extend (pairs q)
  rw [Context.extend_extend (hnodup p) (by simp [pairs])]
  simp [pairs, Context.extend, Context.put]

/-- The context of a child has the limit. -/
theorem isOverlong_childContext_of_limit (path : String) (h : limit.isOverlong = true) :
    (childContext limit context path).isOverlong = true :=
  Context.isOverlong_of_get? (Context.get?_put _ _ _) h

/-- What keeps the context of a child from being written is the limit or is around it. -/
theorem isOverlong_of_childContext {path : String}
    (h : (childContext limit context path).isOverlong = true) :
    context.isOverlong = true ∨ limit.isOverlong = true := by
  obtain hcontext | ⟨pair, hmem, hpair⟩ := Context.isOverlong_extend h
  · exact .inl hcontext
  · simp only [List.mem_cons, List.not_mem_nil, or_false] at hmem
    obtain rfl | rfl | rfl | rfl := hmem
    · simp at hpair
    · simp at hpair
    · simp at hpair
    · exact .inr hpair

/-- The limit is among the arguments in a context, at least if it cannot be written. -/
def Covers (limit : Value) (own : Context) : Prop :=
  limit.isOverlong = true → own.isOverlong = true

/-- Levels that are nested in one another: the outermost one has its own context and was begun in
the surrounding one, and each of the others was begun for a child in the context of the next. -/
inductive Nested (limit : Value) (ambient own : Context) : List Frame → Prop
  | outermost {frame : Frame} (inside : frame.context = own) (outside : frame.outside = ambient) :
      Nested limit ambient own [frame]
  | child {frame parent : Frame} {outer : List Frame}
      (below : Nested limit ambient own (parent :: outer))
      (inside : frame.context = childContext limit own frame.path)
      (outside : frame.outside = parent.context) :
      Nested limit ambient own (frame :: parent :: outer)

/-- The context that is active when a level above the given ones has ended. -/
def active (ambient : Context) : List Frame → Context
  | [] => ambient
  | frame :: _ => frame.context

namespace Nested

/-- The context of a child is made from that of its parent. -/
theorem childContext_eq (h : Nested limit ambient own (parent :: outer)) (path : String) :
    childContext limit parent.context path = childContext limit own path := by
  cases h with
  | outermost inside => rw [inside]
  | child _ inside => rw [inside, childContext_childContext]

/-- A level puts back the context of the next one, or the surrounding one. -/
theorem outside_eq (h : Nested limit ambient own (frame :: outer)) :
    frame.outside = active ambient outer := by
  cases h with
  | outermost _ outside => exact outside
  | child _ _ outside => exact outside

/-- The levels above are nested as well. -/
theorem tail (h : Nested limit ambient own (frame :: outer)) :
    outer = [] ∨ Nested limit ambient own outer := by
  cases h with
  | outermost => exact .inl rfl
  | child below => exact .inr below

/-- What else a level holds does not matter. -/
theorem replace {frame' : Frame} (h : Nested limit ambient own (frame :: outer))
    (hpath : frame'.path = frame.path) (hcontext : frame'.context = frame.context)
    (houtside : frame'.outside = frame.outside) : Nested limit ambient own (frame' :: outer) := by
  cases h with
  | outermost inside outside =>
    exact .outermost (hcontext.trans inside) (houtside.trans outside)
  | child below inside outside =>
    refine .child below ?_ (houtside.trans outside)
    rw [hcontext, hpath, inside]

/-- Where no context but the limit keeps a level from being written, the limit does. -/
theorem covers (h : Nested limit ambient own (frame :: outer)) (hown : Covers limit own) :
    Covers limit frame.context := by
  cases h with
  | outermost inside => rwa [inside]
  | child _ inside =>
    rw [inside]
    exact isOverlong_childContext_of_limit frame.path

/-- If the outermost context can be written, then so can those of all levels. -/
theorem isOverlong_own (h : Nested limit ambient own (frame :: outer)) (hown : Covers limit own)
    (hframe : frame.context.isOverlong = true) : own.isOverlong = true := by
  cases h with
  | outermost inside => rwa [inside] at hframe
  | child _ inside =>
    rw [inside] at hframe
    exact (isOverlong_of_childContext hframe).elim id hown

/-- A failure leaves all levels as it leaves the innermost one. -/
theorem unwind_eq (h : Nested limit ambient own (frame :: outer)) (hown : Covers limit own)
    (failure : Failure) :
    unwind failure frame.context (frame :: outer) =
      done (.error (failure.leaving frame.context)) ambient := by
  generalize hlevels : frame :: outer = levels at h
  induction h generalizing frame outer failure with
  | outermost _ outside =>
    obtain ⟨rfl, rfl⟩ := List.cons_eq_cons.mp hlevels
    rw [unwind, unwind, outside]
  | @child frame' parent rest below inside outside ih =>
    obtain ⟨rfl, rfl⟩ := List.cons_eq_cons.mp hlevels
    have hwider : frame.context.isOverlong = true → parent.context.isOverlong = true := by
      rw [inside, ← below.childContext_eq]
      intro hinner
      obtain hparent | hlimit := isOverlong_of_childContext hinner
      · exact hparent
      · exact below.covers hown hlimit
    rw [unwind, outside, ih _ rfl, Failure.leaving_leaving failure hwider]

end Nested

/-- Whatever the contexts are, a failure ends the deletion. -/
theorem exists_unwind (failure : Failure) (context : Context) (levels : List Frame) :
    ∃ f context', unwind failure context levels = done (.error f) context' := by
  induction levels generalizing failure context with
  | nil => exact ⟨failure, context, rfl⟩
  | cons frame outer ih => exact ih (failure.leaving context) frame.outside

/-- A deletion with the limit whose levels are nested. When it is done, the surrounding context is
active, and a failure has left the contexts of all levels. -/
def Scoped (limit : Value) (ambient own : Context) : Clear → Prop
  | listing most frame outer | deleting most frame outer =>
    most = limit ∧ Nested limit ambient own (frame :: outer)
  | done outcome context => context = ambient ∧ ∀ f, outcome = .error f → f.HasLeft own

/-- A failure ends the deletion in the surrounding context. -/
theorem failed_eq (h : Nested limit ambient own (frame :: outer)) (hown : Covers limit own)
    (failure : Failure) :
    failed failure frame outer = done (.error (failure.leaving frame.context)) ambient :=
  h.unwind_eq hown failure

theorem scoped_failed (h : Nested limit ambient own (frame :: outer)) (hown : Covers limit own)
    (failure : Failure) : Scoped limit ambient own (failed failure frame outer) := by
  rw [failed_eq h hown]
  refine ⟨rfl, fun f hf => ?_⟩
  cases hf
  exact ⟨failure, frame.context, rfl, h.isOverlong_own hown⟩

/-- A deletion at a valid path begins by listing it. -/
theorem start_of_validate {path : String} (h : Path.validate path false = .ok path) (limit : Value)
    (outside context : Context) (deleteSelf : Bool) :
    start limit outside context path deleteSelf =
      listing limit ⟨path, deleteSelf, 1, context, outside, []⟩ [] := by
  rw [start, enter, h]

/-- A deletion before its first request. -/
theorem scoped_start (hown : Covers limit own) (path : String) (deleteSelf : Bool) :
    Scoped limit ambient own (start limit ambient own path deleteSelf) := by
  have hnested : Nested limit ambient own [⟨path, deleteSelf, 1, own, ambient, []⟩] :=
    .outermost rfl rfl
  unfold start enter
  dsimp only
  split
  · exact scoped_failed hnested hown _
  · exact ⟨rfl, hnested⟩

/-- A level for a child begins in the context of its parent. -/
theorem scoped_enterChild (h : Nested limit ambient own (frame :: outer)) (hown : Covers limit own)
    (child : Value) : Scoped limit ambient own (enterChild limit frame child outer) := by
  unfold enterChild
  split
  · exact scoped_failed h hown _
  · rename_i path _
    have hnested : Nested limit ambient own
        (⟨path, true, 1, childContext limit frame.context path, frame.context, []⟩ ::
          frame :: outer) := .child h (h.childContext_eq path) rfl
    unfold enter
    dsimp only
    split
    · exact scoped_failed hnested hown _
    · exact ⟨rfl, hnested⟩

/-- Levels return, up to one that goes on, and each puts back the context from before. -/
theorem scoped_proceed (hown : Covers limit own) (attempts : Nat)
    (h : levels = [] ∨ Nested limit ambient own levels) :
    Scoped limit ambient own (proceed limit attempts (active ambient levels) levels) := by
  induction levels generalizing attempts with
  | nil => exact ⟨rfl, fun f hf => by cases hf⟩
  | cons frame outer ih =>
    have hnested : Nested limit ambient own (frame :: outer) := h.resolve_left (by simp)
    rw [proceed, active]
    split
    · rename_i child rest _
      have hframe : Nested limit ambient own ({ frame with pending := rest } :: outer) :=
        hnested.replace rfl rfl rfl
      exact scoped_enterChild hframe hown child
    · split
      · exact ⟨rfl, hnested⟩
      · rw [hnested.outside_eq]
        exact ih frame.attempts hnested.tail

theorem scoped_leave (h : Nested limit ambient own (frame :: outer)) (hown : Covers limit own)
    (message : String) : Scoped limit ambient own (leave limit frame outer message).2 := by
  rw [leave, h.outside_eq]
  exact scoped_proceed hown frame.attempts h.tail

theorem scoped_retry (h : Nested limit ambient own (frame :: outer)) (hown : Covers limit own)
    (failure : Failure) : Scoped limit ambient own (retry limit frame outer failure).2 := by
  unfold retry
  split
  · exact scoped_failed h hown _
  · exact scoped_failed h hown _
  · exact ⟨rfl, h.replace rfl rfl rfl⟩

/-- Whatever the answer is, the levels stay nested, and in the end the surrounding context is back.
-/
theorem scoped_resume {state : Clear} (h : Scoped limit ambient own state)
    (hown : Covers limit own) {call : Call} {resume : Answer → List LogRecord × Clear}
    (hn : state.next = .calling call resume) (answer : Answer) :
    Scoped limit ambient own (resume answer).2 := by
  cases state with
  | done => cases hn
  | listing most frame outer =>
    obtain ⟨rfl, hnested⟩ := h
    cases hn
    cases answer with
    | error failure =>
      dsimp only
      split
      · exact scoped_leave hnested hown _
      · exact scoped_failed hnested hown _
    | ok value =>
      dsimp only
      split
      · exact scoped_failed hnested hown _
      · rename_i names _
        have hframe : Nested most ambient own ({ frame with pending := names } :: outer) :=
          hnested.replace rfl rfl rfl
        exact scoped_proceed hown 0 (.inr hframe)
  | deleting most frame outer =>
    obtain ⟨rfl, hnested⟩ := h
    cases hn
    cases answer with
    | ok value => exact scoped_leave hnested hown _
    | error failure =>
      dsimp only
      split
      · exact scoped_retry hnested hown failure
      · split
        · exact scoped_leave hnested hown _
        · exact scoped_failed hnested hown _

end Clear

namespace Operation

variable {ambient own : Context} {operation : Operation} {call : Call}

/-- The failure as it leaves an operation that is under way. A listing has no context of its own. -/
def leave : Operation → Failure → Failure
  | ensure state, failure => failure.leaving state.context
  | clear state, failure => failure.leaving state.context
  | listing _, failure => failure

/-- An operation with a context of its own inside of the surrounding one. Creation makes all of its
requests in it, and the levels of a deletion are nested in it. -/
def Scoped (ambient own : Context) : Operation → Prop
  | ensure (.done _) | listing _ => True
  | ensure state => state.context = own
  | clear state => ∃ limit, Clear.Covers limit own ∧ state.Scoped limit ambient own

theorem scoped_ensure_failed (job : Ensure.Job) (failure : Failure) :
    (ensure (Ensure.failed job failure)).Scoped ambient own := trivial

theorem scoped_ensure_create {job : Ensure.Job} (h : job.context = own) (mode : CreateMode)
    (missing : List String) : (ensure (Ensure.create job mode missing)).Scoped ambient own := by
  cases missing with
  | nil => trivial
  | cons path below => exact h

theorem scoped_ensure_found {job : Ensure.Job} (h : job.context = own) (missing : List String) :
    (ensure (Ensure.found job missing)).Scoped ambient own := by
  unfold Ensure.found
  dsimp only
  split
  · exact h
  · exact scoped_ensure_create h .persistent _

theorem scoped_ensure_probe {job : Ensure.Job} (h : job.context = own)
    (missing above : List String) :
    (ensure (Ensure.probe job missing above)).Scoped ambient own := by
  cases above with
  | nil => exact scoped_ensure_found h missing
  | cons path above => exact h

/-- After every answer an operation still has its context. -/
theorem Scoped.resume {resume : Answer → List LogRecord × Operation}
    (h : operation.Scoped ambient own) (hn : operation.next = .calling call resume)
    (answer : Answer) : (resume answer).2.Scoped ambient own := by
  cases operation with
  | ensure state =>
    cases state with
    | choosing | done => cases hn
    | probing job path above missing =>
      cases hn
      cases answer with
      | error failure => exact scoped_ensure_failed job failure
      | ok value =>
        simp only [Prod.map_snd]
        split
        · exact scoped_ensure_found h missing
        · exact scoped_ensure_probe h _ above
    | creating job mode path below =>
      cases hn
      cases answer with
      | ok value => exact scoped_ensure_create h mode below
      | error failure =>
        simp only [Prod.map_snd]
        split
        · exact scoped_ensure_create h mode below
        · exact scoped_ensure_failed job failure
  | clear state =>
    obtain ⟨limit, hown, hstate⟩ := h
    cases hs : state.next with
    | finished outcome =>
      simp only [next, hs, Next.map] at hn
      cases hn
    | choosing resume' =>
      simp only [next, hs, Next.map] at hn
      cases hn
    | calling call' resume' =>
      simp only [next, hs, Next.map] at hn
      cases hn
      exact ⟨limit, hown, Clear.scoped_resume hstate hown hs answer⟩
  | listing state =>
    cases state with
    | waiting path =>
      cases hn
      trivial
    | done => cases hn

/-- An operation that found out about containers still has its context. -/
theorem Scoped.choosing {resume : Except Failure CreateMode → List LogRecord × Operation}
    (h : operation.Scoped ambient own) (hn : operation.next = .choosing resume)
    (answer : Except Failure CreateMode) : (resume answer).2.Scoped ambient own := by
  cases operation with
  | clear state => cases state <;> cases hn
  | listing state => cases state <;> cases hn
  | ensure state =>
    cases state with
    | choosing job missing =>
      cases hn
      cases answer with
      | error failure => exact scoped_ensure_failed job failure
      | ok mode => exact scoped_ensure_create h mode missing
    | probing | creating | done => cases hn

/-- Creation before its first request. -/
theorem scoped_mkdirs (ambient : Context) (path : String) (makeLast : Option Value)
    (provider : Option AclPolicy) (asContainers : Option Value) :
    (mkdirs ambient path makeLast provider asContainers).Scoped ambient
      (creationContext ambient path makeLast asContainers) := by
  unfold mkdirs Ensure.start
  split
  · exact scoped_ensure_failed _ _
  · exact scoped_ensure_probe rfl _ _

/-- The arguments of a deletion hold its limit. -/
theorem covers_deletionContext (ambient : Context) (path : String)
    (deleteSelf limit : Option Value) :
    Clear.Covers (limit.getD .null) (deletionContext ambient path deleteSelf limit) := by
  intro hlimit
  cases limit with
  | none => simp at hlimit
  | some value =>
    have hget : (deletionContext ambient path deleteSelf (some value)).get? "max_attempts" =
        some value := by
      rw [deletionContext, Context.extend, List.foldl_append]
      exact Context.get?_put _ _ _
    exact Context.isOverlong_of_get? hget hlimit

/-- Deletion before its first request. -/
theorem scoped_deleteChildren (ambient : Context) (path : String)
    (deleteSelf limit : Option Value) :
    (deleteChildren ambient path deleteSelf limit).Scoped ambient
      (deletionContext ambient path deleteSelf limit) :=
  have hown := covers_deletionContext ambient path deleteSelf limit
  ⟨_, hown, Clear.scoped_start hown path _⟩

/-- A failure leaves creation or deletion that is under way through a context inside of the
operation's own one. -/
theorem Scoped.leavesAs (h : operation.Scoped ambient own)
    (hrecursive : ∀ state, operation ≠ .listing state)
    (hrun : ∀ outcome, operation.next ≠ .finished outcome) (failure : Failure) :
    failure.LeavesAs own (operation.leave failure) := by
  cases operation with
  | listing state => exact absurd rfl (hrecursive state)
  | ensure state =>
    refine ⟨state.context, rfl, ?_⟩
    cases state with
    | done outcome => exact absurd rfl (hrun outcome)
    | probing | choosing | creating =>
      have hcontext : Ensure.context _ = own := h
      rw [hcontext]
      exact id
  | clear state =>
    obtain ⟨limit, hcovers, hstate⟩ := h
    refine ⟨state.context, rfl, ?_⟩
    cases state with
    | done outcome => exact absurd rfl (hrun outcome)
    | listing most frame outer | deleting most frame outer =>
      exact hstate.2.isOverlong_own hcovers

/-- An operation that is under way and has a context that can be written changes no more than the
notes of a failure. -/
theorem Scoped.leave_problem (h : operation.Scoped ambient own) (hown : own.isOverlong = false)
    (hrun : ∀ outcome, operation.next ≠ .finished outcome) (failure : Failure) :
    (operation.leave failure).problem = failure.problem ∧
      (operation.leave failure).source = failure.source := by
  by_cases hlisting : ∃ state, operation = .listing state
  · obtain ⟨state, rfl⟩ := hlisting
    exact ⟨rfl, rfl⟩
  · exact (h.leavesAs (not_exists.mp hlisting) hrun failure).problem_eq hown

/-- Recursive creation and deletion inside of a context, with the contexts of their own. -/
inductive Recursive (ambient : Context) : Context → Operation → Prop
  | mkdirs (path : String) (makeLast : Option Value) (provider : Option AclPolicy)
      (asContainers : Option Value) :
      Recursive ambient (creationContext ambient path makeLast asContainers)
        (.mkdirs ambient path makeLast provider asContainers)
  | deleteChildren (path : String) (deleteSelf limit : Option Value) :
      Recursive ambient (deletionContext ambient path deleteSelf limit)
        (.deleteChildren ambient path deleteSelf limit)

theorem Recursive.ne_listing (h : operation.Recursive ambient own) (state : Listing) :
    operation ≠ .listing state := by
  cases h <;> exact fun he => by cases he

/-- A recursive operation has its context from the beginning. -/
theorem Recursive.scoped (h : operation.Recursive ambient own) : operation.Scoped ambient own := by
  cases h with
  | mkdirs path makeLast provider asContainers =>
    exact scoped_mkdirs ambient path makeLast provider asContainers
  | deleteChildren path deleteSelf limit =>
    exact scoped_deleteChildren ambient path deleteSelf limit

end Operation

end TreeStore
