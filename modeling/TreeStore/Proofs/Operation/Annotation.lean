import TreeStore.Proofs.Operation.Origin
import TreeStore.Proofs.Path.Ancestry

/-!
# What recursive deletion says about nodes

Each level of a recursive deletion has a context of its own, which names the node of that level.
What a level reports, and the failure that it raises, is annotated with its own context, and not
with that of a level above it or of one that it has come back from: levels are left in the reverse
order of their beginnings, and behind the outermost one the surrounding context is back.
-/

namespace TreeStore

namespace Operation

/-- The context of a deletion names its path. -/
theorem get?_deletionContext (ambient : Context) (path : String)
    (deleteSelf limit : Option Value) :
    (deletionContext ambient path deleteSelf limit).get? "path" = some (.str path) := by
  rw [deletionContext, List.append_assoc]
  refine Context.get?_path_extend ambient path fun pair hpair => ?_
  rcases List.mem_append.mp hpair with hpair | hpair
  all_goals
    obtain ⟨value, -, rfl⟩ := List.mem_map.mp hpair
    simp

end Operation

namespace Clear

variable {context ambient own : Context} {limit : Value} {q r message : String}
  {exchange : Exchange} {before : List Context} {frame : Frame} {outer : List Frame}

/-- A message is about a node. -/
def Mentions (q message : String) : Prop :=
  message = deletedMessage q ∨ message = goneMessage q ∨
    ∃ attempts, message = retryMessage q attempts

private theorem exists_toList (hq : Path.IsValid q) : ∃ rest, q.toList = '/' :: rest := by
  obtain ⟨segs, -, rfl⟩ := Path.isValid_iff.mp hq
  rw [String.toList_ofList]
  cases segs with
  | nil => exact ⟨[], rfl⟩
  | cons s segs =>
    rw [Path.spell_of_ne_nil (List.cons_ne_nil s segs), Path.chain_cons]
    exact ⟨_, rfl⟩

private theorem toList_deletedMessage (q : String) :
    (deletedMessage q).toList = "Deleted ".toList ++ q.toList := String.toList_append

private theorem toList_goneMessage (q : String) :
    (goneMessage q).toList = q.toList ++ " was deleted concurrently".toList := String.toList_append

private theorem toList_retryMessage (q : String) (attempts : Nat) :
    (retryMessage q attempts).toList =
      (q.toList ++ " gained children while being deleted, retrying ".toList) ++
        '(' :: ("attempt ".toList ++ (toString attempts).toList ++ [')']) := by
  have hsplit : " gained children while being deleted, retrying (attempt ".toList =
      " gained children while being deleted, retrying ".toList ++ '(' :: "attempt ".toList := by
    decide
  simp only [retryMessage, String.toList_append, hsplit]
  simp

/-- A message that begins with a path is none that a node was deleted. -/
private theorem deletedMessage_ne (hr : Path.IsValid r) (rest : List Char) :
    (deletedMessage q).toList ≠ r.toList ++ rest := by
  obtain ⟨more, hmore⟩ := exists_toList hr
  rw [toList_deletedMessage, hmore]
  simp

/-- The one ends in a letter, the other in a parenthesis. -/
private theorem goneMessage_ne_retryMessage (q r : String) (attempts : Nat) :
    (goneMessage q).toList ≠ (retryMessage r attempts).toList := by
  have hgone : ∃ xs, (goneMessage q).toList = xs ++ ['y'] := by
    refine ⟨q.toList ++ " was deleted concurrentl".toList, ?_⟩
    rw [toList_goneMessage, List.append_assoc]
    rfl
  obtain ⟨xs, hxs⟩ := hgone
  obtain ⟨ys, hys⟩ : ∃ ys, (retryMessage r attempts).toList = ys ++ [')'] :=
    ⟨_, String.toList_append⟩
  rw [hxs, hys]
  intro h
  have hlast := (List.append_inj' h rfl).2
  exact absurd hlast (by decide)

private theorem not_mem_toString (attempts : Nat) : '(' ∉ (toString attempts).toList := by
  have htoString : (toString attempts).toList = Nat.toDigits 10 attempts := String.toList_ofList
  rw [htoString]
  intro h
  have hdigit := Nat.isDigit_of_mem_toDigits (by decide) (by decide) h
  exact absurd hdigit (by decide)

/-- What stands before the last occurrence of a member. -/
private theorem eq_of_append_cons {α : Type} {xs ys rest rest' : List α} {x : α} (hrest : x ∉ rest)
    (hrest' : x ∉ rest') (h : xs ++ x :: rest = ys ++ x :: rest') : xs = ys := by
  obtain ⟨more, rfl, he⟩ | ⟨more, rfl, he⟩ := List.append_eq_append_iff.mp h
  all_goals
    cases more with
    | nil => simp
    | cons y more =>
      obtain ⟨rfl, rfl⟩ := List.cons_eq_cons.mp he
      simp at hrest hrest'

/-- The node that a message is about. -/
theorem Mentions.unique (h : Mentions q message) (h' : Mentions r message) (hq : Path.IsValid q)
    (hr : Path.IsValid r) : r = q := by
  refine String.toList_inj.mp ?_
  rcases h with rfl | rfl | ⟨attempts, rfl⟩
  · rcases h' with h' | h' | ⟨attempts', h'⟩
    all_goals replace h' := congrArg String.toList h'
    · rw [toList_deletedMessage, toList_deletedMessage] at h'
      exact (List.append_cancel_left h').symm
    · rw [toList_goneMessage] at h'
      exact absurd h' (deletedMessage_ne hr _)
    · rw [toList_retryMessage, List.append_assoc] at h'
      exact absurd h' (deletedMessage_ne hr _)
  · rcases h' with h' | h' | ⟨attempts', h'⟩
    all_goals replace h' := congrArg String.toList h'
    · rw [toList_goneMessage] at h'
      exact absurd h'.symm (deletedMessage_ne hq _)
    · rw [toList_goneMessage, toList_goneMessage] at h'
      exact (List.append_cancel_right h').symm
    · exact absurd h' (goneMessage_ne_retryMessage q r attempts')
  · rcases h' with h' | h' | ⟨attempts', h'⟩
    all_goals replace h' := congrArg String.toList h'
    · rw [toList_retryMessage, List.append_assoc] at h'
      exact absurd h'.symm (deletedMessage_ne hq _)
    · exact absurd h'.symm (goneMessage_ne_retryMessage r q attempts)
    · rw [toList_retryMessage, toList_retryMessage] at h'
      have hfirst := not_mem_toString attempts
      have hsecond := not_mem_toString attempts'
      have hpaths := eq_of_append_cons (by simpa using hfirst) (by simpa using hsecond) h'
      exact (List.append_cancel_right hpaths).symm

/-- An answer about a node, and the message that reports it. -/
inductive Tells (q : String) : Exchange → String → Prop
  | deleted (value : Value) : Tells q ⟨.delete q anyVersion, .ok value⟩ (deletedMessage q)
  | unlisted {failure : Failure} (gone : failure.problem.isNoNode = true) :
      Tells q ⟨.children q, .error failure⟩ (goneMessage q)
  | undeleted {failure : Failure} (gone : failure.problem.isNoNode = true) :
      Tells q ⟨.delete q anyVersion, .error failure⟩ (goneMessage q)
  | refilled {failure : Failure} (attempts : Nat) (full : failure.problem.isNotEmpty = true) :
      Tells q ⟨.delete q anyVersion, .error failure⟩ (retryMessage q attempts)

theorem Tells.mentions (h : Tells q exchange message) : Mentions q message := by
  cases h with
  | deleted => exact .inl rfl
  | unlisted | undeleted => exact .inr (.inl rfl)
  | refilled attempts => exact .inr (.inr ⟨attempts, rfl⟩)

/-- The context of a child names the child. -/
theorem get?_childContext (limit : Value) (context : Context) (path : String) :
    (childContext limit context path).get? "path" = some (.str path) :=
  Context.get?_path_extend context path (by simp)

/-- The active context, and behind it those that are put back as the levels end. -/
def stack (active : Context) (levels : List Frame) : List Context :=
  active :: levels.map Frame.outside

/-- The contexts that a deletion is in, the active one first. -/
def scopes : Clear → List Context
  | listing _ frame outer | deleting _ frame outer => stack frame.context (frame :: outer)
  | done _ context => stack context []

/-- The levels of a deletion, the innermost first. -/
def frames : Clear → List Frame
  | listing _ frame outer | deleting _ frame outer => frame :: outer
  | done _ _ => []

/-- The context that requests are made in is the active one. -/
theorem exists_scopes (ambient : Context) (state : Clear) :
    ∃ rest, state.scopes = (Operation.clear state).context ambient :: rest := by
  cases state with
  | listing _ frame outer | deleting _ frame outer =>
    exact ⟨(frame :: outer).map Frame.outside, rfl⟩
  | done => exact ⟨[], rfl⟩

/-- At the end of a level, the contexts are those from before it. -/
theorem stack_outside_suffix (active : Context) (frame : Frame) (outer : List Frame) :
    stack frame.outside outer <:+ stack active (frame :: outer) :=
  List.suffix_cons _ _

/-- A failure leaves some of the contexts. -/
theorem scopes_unwind_suffix (failure : Failure) (active : Context) (levels : List Frame) :
    (unwind failure active levels).scopes <:+ stack active levels := by
  induction levels generalizing failure active with
  | nil => exact List.suffix_rfl
  | cons frame outer ih =>
    exact (ih (failure.leaving active) frame.outside).trans
      (stack_outside_suffix active frame outer)

/-- Contexts before and after an answer: some are left, and then one for a child may be entered. -/
inductive Nests (limit : Value) (before : List Context) : List Context → Prop
  | left {after : List Context} (kept : after <:+ before) : Nests limit before after
  | entered {context : Context} {rest : List Context} (kept : context :: rest <:+ before)
      (path : String) : Nests limit before (childContext limit context path :: context :: rest)

/-- A level is about a node, and its context names that node. -/
structure Placed (frame : Frame) : Prop where
  /-- The path is well-formed. -/
  valid : Path.IsValid frame.path
  /-- The context has it. -/
  named : frame.context.get? "path" = some (.str frame.path)

/-- What else a level holds does not matter. -/
theorem placed_cons (h : ∀ level ∈ frame :: outer, Placed level) {own : Frame}
    (hpath : own.path = frame.path) (hcontext : own.context = frame.context) :
    ∀ level ∈ own :: outer, Placed level := by
  obtain ⟨hframe, houter⟩ := List.forall_mem_cons.mp h
  refine List.forall_mem_cons.mpr ⟨⟨?_, ?_⟩, houter⟩
  · rw [hpath]
    exact hframe.valid
  · rw [hcontext, hpath]
    exact hframe.named

/-- A failure that an answer brings about, as it is raised, with the contexts that it is raised in
and the node that is to blame. -/
inductive Raised (limit : Value) (before : List Context) (exchange : Exchange) :
    List Context → String → Failure → Prop
  /-- The store failed. -/
  | heard {failure : Failure} (answered : exchange.answer = .error failure)
      (unexpected : exchange.call.expects failure.problem = false) :
      Raised limit before exchange before exchange.call.path failure
  /-- The store listed the node in no way that can be read. -/
  | unreadable {q : String} {value : Value} (answered : exchange = ⟨.children q, .ok value⟩)
      (unread : value.members? = none) :
      Raised limit before exchange before q (.wrongType : Problem)
  /-- The attempts are used up. -/
  | exhausted {q : String} {failure : Failure} {attempts : Nat}
      (answered : exchange = ⟨.delete q anyVersion, .error failure⟩)
      (full : failure.problem.isNotEmpty = true) (last : reached? limit attempts = some true) :
      Raised limit before exchange before q
        { problem := .retriesExhausted q attempts, source := some failure.problem }
  /-- The limit for attempts cannot be compared. -/
  | unlimited {q : String} {failure : Failure} {attempts : Nat}
      (answered : exchange = ⟨.delete q anyVersion, .error failure⟩)
      (full : failure.problem.isNotEmpty = true) (last : reached? limit attempts = none) :
      Raised limit before exchange before q (.wrongType : Problem)
  /-- A child that was listed has no name that a path can be made of. -/
  | nameless {q : String} {after : List Context} (kept : after <:+ before) :
      Raised limit before exchange after q (.noMember : Problem)
  /-- The path of a child is malformed. -/
  | malformed {q : String} {context : Context} {rest : List Context} {problem : Problem}
      (kept : context :: rest <:+ before) (rejected : Path.validate q false = .error problem) :
      Raised limit before exchange (childContext limit context q :: context :: rest) q problem

/-- A failure leaves the contexts that it was raised in, of which the innermost names the node. -/
def Annotated (limit : Value) (before : List Context) (exchange : Exchange) (f : Failure) : Prop :=
  ∃ context rest q raised, Raised limit before exchange (context :: rest) q raised ∧
    context.get? "path" = some (.str q) ∧ f = raised.leaving context

/-- What holds after an answer. -/
structure Keeps (limit : Value) (before : List Context) (exchange : Exchange) (state : Clear) :
    Prop where
  /-- The levels are about nodes that their contexts name. -/
  placed : ∀ level ∈ state.frames, Placed level
  /-- The contexts are nested. -/
  nests : Nests limit before state.scopes
  /-- A failure is annotated. -/
  annotated : ∀ f context, state = .done (.error f) context → Annotated limit before exchange f

/-- A level fails, and all contexts but the surrounding one are left. -/
theorem keeps_failed (hnested : Nested limit ambient own (frame :: outer)) (hown : Covers limit own)
    (hkept : stack frame.outside outer <:+ before) {raised : Failure}
    (hraised : Raised limit before exchange (stack frame.context (frame :: outer)) q raised)
    (hcontext : frame.context.get? "path" = some (.str q)) :
    Keeps limit before exchange (failed raised frame outer) := by
  refine ⟨?_, ?_, fun f context hf => ?_⟩
  · rw [failed_eq hnested hown]
    exact List.forall_mem_nil _
  · exact .left ((scopes_unwind_suffix _ frame.outside outer).trans hkept)
  · rw [failed_eq hnested hown] at hf
    obtain ⟨he, -⟩ := Clear.done.inj hf
    exact ⟨frame.context, _, q, raised, hraised, hcontext, (Except.error.inj he).symm⟩

/-- A level begins below another one. -/
theorem keeps_enterChild (hnested : Nested limit ambient own (frame :: outer))
    (hown : Covers limit own) (hkept : stack frame.context (frame :: outer) <:+ before)
    (hplaced : ∀ level ∈ frame :: outer, Placed level) (child : Value) :
    Keeps limit before exchange (enterChild limit frame child outer) := by
  have hframe := hplaced frame List.mem_cons_self
  unfold enterChild
  cases hjoin : Path.joinValues [.str frame.path, child] with
  | error problem =>
    obtain rfl := Operation.noMember_of_joinValues hjoin
    have houtside := (stack_outside_suffix frame.context frame outer).trans hkept
    exact keeps_failed hnested hown houtside (.nameless hkept) hframe.named
  | ok q =>
    have hcontext := get?_childContext limit frame.context q
    dsimp only
    unfold enter
    cases hvalid : Path.validate q false with
    | error problem =>
      exact keeps_failed (.child hnested (hnested.childContext_eq q) rfl) hown hkept
        (.malformed hkept hvalid) hcontext
    | ok p =>
      obtain ⟨hfault, rfl⟩ := Path.validate_eq_ok_iff.mp hvalid
      have hp : Path.IsValid p := ⟨hfault⟩
      refine ⟨?_, .entered hkept p, fun f context hf => by cases hf⟩
      exact List.forall_mem_cons.mpr ⟨⟨hp, hcontext⟩, hplaced⟩

/-- Levels return, up to one that goes on. -/
theorem keeps_proceed (hown : Covers limit own) (attempts : Nat) {levels : List Frame}
    (hnested : levels = [] ∨ Nested limit ambient own levels)
    (hkept : stack (active ambient levels) levels <:+ before)
    (hplaced : ∀ level ∈ levels, Placed level) :
    Keeps limit before exchange (proceed limit attempts (active ambient levels) levels) := by
  induction levels generalizing attempts with
  | nil => exact ⟨List.forall_mem_nil _, .left hkept, fun f context hf => by cases hf⟩
  | cons frame outer ih =>
    have hlevel : Nested limit ambient own (frame :: outer) := hnested.resolve_left (by simp)
    rw [proceed, active]
    split
    · rename_i child rest _
      have hframe : Nested limit ambient own ({ frame with pending := rest } :: outer) :=
        hlevel.replace rfl rfl rfl
      exact keeps_enterChild hframe hown hkept (placed_cons hplaced rfl rfl) child
    · split
      · exact ⟨hplaced, .left hkept, fun f context hf => by cases hf⟩
      · have houter := (List.forall_mem_cons.mp hplaced).2
        have houtside := (stack_outside_suffix _ frame outer).trans hkept
        rw [hlevel.outside_eq] at houtside ⊢
        exact ih frame.attempts hlevel.tail houtside houter

/-- A deletion goes on from an answer: what it reports is the answer, in a context that names the
node that the answer is about. -/
structure Goes (limit : Value) (before : List Context) (exchange : Exchange)
    (after : List LogRecord × Clear) : Prop where
  /-- The records are about the answer. -/
  records : ∀ record ∈ after.1, ∃ q, Path.IsValid q ∧
    record.context.get? "path" = some (.str q) ∧ Tells q exchange record.message
  /-- The levels that are left are about their nodes. -/
  keeps : Keeps limit before exchange after.2

/-- Nothing is reported. -/
theorem Goes.silent {state : Clear} (h : Keeps limit before exchange state) :
    Goes limit before exchange ([], state) :=
  ⟨List.forall_mem_nil _, h⟩

/-- The innermost level reports something. -/
theorem Goes.reporting {state : Clear} (hframe : Placed frame)
    (htells : Tells frame.path exchange message) (h : Keeps limit before exchange state) :
    Goes limit before exchange ([record frame message], state) := by
  refine ⟨fun report hmem => ?_, h⟩
  obtain rfl := List.mem_singleton.mp hmem
  exact ⟨frame.path, hframe.valid, hframe.named, htells⟩

/-- A level that is done with its node reports that. -/
theorem goes_leave (hnested : Nested limit ambient own (frame :: outer)) (hown : Covers limit own)
    (hplaced : ∀ level ∈ frame :: outer, Placed level)
    (htells : Tells frame.path exchange message) :
    Goes limit (stack frame.context (frame :: outer)) exchange
      (leave limit frame outer message) := by
  obtain ⟨hframe, houter⟩ := List.forall_mem_cons.mp hplaced
  have houtside := stack_outside_suffix frame.context frame outer
  refine .reporting hframe htells ?_
  rw [hnested.outside_eq] at houtside ⊢
  exact keeps_proceed hown frame.attempts hnested.tail houtside houter

/-- A level that tries once more reports that, and one that gives up fails. -/
theorem goes_retry (hnested : Nested limit ambient own (frame :: outer)) (hown : Covers limit own)
    (hplaced : ∀ level ∈ frame :: outer, Placed level) {failure : Failure}
    (hfull : failure.problem.isNotEmpty = true) :
    Goes limit (stack frame.context (frame :: outer))
      ⟨.delete frame.path anyVersion, .error failure⟩ (retry limit frame outer failure) := by
  have hframe := hplaced frame List.mem_cons_self
  have houtside := stack_outside_suffix frame.context frame outer
  unfold retry
  split
  · exact .silent (keeps_failed hnested hown houtside (.unlimited rfl hfull ‹_›) hframe.named)
  · exact .silent (keeps_failed hnested hown houtside (.exhausted rfl hfull ‹_›) hframe.named)
  · refine .reporting hframe (.refilled frame.attempts hfull) ?_
    exact ⟨placed_cons hplaced rfl rfl, .left List.suffix_rfl, fun f context hf => by cases hf⟩

/-- Whatever the answer is, the deletion goes on from it in nested contexts that name the nodes. -/
theorem goes_resume {state : Clear} {call : Call} {resume : Answer → List LogRecord × Clear}
    (h : state.Scoped limit ambient own) (hown : Covers limit own)
    (hplaced : ∀ level ∈ state.frames, Placed level) (hn : state.next = .calling call resume)
    (answer : Answer) : Goes limit state.scopes ⟨call, answer⟩ (resume answer) := by
  cases state with
  | done => cases hn
  | listing most frame outer =>
    obtain ⟨rfl, hnested⟩ := h
    have hframe := hplaced frame List.mem_cons_self
    have houtside := stack_outside_suffix frame.context frame outer
    cases hn
    cases answer with
    | error failure =>
      dsimp only
      by_cases hgone : failure.problem.isNoNode = true
      · rw [if_pos hgone]
        exact goes_leave hnested hown hplaced (.unlisted hgone)
      · rw [if_neg hgone]
        have hunexpected := Bool.eq_false_iff.mpr hgone
        exact .silent (keeps_failed hnested hown houtside (.heard rfl hunexpected) hframe.named)
    | ok value =>
      dsimp only
      split
      · exact .silent (keeps_failed hnested hown houtside (.unreadable rfl ‹_›) hframe.named)
      · rename_i names _
        have hlisted : Nested most ambient own ({ frame with pending := names } :: outer) :=
          hnested.replace rfl rfl rfl
        exact .silent (keeps_proceed hown 0 (.inr hlisted) List.suffix_rfl
          (placed_cons hplaced rfl rfl))
  | deleting most frame outer =>
    obtain ⟨rfl, hnested⟩ := h
    have hframe := hplaced frame List.mem_cons_self
    have houtside := stack_outside_suffix frame.context frame outer
    cases hn
    cases answer with
    | ok value => exact goes_leave hnested hown hplaced (.deleted value)
    | error failure =>
      dsimp only
      by_cases hfull : failure.problem.isNotEmpty = true
      · rw [if_pos hfull]
        exact goes_retry hnested hown hplaced hfull
      · by_cases hgone : failure.problem.isNoNode = true
        · rw [if_neg hfull, if_pos hgone]
          exact goes_leave hnested hown hplaced (.undeleted hgone)
        · rw [if_neg hfull, if_neg hgone]
          refine .silent (keeps_failed hnested hown houtside (.heard rfl ?_) hframe.named)
          simp [Call.expects, hfull, hgone]

end Clear

namespace Respondent

open Clear

variable {store : Respondent} {ambient own : Context} {limit : Value} {d : Dialogue}

/-- A deletion with its dialogue, whose levels are nested and about nodes that their contexts name,
and whose records are about answers. -/
structure Names (limit : Value) (ambient own : Context) (state : Clear) (d : Dialogue) : Prop where
  /-- The levels are nested. -/
  nested : state.Scoped limit ambient own
  /-- The levels are about nodes. -/
  placed : ∀ level ∈ state.frames, Placed level
  /-- Each record is about an answer, in a context that names the node. -/
  records : ∀ record ∈ d.records, ∃ q, Path.IsValid q ∧
    record.context.get? "path" = some (.str q) ∧
    ∃ exchange ∈ d.exchanges, Tells q exchange record.message

/-- An answer that a deletion goes on from in nested contexts. -/
def Answers (limit : Value) (state : Clear) (d : Dialogue) (state' : Clear) (d' : Dialogue) :
    Prop :=
  ∃ exchange, d'.exchanges = d.exchanges ++ [exchange] ∧ Keeps limit state.scopes exchange state'

/-- A step of a deletion is an answer. -/
theorem names_step {state : Clear} (h : Names limit ambient own state d) (hown : Covers limit own)
    {there : Operation × Dialogue} (hstep : store.Steps ambient (.clear state, d) there) :
    ∃ state', there.1 = .clear state' ∧ Names limit ambient own state' there.2 ∧
      Answers limit state d state' there.2 := by
  cases hn : state.next with
  | finished outcome =>
    have hfinished : (Operation.clear state).next = .finished outcome :=
      congrArg (Next.map Operation.clear) hn
    rw [Steps, run_step_of_finished hfinished] at hstep
    cases hstep
  | choosing resume => cases state <;> cases hn
  | calling call resume =>
    obtain ⟨answer, rfl⟩ := hstep.answered (congrArg (Next.map Operation.clear) hn)
    have hgoes : Goes limit state.scopes ⟨call, answer⟩ (resume answer) :=
      goes_resume h.nested hown h.placed hn answer
    have hnested := scoped_resume h.nested hown hn answer
    refine ⟨_, rfl, ⟨hnested, hgoes.keeps.placed, fun record hmem => ?_⟩, ⟨call, answer⟩, rfl,
      hgoes.keeps⟩
    rcases List.mem_append.mp hmem with hold | hnew
    · obtain ⟨q, hq, hcontext, exchange, hexchange, htells⟩ := h.records record hold
      exact ⟨q, hq, hcontext, exchange, List.mem_append_left _ hexchange, htells⟩
    · obtain ⟨q, hq, hcontext, htells⟩ := hgoes.records record hnew
      exact ⟨q, hq, hcontext, ⟨call, answer⟩, List.mem_append_right _ List.mem_cons_self, htells⟩

/-- All along a run what is recorded names its node. -/
theorem names_reaches {here there : Operation × Dialogue}
    (hreach : store.Reaches ambient here there) (hown : Covers limit own) {state : Clear}
    (hhere : here.1 = .clear state) (h : Names limit ambient own state here.2) :
    ∃ state', there.1 = .clear state' ∧ Names limit ambient own state' there.2 := by
  induction hreach with
  | refl => exact ⟨state, hhere, h⟩
  | @tail here there _ hstep ih =>
    obtain ⟨state', hhere', h'⟩ := ih
    obtain ⟨operation, d⟩ := here
    subst hhere'
    obtain ⟨next, hthere, hnext, -⟩ := names_step h' hown hstep
    exact ⟨next, hthere, hnext⟩

/-- Before its first request, a deletion is about its path, or it is done. -/
theorem names_start (path : String) (deleteSelf limit : Option Value) (known : Option CreateMode) :
    ∃ state, Operation.deleteChildren ambient path deleteSelf limit = .clear state ∧
      Names (limit.getD .null) ambient (Operation.deletionContext ambient path deleteSelf limit)
        state { known } := by
  have hcontext := Operation.get?_deletionContext ambient path deleteSelf limit
  have hown := Operation.covers_deletionContext ambient path deleteSelf limit
  refine ⟨_, rfl, scoped_start hown path _, ?_, List.forall_mem_nil _⟩
  cases hvalid : Path.validate path false with
  | error problem =>
    rw [start, enter, hvalid]
    dsimp only
    rw [failed_eq (.outermost rfl rfl) hown]
    exact List.forall_mem_nil _
  | ok p =>
    obtain ⟨hfault, rfl⟩ := Path.validate_eq_ok_iff.mp hvalid
    rw [start_of_validate hvalid]
    exact List.forall_mem_singleton.mpr ⟨⟨hfault⟩, hcontext⟩

/-- Whatever a store answers, what a recursive deletion logs is about an answer, in a context whose
path is the node that the message names. The contexts that it is in are nested: with an answer some
are left and at most one is entered, the requests are made in the innermost one, and in the end only
the surrounding one is left. A failure leaves the innermost context that it is raised in, whose path
is the node to blame. If it has notes as it is raised it keeps them; if it has none it gets a single
one, with the names and values of that context, and no context around adds anything. Where that
context has a value that cannot be written, the failure to do so takes the place of the first one.
-/
theorem deletion_names_nodes (store : Respondent) (ambient : Context) (path : String)
    (deleteSelf limit : Option Value) (known : Option CreateMode) :
    let own := Operation.deletionContext ambient path deleteSelf limit
    let operation := Operation.deleteChildren ambient path deleteSelf limit
    let most := limit.getD .null
    own.get? "path" = some (.str path) ∧
    (∀ problem, Path.validate path false = .error problem →
      operation = .clear (.done (.error (Failure.leaving problem own)) ambient)) ∧
    (Path.IsValid path → ∃ state, operation = .clear state ∧ state.scopes = [own, ambient]) ∧
    ∀ here d, store.Reaches ambient (operation, { known }) (here, d) →
      ∃ state, here = .clear state ∧
        (∃ rest, state.scopes = here.context ambient :: rest) ∧
        (∀ outcome context, state = .done outcome context →
          context = ambient ∧ here.context ambient = ambient) ∧
        (∀ record ∈ d.records,
          (∃ q, Path.IsValid q ∧ ∃ exchange ∈ d.exchanges, Tells q exchange record.message) ∧
          ∀ q, Path.IsValid q → Mentions q record.message →
            record.context.get? "path" = some (.str q)) ∧
        ∀ state' d', store.Steps ambient (here, d) (.clear state', d') →
          Nests most state.scopes state'.scopes ∧
          ∃ exchange, d'.exchanges = d.exchanges ++ [exchange] ∧
            ∀ f last, state' = .done (.error f) last → ∃ context rest q raised,
              Raised most state.scopes exchange (context :: rest) q raised ∧
              context.get? "path" = some (.str q) ∧
              (raised.notes ≠ [] ∨ raised.problem.isInterrupt = true → f = raised) ∧
              (raised.notes = [] → raised.problem.isInterrupt = false →
                (context.isOverlong = false →
                  f = { raised with notes := ["Context: " ++ ", ".intercalate
                    (context.map fun (name, value) => name ++ "=" ++ value.literal)] }) ∧
                (context.isOverlong = true → f = Failure.overlong)) ∧
              (context.isOverlong = false → ∀ wider, f.leaving wider = f) := by
  intro own operation most
  have hown : Covers most own := Operation.covers_deletionContext ambient path deleteSelf limit
  refine ⟨Operation.get?_deletionContext ambient path deleteSelf limit, fun problem hp => ?_,
    fun hp => ?_, fun here d hreach => ?_⟩
  · change Operation.clear (Clear.start _ _ _ path _) = _
    rw [start, enter, hp]
    dsimp only
    rw [failed_eq (.outermost rfl rfl) hown]
  · refine ⟨_, rfl, ?_⟩
    rw [start_of_validate hp.validate]
    rfl
  · obtain ⟨first, hfirst, hnames⟩ := names_start path deleteSelf limit known
    obtain ⟨state, rfl, hstate⟩ := names_reaches hreach hown hfirst hnames
    refine ⟨state, rfl, exists_scopes ambient state, ?_, ?_, ?_⟩
    · rintro outcome context rfl
      obtain ⟨rfl, -⟩ := hstate.nested
      exact ⟨rfl, rfl⟩
    · intro record hmem
      obtain ⟨q, hq, hcontext, exchange, hexchange, htells⟩ := hstate.records record hmem
      refine ⟨⟨q, hq, exchange, hexchange, htells⟩, fun r hr hmentions => ?_⟩
      rwa [htells.mentions.unique hmentions hq hr]
    · intro state' d' hstep
      obtain ⟨_, hthere, -, exchange, hexchanges, hkeeps⟩ := names_step hstate hown hstep
      cases hthere
      refine ⟨hkeeps.nests, exchange, hexchanges, fun f last hf => ?_⟩
      obtain ⟨context, rest, q, raised, hraised, hcontext, rfl⟩ := hkeeps.annotated f last hf
      refine ⟨context, rest, q, raised, hraised, hcontext, ?_, fun hnone hinterrupt => ?_, ?_⟩
      · rintro (hnotes | hinterrupt)
        · exact Failure.leaving_of_notes hnotes context
        · exact Failure.leaving_of_interrupt hinterrupt context
      · exact ⟨Failure.leaving_of_writable hnone hinterrupt,
          Failure.leaving_of_overlong hnone hinterrupt⟩
      · intro hover wider
        exact Failure.leaving_leaving raised fun h => by rw [hover] at h; cases h

/-- A child of the path is deleted, and then another one cannot be listed. -/
theorem deletion_names_nodes_below :
    let store : Respondent :=
      { className := "Store"
        answer _ call := match call with
          | .children "/a" => .ok (.list [.str "b", .str "c"])
          | .children "/a/c" => .error (Problem.ofStore .unavailable "/a/c" : Problem)
          | .children _ => .ok (.list [])
          | call => .ok (.str call.path) }
    let operation := Operation.deleteChildren [] "/a" none none
    Path.IsValid "/a/b" ∧ ∃ here d there f, store.Reaches [] (operation, {}) (here, d) ∧
      store.Steps [] (here, d) there ∧ there.1.next = .finished (.error f) ∧
      (∃ record ∈ d.records, record.message = deletedMessage "/a/b" ∧
        record.context.get? "path" = some (.str "/a/b")) ∧
      (∃ context : Context, context.get? "path" = some (.str "/a/c") ∧
        f.notes = ["Context: " ++ context.display]) ∧
      f.notes =
        ["Context: op='delete_children', path='/a/c', delete_self=True, max_attempts=None"] := by
  intro store operation
  let own := Operation.deletionContext [] "/a" none none
  let outermost (pending : List Value) : Frame := ⟨"/a", false, 1, own, [], pending⟩
  let child (q : String) : Frame := ⟨q, true, 1, childContext .null own q, own, []⟩
  let last : Operation := .clear (.listing .null (child "/a/c") [outermost []])
  let failure : Failure := (Problem.ofStore .unavailable "/a/c" : Problem)
  let f := failure.leaving (child "/a/c").context
  let report := record (child "/a/b") (deletedMessage "/a/b")
  let listed : Dialogue := { exchanges := [⟨.children "/a", .ok (.list [.str "b", .str "c"])⟩] }
  let emptied := listed.heard (.children "/a/b") (.ok (.list []))
  let deleted := (emptied.heard (.delete "/a/b" anyVersion) (.ok (.str "/a/b"))).reported [report]
  let there : Operation × Dialogue :=
    (.clear (.done (.error f) []), deleted.heard (.children "/a/c") (.error failure))
  have hfirst : store.Steps [] (operation, {})
      (.clear (.listing .null (child "/a/b") [outermost [.str "c"]]), listed) := by cbv
  have hsecond : store.Steps []
      (.clear (.listing .null (child "/a/b") [outermost [.str "c"]]), listed)
      (.clear (.deleting .null (child "/a/b") [outermost [.str "c"]]), emptied) := by cbv
  have hthird : store.Steps []
      (.clear (.deleting .null (child "/a/b") [outermost [.str "c"]]), emptied)
      (last, deleted) := by cbv
  have hcalling : last.next = .calling (.children "/a/c") _ := rfl
  have hlast : store.Steps [] (last, deleted) there := steps_of_calling hcalling store [] deleted
  have hreach : store.Reaches [] (operation, {}) (last, deleted) :=
    .tail (.tail (.single hfirst) hsecond) hthird
  have hvalid : Path.IsValid "/a/b" := by decide
  obtain ⟨-, -, -, hruns⟩ := deletion_names_nodes store [] "/a" none none none
  obtain ⟨state, hstate, -, -, hrecords, hsteps⟩ := hruns last deleted hreach
  have hreport : report ∈ deleted.records := List.mem_singleton_self report
  have hnotes : f.notes =
      ["Context: op='delete_children', path='/a/c', delete_self=True, max_attempts=None"] := by
    decide +kernel
  refine ⟨hvalid, last, deleted, there, f, hreach, hlast, rfl, ⟨report, hreport, rfl, ?_⟩, ?_,
    hnotes⟩
  · exact (hrecords report hreport).2 "/a/b" hvalid (.inl rfl)
  · obtain ⟨-, exchange, hexchanges, hfailure⟩ := hsteps _ _ hlast
    obtain ⟨context, rest, q, raised, hraised, hcontext, -, hnote, -⟩ := hfailure f [] rfl
    have hexchange : exchange = ⟨.children "/a/c", .error failure⟩ :=
      (List.singleton_inj.mp (List.append_cancel_left hexchanges)).symm
    subst hexchange
    have hproblem : f.problem = .ofStore .unavailable "/a/c" := rfl
    have hkept (hnone : raised.notes = []) (hinterrupt : raised.problem.isInterrupt = false) :
        f.problem = raised.problem ∧ f.notes = ["Context: " ++ context.display] := by
      obtain ⟨hwritten, hreplaced⟩ := hnote hnone hinterrupt
      cases hover : context.isOverlong with
      | true =>
        rw [hreplaced hover] at hproblem
        cases hproblem
      | false =>
        rw [hwritten hover]
        exact ⟨rfl, rfl⟩
    generalize state.scopes = before at hraised
    cases hraised with
    | heard answered unexpected =>
      cases answered
      exact ⟨context, hcontext, (hkept rfl rfl).2⟩
    | unreadable answered | exhausted answered | unlimited answered => cases answered
    | nameless kept => cases hproblem.symm.trans (hkept rfl rfl).1
    | malformed kept rejected =>
      obtain ⟨fault, -, rfl⟩ := Path.validate_eq_error_iff.mp rejected
      cases hproblem.symm.trans (hkept rfl rfl).1

/-- If the limit has too many digits to be written, a failure of the store that has no notes comes
out as one that has none either. -/
theorem note_missing :
    let failure : Failure := (Problem.ofStore .unavailable "/a" : Problem)
    let store : Respondent := { className := "Store", answer _ _ := .error failure }
    let start := Operation.deleteChildren [] "/a" none (some (.int (2 ^ 14400 : Nat)))
    failure.notes = [] ∧ failure.problem.isInterrupt = false ∧
      ∃ d, d.exchanges = [⟨.children "/a", .error failure⟩] ∧
        store.Ends [] (start, {}) (.error Failure.overlong) d ∧
        ∀ f d', store.Ends [] (start, {}) (.error f) d' → f.notes = [] := by
  have hlong := Value.isOverlong_two_pow
  generalize (2 ^ 14400 : Nat) = n at hlong ⊢
  intro failure store start
  have hown := Operation.covers_deletionContext [] "/a" none (some (.int n)) hlong
  have hend : store.Ends [] (start, {}) (.error (failure.leaving _)) _ :=
    ends_of_refused (by cbv) rfl rfl none (some (.int n))
  rw [Failure.leaving_of_overlong rfl rfl hown] at hend
  refine ⟨rfl, rfl, _, rfl, hend, fun f d' hother => ?_⟩
  obtain ⟨hsame, -⟩ := hend.unique hother
  obtain rfl := Except.error.inj hsame
  rfl

end Respondent

end TreeStore
