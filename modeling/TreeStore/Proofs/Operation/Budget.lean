import TreeStore.Proofs.Operation.Descent

/-!
# The budget of a deletion

A deletion with a limit clears each node so many times at the most, however often the store lets it
find children again. If the listings are bounded in width and depth, so is the number of calls, and
the deletion comes to an end. What is proved of one deletion holds of each that it makes for a
child: the calls below a child are about other nodes, so that those about the node itself tell how
often it was tried, what is returned, and whether the attempts ran out.
-/

namespace TreeStore

/-- The answers to the given call. -/
def answersTo (call : Call) (made : List Exchange) : List Answer :=
  (made.filter fun exchange => exchange.call = call).map Exchange.answer

/-- How many of the calls were listings. -/
def listings (made : List Exchange) : Nat :=
  made.countP fun exchange => exchange.call.primitive = .children

/-- The answer to a deletion that the node has children. -/
def isFull : Answer → Bool
  | .error failure => failure.problem.isNotEmpty
  | .ok _ => false

/-- How often the deletion of a node was refused because of its children. -/
def refusals (q : String) (made : List Exchange) : Nat :=
  (answersTo (.delete q anyVersion) made).countP isFull

/-- A failure is the unexpected failure of the last call. -/
def Failure.PassedOn (f : Failure) (made : List Exchange) : Prop :=
  ∃ before call failure, made = before ++ [⟨call, .error failure⟩] ∧
    call.expects failure.problem = false ∧ f.problem = failure.problem ∧ f.source = failure.source

section History

variable {call : Call} {made more : List Exchange} {q : String}

@[simp] theorem answersTo_append : answersTo call (made ++ more) =
    answersTo call made ++ answersTo call more := by
  simp [answersTo]

@[simp] theorem answersTo_cons_self (answer : Answer) :
    answersTo call (⟨call, answer⟩ :: made) = answer :: answersTo call made := by
  simp [answersTo]

/-- Other calls have no part in the answers to a call. -/
theorem answersTo_cons_of_ne {exchange : Exchange} (h : exchange.call ≠ call) :
    answersTo call (exchange :: made) = answersTo call made := by
  simp [answersTo, h]

/-- A call that was not made has no answers. -/
theorem answersTo_eq_nil (h : ∀ exchange ∈ made, exchange.call ≠ call) :
    answersTo call made = [] := by
  rw [answersTo, List.map_eq_nil_iff, List.filter_eq_nil_iff]
  simpa using h

@[simp] theorem listings_append : listings (made ++ more) = listings made + listings more :=
  List.countP_append

@[simp] theorem listings_cons_children (answer : Answer) :
    listings (⟨.children q, answer⟩ :: made) = listings made + 1 :=
  List.countP_cons_of_pos (by simp [Call.primitive])

@[simp] theorem listings_cons_delete (version : Int) (answer : Answer) :
    listings (⟨.delete q version, answer⟩ :: made) = listings made :=
  List.countP_cons_of_neg (by simp [Call.primitive])

/-- What happened before does not matter to a failure that is passed on. -/
theorem Failure.PassedOn.append {f : Failure} (h : f.PassedOn more) :
    f.PassedOn (made ++ more) := by
  obtain ⟨before, call, failure, rfl, hu, hsame⟩ := h
  exact ⟨made ++ before, call, failure, by rw [List.append_assoc], hu, hsame⟩

/-- A single call before does not matter to a failure that is passed on. -/
theorem Failure.PassedOn.cons {f : Failure} (h : f.PassedOn more) (exchange : Exchange) :
    f.PassedOn (exchange :: more) :=
  (h.append : f.PassedOn ([exchange] ++ more))

/-- Attempts that ran out before a failure left a context are those that ran out after it did. -/
theorem Failure.leaving_retriesExhausted {f : Failure} {context : Context} {r : String} {n : Int}
    (h : (f.leaving context).problem = .retriesExhausted r n) :
    f.problem = .retriesExhausted r n ∧ (f.leaving context).problem = f.problem ∧
      (f.leaving context).source = f.source := by
  obtain ⟨hproblem, hsource⟩ | ⟨-, hreplaced⟩ := f.leaving_problem_or context
  · exact ⟨hproblem.symm.trans h, hproblem, hsource⟩
  · rw [hreplaced] at h
    cases h

/-- A failure that is passed on is still passed on after it left another context, provided that it
is still about attempts that ran out. -/
theorem Failure.PassedOn.leaving {f : Failure} (hf : f.PassedOn made) {context : Context}
    {r : String} {n : Int} (h : (f.leaving context).problem = .retriesExhausted r n) :
    (f.leaving context).PassedOn made := by
  obtain ⟨before, call, failure, hmade, hu, hproblem, hsource⟩ := hf
  obtain ⟨-, hproblem', hsource'⟩ := leaving_retriesExhausted h
  exact ⟨before, call, failure, hmade, hu, hproblem'.trans hproblem, hsource'.trans hsource⟩

end History

namespace Clear

/-- A call about a node below a child. -/
def GoesBelow (q : String) (call : Call) : Prop :=
  ∃ s, Path.IsName s ∧ GoesDown (Path.join [q, s]) call

variable {q : String} {call : Call}

/-- A call about a node below a child goes down. -/
theorem GoesBelow.goesDown (h : GoesBelow q call) (hq : Path.IsValid q) : GoesDown q call := by
  obtain ⟨s, hs, r, hcall, hr, habove⟩ := h
  exact ⟨r, hcall, hr, (Path.isAbove_join hq hs).trans habove⟩

/-- Such a call is not about the node itself. -/
theorem GoesBelow.ne (h : GoesBelow q call) (hq : Path.IsValid q) :
    call ≠ .children q ∧ call ≠ .delete q anyVersion := by
  obtain ⟨s, hs, r, hcall, -, habove⟩ := h
  have hne : r ≠ q := by
    rintro rfl
    exact Path.not_isAbove_of_join hq hs habove
  obtain rfl | rfl := hcall <;> simp [hne]

end Clear

/-- The attempts to delete a node ran out over a refusal. -/
def Failure.ranOut (q : String) (most : Nat) (refusal : Failure) : Failure :=
  { problem := .retriesExhausted q most, source := some refusal.problem }

/-- What a deletion at a node says of itself, if it begins an attempt at the node or goes on with
one: how often it lists the node, how many listings it makes, and what it ends with. -/
structure Account (most : Nat) (q : String) (context : Context) (attempts own all : Nat)
    (outcome : Answer) (made : List Exchange) : Prop where
  /-- All calls go down. -/
  goesDown : ∀ exchange ∈ made, Clear.GoesDown q exchange.call
  /-- The node is listed so often. -/
  own : (answersTo (.children q) made).length ≤ own
  /-- There are so many listings. -/
  all : listings made ≤ all
  /-- It returns the attempts before, the present one and one for each refusal. -/
  returns : ∀ value, outcome = .ok value → value = .int (attempts + refusals q made : Nat)
  /-- It gives up over the last refusal that it may meet. -/
  exhausts : ∀ failure : Failure,
    (answersTo (.delete q anyVersion) made)[most - attempts]? = some (.error failure) →
    failure.problem.isNotEmpty = true →
    outcome = .error ((Failure.ranOut q most failure).leaving context) ∧
      ∃ before, made = before ++ [⟨.delete q anyVersion, .error failure⟩]
  /-- Where attempts ran out, if that is why it fails. -/
  raised : ∀ (f : Failure) r n, outcome = .error f → f.problem = .retriesExhausted r n →
    f.PassedOn made ∨ Path.IsAbove q r ∧ (r = q → ∃ failure : Failure,
      (answersTo (.delete q anyVersion) made)[most - attempts]? = some (.error failure) ∧
        failure.problem.isNotEmpty = true)

/-- What a deletion at a node, begun in the course of another, says of itself: it calls for a
listing of the node no more often than attempts are allowed; if it returns, the value is one more
than the number of refusals to delete the node; and it gives up exactly over the last refusal that
is allowed, which is then the source of the failure. The failure leaves the context of the deletion,
which keeps it as it is if it can be written. -/
structure Invocation (most : Nat) (q : String) (context : Context) (outcome : Answer)
    (made : List Exchange) : Prop where
  /-- The node is listed no more often than attempts are allowed. -/
  lists : (answersTo (.children q) made).length ≤ most
  /-- If it returns, it returns the number of attempts. -/
  returns : (∃ value, outcome = .ok value) →
    ∀ attempts : Int, outcome = .ok (.int attempts) ↔ attempts - 1 = refusals q made
  /-- It raises a failure of its own exactly if the last deletion that is allowed is refused, and
  the failure goes out with its problem if the context can be written. -/
  raises : (∃ f : Failure, outcome = .error f ∧ f.problem = .retriesExhausted q most ∧
      ¬ f.PassedOn made) ↔
    context.isOverlong = false ∧ ∃ failure : Failure,
      (answersTo (.delete q anyVersion) made)[most - 1]? = some (.error failure) ∧
        failure.problem.isNotEmpty = true
  /-- The failure that it raises over the refusal has that as its source. -/
  source : ∀ failure : Failure,
    (answersTo (.delete q anyVersion) made)[most - 1]? = some (.error failure) →
    failure.problem.isNotEmpty = true →
    outcome = .error ((Failure.ranOut q most failure).leaving context)

namespace Account

variable {most attempts own all own' all' : Nat} {q : String} {context : Context}
  {outcome : Answer} {made below : List Exchange} {answer : Answer} {failure : Failure}

/-- An account may leave more room. -/
theorem mono (h : Account most q context attempts own all outcome made) (hown : own ≤ own')
    (hall : all ≤ all') : Account most q context attempts own' all' outcome made :=
  ⟨h.goesDown, h.own.trans hown, h.all.trans hall, h.returns, h.exhausts, h.raised⟩

/-- The account of a deletion that returns without another call. -/
theorem returned : Account most q context attempts 0 0 (.ok (.int attempts)) [] where
  goesDown := by simp
  own := by simp [answersTo]
  all := by simp [listings]
  returns value hvalue := by
    obtain rfl := Except.ok.inj hvalue
    simp [refusals, answersTo]
  exhausts := by simp [answersTo]
  raised := by simp

section Listing

variable (hq : Path.IsValid q) (hbelow : ∀ exchange ∈ below, Clear.GoesBelow q exchange.call)

include hq hbelow

/-- A listing and the calls below the children go down. -/
private theorem goesDown_listed (answer : Answer) :
    ∀ exchange ∈ (⟨.children q, answer⟩ :: below : List Exchange),
      Clear.GoesDown q exchange.call := by
  intro exchange hmem
  obtain rfl | hmem := List.mem_cons.mp hmem
  · exact ⟨q, .inl rfl, hq, hq.isAbove⟩
  · exact (hbelow exchange hmem).goesDown hq

/-- Among them the node is listed once, and not deleted. -/
private theorem answersTo_listed (answer : Answer) :
    answersTo (.children q) (⟨.children q, answer⟩ :: below) = [answer] ∧
      answersTo (.delete q anyVersion) (⟨.children q, answer⟩ :: below) = [] := by
  constructor
  · rw [answersTo_cons_self, answersTo_eq_nil fun exchange hmem => ((hbelow exchange hmem).ne hq).1]
  · rw [answersTo_cons_of_ne (by simp),
      answersTo_eq_nil fun exchange hmem => ((hbelow exchange hmem).ne hq).2]

/-- Before it went on, it listed the node and returned from the children. -/
theorem listed (h : Account most q context attempts own all outcome made) (answer : Answer) :
    Account most q context attempts (own + 1) (1 + listings below + all) outcome
      (⟨.children q, answer⟩ :: below ++ made) := by
  obtain ⟨hchildren, hdelete⟩ := answersTo_listed hq hbelow answer
  have hanswers : answersTo (.delete q anyVersion) (⟨.children q, answer⟩ :: below ++ made) =
      answersTo (.delete q anyVersion) made := by
    rw [answersTo_append, hdelete, List.nil_append]
  constructor
  · intro exchange hmem
    obtain hmem | hmem := List.mem_append.mp hmem
    · exact goesDown_listed hq hbelow answer exchange hmem
    · exact h.goesDown exchange hmem
  · rw [answersTo_append, hchildren, List.length_append, List.length_singleton]
    have := h.own
    omega
  · have hall := h.all
    rw [listings_append, listings_cons_children]
    omega
  · rw [refusals, hanswers]
    exact h.returns
  · rw [hanswers]
    intro failure hlast hfull
    obtain ⟨houtcome, before, rfl⟩ := h.exhausts failure hlast hfull
    exact ⟨houtcome, _, (List.append_assoc ..).symm⟩
  · rw [hanswers]
    exact fun f r n houtcome hproblem =>
      (h.raised f r n houtcome hproblem).imp_left Failure.PassedOn.append

/-- The listing, or the deletion of a child, fails. -/
theorem failed {f : Failure} (answer : Answer)
    (hraised : ∀ r n, f.problem = .retriesExhausted r n →
      f.PassedOn (⟨.children q, answer⟩ :: below) ∨ Path.IsAbove q r ∧ r ≠ q) :
    Account most q context attempts 1 (1 + listings below) (.error f)
      (⟨.children q, answer⟩ :: below) := by
  obtain ⟨hchildren, hdelete⟩ := answersTo_listed hq hbelow answer
  constructor
  · exact goesDown_listed hq hbelow answer
  · rw [hchildren, List.length_singleton]
  · rw [listings_cons_children, Nat.add_comm]
  · simp
  · simp [hdelete]
  · intro f' r n houtcome hproblem
    obtain rfl := Except.error.inj houtcome
    refine (hraised r n hproblem).imp_right ?_
    rintro ⟨habove, hne⟩
    exact ⟨habove, fun he => absurd he hne⟩

end Listing

section Deleting

variable (hq : Path.IsValid q)

include hq

/-- The deletion of the node itself goes down. -/
private theorem goesDown_delete (answer : Answer) :
    ∀ exchange ∈ ([⟨.delete q anyVersion, answer⟩] : List Exchange),
      Clear.GoesDown q exchange.call := by
  simpa using ⟨q, .inr rfl, hq, hq.isAbove⟩

/-- The node is deleted, or it is gone already. -/
theorem deleted (answer : Answer) (hfull : isFull answer = false) :
    Account most q context attempts 0 0 (.ok (.int attempts)) [⟨.delete q anyVersion, answer⟩] where
  goesDown := goesDown_delete hq answer
  own := by simp [answersTo]
  all := by simp [listings, Call.primitive]
  returns value hvalue := by
    obtain rfl := Except.ok.inj hvalue
    simp [refusals, answersTo, hfull]
  exhausts failure hlast hnotEmpty := by
    obtain ⟨-, rfl⟩ : most - attempts = 0 ∧ answer = .error failure := by
      simpa [answersTo, List.getElem?_singleton] using hlast
    rw [isFull, hnotEmpty] at hfull
    cases hfull
  raised := by simp

/-- The deletion of the node fails for another reason than its children. -/
theorem refused (hother : failure.problem.isNotEmpty = false)
    (hunexpected : (Call.delete q anyVersion).expects failure.problem = false) :
    Account most q context attempts 0 0 (.error (failure.leaving context))
      [⟨.delete q anyVersion, .error failure⟩] where
  goesDown := goesDown_delete hq _
  own := by simp [answersTo]
  all := by simp [listings, Call.primitive]
  returns := by simp
  exhausts failure' hlast hnotEmpty := by
    obtain ⟨-, rfl⟩ : most - attempts = 0 ∧ failure = failure' := by
      simpa [answersTo, List.getElem?_singleton] using hlast
    rw [hnotEmpty] at hother
    cases hother
  raised f r n houtcome hr := by
    obtain rfl := Except.error.inj houtcome
    obtain ⟨-, hsame⟩ := Failure.leaving_retriesExhausted hr
    exact .inl ⟨[], _, failure, rfl, hunexpected, hsame⟩

/-- The node has children in the last attempt. -/
theorem exhausted (hfull : failure.problem.isNotEmpty = true) :
    Account most q context most 0 0 (.error ((Failure.ranOut q most failure).leaving context))
      [⟨.delete q anyVersion, .error failure⟩] where
  goesDown := goesDown_delete hq _
  own := by simp [answersTo]
  all := by simp [listings, Call.primitive]
  returns := by simp
  exhausts failure' hlast _ := by
    obtain rfl : failure = failure' := by simpa [answersTo] using hlast
    exact ⟨rfl, [], rfl⟩
  raised f r n houtcome hr := by
    obtain rfl := Except.error.inj houtcome
    obtain ⟨hproblem, -⟩ := Failure.leaving_retriesExhausted hr
    obtain ⟨rfl, -⟩ : q = r ∧ (most : Int) = n := by simpa [Failure.ranOut] using hproblem
    exact .inr ⟨hq.isAbove, fun _ => ⟨failure, by simp [answersTo], hfull⟩⟩

/-- The node has children, but it is cleared again. -/
theorem again (hfull : failure.problem.isNotEmpty = true) (hless : attempts < most)
    (h : Account most q context (attempts + 1) own all outcome made) :
    Account most q context attempts own all outcome
      (⟨.delete q anyVersion, .error failure⟩ :: made) := by
  have hanswers : answersTo (.delete q anyVersion)
      (⟨.delete q anyVersion, .error failure⟩ :: made) =
        .error failure :: answersTo (.delete q anyVersion) made := answersTo_cons_self _
  have hindex : most - attempts = most - (attempts + 1) + 1 := by omega
  constructor
  · intro exchange hmem
    obtain rfl | hmem := List.mem_cons.mp hmem
    · exact ⟨q, .inr rfl, hq, hq.isAbove⟩
    · exact h.goesDown exchange hmem
  · rw [answersTo_cons_of_ne (by simp)]
    exact h.own
  · rw [listings_cons_delete]
    exact h.all
  · intro value hvalue
    have hcount : refusals q (⟨.delete q anyVersion, .error failure⟩ :: made) =
        refusals q made + 1 := by
      have hfull : isFull (.error failure) = true := hfull
      rw [refusals, hanswers, List.countP_cons_of_pos hfull, refusals]
    rw [h.returns value hvalue, hcount, Nat.add_right_comm, Nat.add_assoc]
  · rw [hanswers, hindex, List.getElem?_cons_succ]
    intro failure' hlast hnotEmpty
    obtain ⟨houtcome, before, rfl⟩ := h.exhausts failure' hlast hnotEmpty
    exact ⟨houtcome, _ :: before, rfl⟩
  · rw [hanswers, hindex]
    simp only [List.getElem?_cons_succ]
    intro f r n houtcome hproblem
    exact (h.raised f r n houtcome hproblem).imp_left fun hpassed => hpassed.cons _

end Deleting

/-- The account of a whole invocation. -/
theorem invocation (h : Account most q context 1 most all outcome made) :
    Invocation most q context outcome made where
  lists := h.own
  returns := by
    rintro ⟨value, rfl⟩ attempts
    rw [h.returns value rfl]
    simp only [Except.ok.injEq, Value.int.injEq]
    omega
  raises := by
    constructor
    · rintro ⟨f, rfl, hproblem, hown⟩
      obtain hpassed | ⟨-, hlast⟩ := h.raised f q most rfl hproblem
      · exact absurd hpassed hown
      obtain ⟨failure, hlast, hfull⟩ := hlast rfl
      refine ⟨?_, failure, hlast, hfull⟩
      obtain ⟨houtcome, -⟩ := h.exhausts failure hlast hfull
      obtain rfl := Except.error.inj houtcome
      by_contra hcontext
      rw [Failure.leaving_of_overlong rfl rfl (Bool.eq_true_of_not_eq_false hcontext)] at hproblem
      cases hproblem
    · rintro ⟨hcontext, failure, hlast, hfull⟩
      obtain ⟨rfl, before, hmade⟩ := h.exhausts failure hlast hfull
      obtain ⟨hproblem, -⟩ := (Failure.ranOut q most failure).leaving_problem hcontext
      refine ⟨_, rfl, hproblem, ?_⟩
      rintro ⟨before', call, failure', hmade', hu, -⟩
      obtain ⟨-, hlast⟩ := List.append_inj' (hmade.symm.trans hmade') rfl
      obtain ⟨rfl, rfl⟩ : Call.delete q anyVersion = call ∧ failure = failure' := by
        simpa using hlast
      simp [Call.expects, hfull] at hu
  source failure hlast hfull := (h.exhausts failure hlast hfull).1

end Account

namespace Respondent

variable {store : Respondent} {ambient context : Context} {most attempts own all own' all' : Nat}
  {q : String} {frame : Clear.Frame} {d : Dialogue}

/-- A deletion comes to an end, and this is its account. -/
def Settles (store : Respondent) (ambient : Context) (most : Nat) (q : String) (context : Context)
    (attempts own all : Nat) (state : Clear) (d : Dialogue) : Prop :=
  ∃ outcome made after, store.Ends ambient (.clear state, d) outcome after ∧
    after.exchanges = d.exchanges ++ made ∧ Account most q context attempts own all outcome made

/-- A deletion settles with more room, too. -/
theorem Settles.mono {state : Clear}
    (h : store.Settles ambient most q context attempts own all state d) (hown : own ≤ own')
    (hall : all ≤ all') :
    store.Settles ambient most q context attempts own' all' state d := by
  obtain ⟨outcome, made, after, hend, hmade, haccount⟩ := h
  exact ⟨outcome, made, after, hend, hmade, haccount.mono hown hall⟩

/-- A deletion that ends with the answer to one more call settles. -/
theorem settles_of_last {state : Clear} {call : Call} {answer outcome : Answer}
    {records : List LogRecord} {last : Context}
    (h : Account most q context attempts 0 0 outcome [⟨call, answer⟩])
    (hstep : store.Steps ambient (.clear state, d)
      (.clear (.done outcome last), (d.heard call answer).reported records)) :
    store.Settles ambient most q context attempts own all state d :=
  ⟨outcome, _, _, Reaches.ends (.single hstep) (ends_of_finished rfl), rfl,
    h.mono (Nat.zero_le _) (Nat.zero_le _)⟩

/-- The deletion of the node itself, if another attempt would settle as well. -/
theorem settles_deleting (hq : Path.IsValid q) (hpath : frame.path = q)
    (hcontext : frame.context = context) (hattempts : frame.attempts ≤ most)
    (hagain : frame.attempts < most → ∀ d,
      store.Settles ambient most q context (frame.attempts + 1) own all
        (.listing (.int most) { frame with attempts := frame.attempts + 1 } []) d)
    (d : Dialogue) :
    store.Settles ambient most q context frame.attempts own all (.deleting (.int most) frame [])
      d := by
  subst hpath hcontext
  have hstep : store.Steps ambient (.clear (.deleting (.int most) frame []), d) _ :=
    steps_of_clear rfl store ambient d
  cases hanswer : store.answer d.exchanges (.delete frame.path anyVersion) with
  | ok value =>
    rw [hanswer] at hstep
    exact settles_of_last (Account.deleted hq (.ok value) rfl) hstep
  | error failure =>
    rw [hanswer] at hstep
    by_cases hfull : failure.problem.isNotEmpty = true
    · simp only [if_pos hfull, Clear.retry, Clear.reached?_int] at hstep
      by_cases hless : frame.attempts < most
      · rw [decide_eq_false (by omega)] at hstep
        obtain ⟨outcome, made, after, hend, hmade, haccount⟩ := hagain hless _
        refine ⟨outcome, _, after, Reaches.ends (.single hstep) hend, ?_,
          haccount.again hq hfull hless⟩
        rw [hmade]
        simp [Dialogue.heard, Dialogue.reported]
      · obtain rfl : frame.attempts = most := by omega
        rw [decide_eq_true (Int.le_refl _)] at hstep
        exact settles_of_last (Account.exhausted hq hfull) hstep
    · simp only [if_neg hfull] at hstep
      rw [Bool.not_eq_true] at hfull
      by_cases hgone : failure.problem.isNoNode = true
      · simp only [if_pos hgone] at hstep
        exact settles_of_last (Account.deleted hq (.error failure) hfull) hstep
      · simp only [if_neg hgone] at hstep
        have hunexpected : (Call.delete frame.path anyVersion).expects failure.problem = false := by
          simp [Call.expects, hgone, hfull]
        exact settles_of_last (Account.refused hq hfull hunexpected) hstep

/-- The names are proper ones, and the deletions of the children by these names settle. -/
def ChildrenSettle (store : Respondent) (ambient : Context) (most : Nat) (q : String) (all : Nat)
    (names : List Value) : Prop :=
  ∀ name ∈ names, ∃ s, name = .str s ∧ Path.IsName s ∧ ∀ (frame : Clear.Frame) d,
    frame.path = Path.join [q, s] → frame.attempts = 1 →
      store.Settles ambient most (Path.join [q, s]) frame.context 1 most all
        (.listing (.int most) frame []) d

/-- The level for a child with a proper name begins with a listing, in a context made from that of
the level above. -/
theorem exists_level (most : Nat) {s : String} (hq : Path.IsValid frame.path)
    (hs : Path.IsName s) (rest : List Value) (outer : List Clear.Frame) (taken : Nat) :
    ∃ own : Clear.Frame, own.path = Path.join [frame.path, s] ∧ own.attempts = 1 ∧
      own.context = Clear.childContext (.int most) frame.context own.path ∧
      own.outside = frame.context ∧
      Clear.proceed (.int most) taken frame.context
          ({ frame with pending := .str s :: rest } :: outer) =
        .listing (.int most) own ({ frame with pending := rest } :: outer) := by
  let context := Clear.childContext (.int most) frame.context (Path.join [frame.path, s])
  refine ⟨⟨Path.join [frame.path, s], true, 1, context, frame.context, []⟩, rfl, rfl, rfl, rfl, ?_⟩
  simp only [Clear.proceed, Clear.enterChild, Path.joinValues_str hq hs, Clear.enter,
    (hq.join hs).validate, context]

/-- A deletion that lists a node on its own keeps the context of its level. -/
theorem scoped_listing (limit : Value) (frame : Clear.Frame)
    (hcovers : Clear.Covers limit frame.context) :
    (Operation.clear (.listing limit frame [])).Scoped frame.outside frame.context :=
  ⟨limit, hcovers, rfl, .outermost rfl rfl⟩

/-- The deletions of the listed children: all of them return, or one fails and the whole with it. -/
theorem children_settle (hq : Path.IsValid q) {names : List Value}
    (hnames : store.ChildrenSettle ambient most q all names) (hpath : frame.path = q)
    (taken : Nat) (d : Dialogue) :
    ∃ below after, after.exchanges = d.exchanges ++ below ∧
      (∀ exchange ∈ below, Clear.GoesBelow q exchange.call) ∧
      listings below ≤ names.length * all ∧
      (store.Reaches ambient
          (.clear (Clear.proceed (.int most) taken frame.context
            [{ frame with pending := names }]), d)
          (.clear (Clear.proceed (.int most) 0 frame.context
            [{ frame with pending := [] }]), after) ∨
        ∃ f : Failure, store.Ends ambient
          (.clear (Clear.proceed (.int most) taken frame.context
            [{ frame with pending := names }]), d) (.error f) after ∧
          ∀ r n, f.problem = .retriesExhausted r n →
            f.PassedOn below ∨ Path.IsAbove q r ∧ r ≠ q) := by
  subst hpath
  induction names generalizing taken d with
  | nil =>
    refine ⟨[], d, by simp, by simp, by simp [listings], .inl ?_⟩
    rw [Clear.proceed, Clear.proceed]
    exact .refl
  | cons name rest ih =>
    obtain ⟨⟨s, rfl, hs, hsettles⟩, hrest⟩ := List.forall_mem_cons.mp hnames
    obtain ⟨own, hown, hfirst, hcontext, houtside, henter⟩ := exists_level most hq hs rest [] taken
    have hwithin : Clear.Within (.int most) [{ frame with pending := rest }]
        (.listing (.int most) own [])
        (.listing (.int most) own ([] ++ [{ frame with pending := rest }])) := .listing own []
    have hcovers : Clear.Covers (.int most) own.context := by
      rw [hcontext]
      exact Clear.isOverlong_childContext_of_limit own.path
    have hscoped := scoped_listing (.int most) own hcovers
    rw [houtside] at hscoped
    obtain ⟨outcome, made, after, hend, hmade, haccount⟩ := hsettles own d hown hfirst
    obtain ⟨hreturned, hfailed⟩ := done_within hwithin hscoped hend ambient
    have hbelow : ∀ exchange ∈ made, Clear.GoesBelow frame.path exchange.call :=
      fun exchange hmem => ⟨s, hs, haccount.goesDown exchange hmem⟩
    rw [henter]
    cases outcome with
    | error f =>
      obtain ⟨-, hreach⟩ := hfailed f rfl
      refine ⟨made, after, hmade, hbelow, ?_,
        .inr ⟨f.leaving frame.context, hreach.ends (ends_of_finished rfl), ?_⟩⟩
      · rw [List.length_cons, Nat.succ_mul]
        exact haccount.all.trans (Nat.le_add_left _ _)
      · intro r n hleft
        obtain ⟨hproblem, -⟩ := Failure.leaving_retriesExhausted hleft
        obtain hpassed | ⟨habove, -⟩ := haccount.raised f r n rfl hproblem
        · exact .inl (hpassed.leaving hleft)
        refine .inr ⟨(Path.isAbove_join hq hs).trans habove, ?_⟩
        rintro rfl
        exact Path.not_isAbove_of_join hq hs habove
    | ok value =>
      have hreach := hreturned value rfl
      obtain ⟨more, later, hlater, hmore, hall, hrun⟩ := ih 0 after hrest
      refine ⟨made ++ more, later, by rw [hlater, hmade, List.append_assoc], ?_, ?_, ?_⟩
      · intro exchange hmem
        exact (List.mem_append.mp hmem).elim (hbelow exchange) (hmore exchange)
      · rw [listings_append, List.length_cons, Nat.succ_mul, Nat.add_comm]
        exact Nat.add_le_add hall haccount.all
      · obtain hrun | ⟨f, hfails, hraised⟩ := hrun
        · exact .inl (Relation.ReflTransGen.trans hreach hrun)
        · refine .inr ⟨f, Reaches.ends hreach hfails, fun r n hproblem => ?_⟩
          exact (hraised r n hproblem).imp_left Failure.PassedOn.append

section Listed

variable {state state' : Clear} {after : Dialogue} {answer : Answer} {below : List Exchange}

/-- A deletion that has returned settles at once. -/
theorem settles_returned (attempts : Nat) (last : Context) (d : Dialogue) :
    store.Settles ambient most q context attempts 0 0 (.done (.ok (.int attempts)) last) d :=
  ⟨_, [], d, ends_of_finished rfl, (List.append_nil _).symm, .returned⟩

/-- A deletion settles if it listed the node and returned from the children, and what it goes on
with settles. -/
theorem Settles.listed (h : store.Settles ambient most q context attempts own all state' after)
    (hq : Path.IsValid q) (hbelow : ∀ exchange ∈ below, Clear.GoesBelow q exchange.call)
    (hreach : store.Reaches ambient (.clear state, d) (.clear state', after))
    (hmade : after.exchanges = d.exchanges ++ ⟨.children q, answer⟩ :: below) :
    store.Settles ambient most q context attempts (own + 1) (1 + listings below + all) state d := by
  obtain ⟨outcome, made, last, hend, hlast, haccount⟩ := h
  refine ⟨outcome, _, last, hreach.ends hend, ?_, haccount.listed hq hbelow answer⟩
  rw [hlast, hmade, List.append_assoc]

/-- A deletion settles if it listed the node, and that or the deletion of a child failed. -/
theorem settles_failed {f : Failure} (hq : Path.IsValid q)
    (hbelow : ∀ exchange ∈ below, Clear.GoesBelow q exchange.call)
    (hend : store.Ends ambient (.clear state, d) (.error f) after)
    (hmade : after.exchanges = d.exchanges ++ ⟨.children q, answer⟩ :: below)
    (hraised : ∀ r n, f.problem = .retriesExhausted r n →
      f.PassedOn (⟨.children q, answer⟩ :: below) ∨ Path.IsAbove q r ∧ r ≠ q) :
    store.Settles ambient most q context attempts 1 (1 + listings below) state d :=
  ⟨_, _, after, hend, hmade, .failed hq hbelow answer hraised⟩

end Listed

/-- An attempt at a node whose listing failed, or could not be read. -/
theorem settles_unlisted (hq : Path.IsValid q) (hpath : frame.path = q)
    (hcontext : frame.context = context)
    (hanswer : ∀ value names, store.answer d.exchanges (.children q) = .ok value →
      value.members? ≠ some names) :
    store.Settles ambient most q context frame.attempts 1 1 (.listing (.int most) frame []) d := by
  subst hpath hcontext
  have hnone : ∀ exchange ∈ ([] : List Exchange), Clear.GoesBelow frame.path exchange.call := by
    simp
  have hstep : store.Steps ambient (.clear (.listing (.int most) frame []), d) _ :=
    steps_of_clear rfl store ambient d
  cases hlisting : store.answer d.exchanges (.children frame.path) with
  | error failure =>
    rw [hlisting] at hstep
    by_cases hgone : failure.problem.isNoNode = true
    · simp only [if_pos hgone] at hstep
      exact (settles_returned frame.attempts _ _).listed hq hnone (.single hstep) rfl
    · simp only [if_neg hgone] at hstep
      rw [Bool.not_eq_true] at hgone
      refine settles_failed hq hnone (Reaches.ends (.single hstep) (ends_of_finished rfl)) rfl ?_
      intro r n hraised
      obtain ⟨-, hsame⟩ := Failure.leaving_retriesExhausted hraised
      exact .inl ⟨[], _, failure, rfl, hgone, hsame⟩
  | ok value =>
    rw [hlisting] at hstep
    cases hmembers : value.members? with
    | some names => exact absurd hmembers (hanswer value names hlisting)
    | none =>
      simp only [hmembers] at hstep
      refine settles_failed hq hnone (Reaches.ends (.single hstep) (ends_of_finished rfl)) rfl ?_
      intro r n hraised
      obtain ⟨hproblem, -⟩ := Failure.leaving_retriesExhausted hraised
      cases hproblem

/-- An attempt at a node whose children were listed, if another one would settle as well. -/
theorem settles_listed {width cost : Nat} {value : Value} {names : List Value}
    (hq : Path.IsValid q) (hpath : frame.path = q)
    (hcontext : frame.context = context)
    (hanswer : store.answer d.exchanges (.children q) = .ok value)
    (hmembers : value.members? = some names) (hwidth : names.length ≤ width)
    (hchildren : store.ChildrenSettle ambient most q cost names)
    (hattempts : frame.attempts ≤ most)
    (hagain : ∀ frame' : Clear.Frame, frame'.path = q → frame'.context = context →
      frame'.attempts = frame.attempts + 1 → frame.attempts < most → ∀ d,
        store.Settles ambient most q context (frame.attempts + 1) own all
          (.listing (.int most) frame' []) d) :
    store.Settles ambient most q context frame.attempts (own + 1) (1 + width * cost + all)
      (.listing (.int most) frame []) d := by
  subst hpath hcontext
  have hstep : store.Steps ambient (.clear (.listing (.int most) frame []), d) _ :=
    steps_of_clear rfl store ambient d
  simp only [hanswer, hmembers, Dialogue.reported_nil] at hstep
  obtain ⟨below, after, hafter, hbelow, hall, hrun⟩ :=
    children_settle hq hchildren rfl 0 (d.heard (.children frame.path) (.ok value))
  have hmade : after.exchanges = d.exchanges ++ ⟨.children frame.path, .ok value⟩ :: below := by
    rw [hafter, Dialogue.heard, List.append_assoc]
    rfl
  have hcost : listings below ≤ width * cost := hall.trans (Nat.mul_le_mul_right cost hwidth)
  obtain hrun | ⟨f, hfails, hraised⟩ := hrun
  · have hreach := Relation.ReflTransGen.head hstep hrun
    rw [Clear.proceed] at hreach
    cases hself : frame.deleteSelf with
    | true =>
      simp only [hself, if_true] at hreach
      let cleared : Clear.Frame := { frame with pending := [] }
      have hdeleting : store.Settles ambient most frame.path frame.context frame.attempts own all
          (.deleting (.int most) cleared []) after :=
        settles_deleting hq (rfl : cleared.path = frame.path) rfl hattempts (hagain _ rfl rfl rfl)
          after
      simp only [cleared, hself] at hdeleting
      exact (hdeleting.listed hq hbelow hreach hmade).mono (Nat.le_refl _) (by omega)
    | false =>
      simp only [hself, Bool.false_eq_true, if_false, Clear.proceed] at hreach
      exact ((settles_returned frame.attempts _ after).listed hq hbelow hreach hmade).mono
        (Nat.le_add_left 1 own) (by omega)
  · refine (settles_failed hq hbelow (Reaches.ends (.single hstep) hfails) hmade
      fun r n hproblem => ?_).mono (Nat.le_add_left 1 own) (by omega)
    exact (hraised r n hproblem).imp_left fun hpassed => hpassed.cons _

/-- An attempt, if another one would settle as well. -/
theorem settles_attempt {width cost : Nat} (hq : Path.IsValid q) (hpath : frame.path = q)
    (hcontext : frame.context = context)
    (hlistings : ∀ exchanges value names, store.answer exchanges (.children q) = .ok value →
      value.members? = some names →
      names.length ≤ width ∧ store.ChildrenSettle ambient most q cost names)
    (hattempts : frame.attempts ≤ most)
    (hagain : ∀ frame' : Clear.Frame, frame'.path = q → frame'.context = context →
      frame'.attempts = frame.attempts + 1 → frame.attempts < most → ∀ d,
        store.Settles ambient most q context (frame.attempts + 1) own all
          (.listing (.int most) frame' []) d) (d : Dialogue) :
    store.Settles ambient most q context frame.attempts (own + 1) (1 + width * cost + all)
      (.listing (.int most) frame []) d := by
  by_cases hlisted : ∃ value names, store.answer d.exchanges (.children q) = .ok value ∧
      value.members? = some names
  · obtain ⟨value, names, hanswer, hmembers⟩ := hlisted
    obtain ⟨hwidth, hchildren⟩ := hlistings _ _ _ hanswer hmembers
    exact settles_listed hq hpath hcontext hanswer hmembers hwidth hchildren hattempts hagain
  · refine (settles_unlisted hq hpath hcontext fun value names hanswer hmembers => ?_).mono
      (Nat.le_add_left 1 own) (by omega)
    exact hlisted ⟨value, names, hanswer, hmembers⟩

/-- All attempts that are left, by induction on how many there are after this one, as another one is
made in the same level. -/
theorem settles_listing {width cost : Nat} (hq : Path.IsValid q)
    (hlistings : ∀ exchanges value names, store.answer exchanges (.children q) = .ok value →
      value.members? = some names →
      names.length ≤ width ∧ store.ChildrenSettle ambient most q cost names)
    (left : Nat) (hpath : frame.path = q) (hcontext : frame.context = context)
    (hleft : frame.attempts + left = most) (d : Dialogue) :
    store.Settles ambient most q context frame.attempts (left + 1) ((left + 1) * (1 + width * cost))
      (.listing (.int most) frame []) d := by
  induction left generalizing frame d with
  | zero =>
    have hlast : store.Settles ambient most q context frame.attempts (0 + 1) (1 + width * cost + 0)
        (.listing (.int most) frame []) d :=
      settles_attempt hq hpath hcontext hlistings (Nat.le_of_eq hleft)
        (fun _ _ _ _ hless => absurd hless (by omega)) d
    exact hlast.mono (Nat.le_refl _) (Nat.le_of_eq (by ring))
  | succ left ih =>
    have hnext : store.Settles ambient most q context frame.attempts (left + 1 + 1)
        (1 + width * cost + (left + 1) * (1 + width * cost)) (.listing (.int most) frame []) d := by
      refine settles_attempt hq hpath hcontext hlistings (by omega) ?_ d
      intro frame' hpath' hcontext' hnext _ d
      rw [← hnext]
      exact ih hpath' hcontext' (by omega) d
    exact hnext.mono (Nat.le_refl _) (Nat.le_of_eq (by ring))

/-- A whole invocation. -/
theorem settles_first {width cost : Nat} (hmost : 1 ≤ most) (hq : Path.IsValid q)
    (hlistings : ∀ exchanges value names, store.answer exchanges (.children q) = .ok value →
      value.members? = some names →
      names.length ≤ width ∧ store.ChildrenSettle ambient most q cost names)
    (hpath : frame.path = q) (hfirst : frame.attempts = 1) (d : Dialogue) :
    store.Settles ambient most q frame.context 1 most (most * (1 + width * cost))
      (.listing (.int most) frame []) d := by
  obtain ⟨left, rfl⟩ := Nat.exists_eq_add_of_le' hmost
  have hsettles := settles_listing hq hlistings left hpath rfl (by omega) d
  rwa [hfirst] at hsettles

/-- The listings of a store are no longer than the width and have proper names in them, and there
are none so deep below the path. -/
structure Bounded (store : Respondent) (path : String) (width depth : Nat) : Prop where
  /-- A listing has no more names than the width. -/
  width : ∀ exchanges q value names, store.answer exchanges (.children q) = .ok value →
    value.members? = some names → names.length ≤ width
  /-- Each of them is a proper name. -/
  proper : ∀ exchanges q value names, store.answer exchanges (.children q) = .ok value →
    value.members? = some names → ∀ name ∈ names, ∃ s, name = .str s ∧ Path.IsName s
  /-- The nodes more levels below the path than the depth have no children. -/
  depth : ∀ exchanges q value names, store.answer exchanges (.children q) = .ok value →
    value.members? = some names → Path.IsAbove path q →
    (Path.segments path).length + depth < (Path.segments q).length → names = []

/-- How many listings a deletion may make, by the number of levels below its node. -/
def cost (most width : Nat) : Nat → Nat
  | 0 => most
  | levels + 1 => most * (1 + width * cost most width levels)

/-- The bound, written as a sum over the levels. -/
theorem cost_eq_sum (most width levels : Nat) : cost most width levels =
    ∑ j ∈ Finset.range (levels + 1), most ^ (j + 1) * width ^ j := by
  induction levels with
  | zero => simp [cost]
  | succ levels ih =>
    rw [Finset.sum_range_succ' _ (levels + 1), cost, ih, Nat.mul_add, Finset.mul_sum,
      Finset.mul_sum, Nat.add_comm]
    congr 1
    · refine Finset.sum_congr rfl fun j _ => ?_
      ring
    · ring

variable {path : String} {width depth : Nat}

/-- A deletion at or below the path settles. -/
theorem Bounded.settles (hstore : store.Bounded path width depth) (hmost : 1 ≤ most)
    (levels : Nat) (hq : Path.IsValid q) (habove : Path.IsAbove path q)
    (hlevels : (Path.segments path).length + depth < (Path.segments q).length + levels)
    (hpath : frame.path = q) (hfirst : frame.attempts = 1) (d : Dialogue) :
    store.Settles ambient most q frame.context 1 most (cost most width levels)
      (.listing (.int most) frame []) d := by
  induction levels generalizing q frame d with
  | zero =>
    have hnone : ∀ exchanges value names, store.answer exchanges (.children q) = .ok value →
        value.members? = some names →
        names.length ≤ 0 ∧ store.ChildrenSettle ambient most q 0 names := by
      intro exchanges value names hanswer hmembers
      obtain rfl := hstore.depth exchanges q value names hanswer hmembers habove hlevels
      exact ⟨Nat.le_refl 0, by simp [ChildrenSettle]⟩
    exact (settles_first hmost hq hnone hpath hfirst d).mono (Nat.le_refl _)
      (Nat.le_of_eq (by rw [cost]; ring))
  | succ levels ih =>
    refine settles_first hmost hq (fun exchanges value names hanswer hmembers => ?_) hpath hfirst d
    refine ⟨hstore.width exchanges q value names hanswer hmembers, fun name hname => ?_⟩
    obtain ⟨s, rfl, hs⟩ := hstore.proper exchanges q value names hanswer hmembers name hname
    refine ⟨s, rfl, hs, fun frame d hpath hfirst => ?_⟩
    refine ih (hq.join hs) (habove.trans (Path.isAbove_join hq hs)) ?_ hpath hfirst d
    rw [Path.segments_join hq hs, List.length_append, List.length_singleton]
    omega

/-- A level that settles alone goes on, or fails, in the same way below the levels that it is nested
in. -/
theorem goes_on_of_ends {limit : Value} {around own : Context} {outcome : Answer}
    {after : Dialogue} {outer : List Clear.Frame} (hcovers : Clear.Covers limit own)
    (hnested : Clear.Nested limit around own (frame :: outer))
    (hend : store.Ends ambient (.clear (.listing limit frame []), d) outcome after) :
    (∀ attempts : Nat, outcome = .ok (.int attempts) →
      store.Reaches ambient (.clear (.listing limit frame outer), d)
        (.clear (Clear.proceed limit attempts frame.outside outer), after)) ∧
    ∀ f, outcome = .error f →
      store.Ends ambient (.clear (.listing limit frame outer), d) (.error f) after := by
  have hscoped := scoped_listing limit frame (hnested.covers hcovers)
  cases hnested with
  | outermost inside outside =>
    refine ⟨?_, fun f hf => hf ▸ hend⟩
    rintro attempts rfl
    obtain ⟨there, hreach, hdone, rfl⟩ := hend.reaches
    obtain ⟨state, after, rfl⟩ := Reaches.clear hreach
    obtain ⟨_, -, hlast⟩ := hreach.scoped hscoped
    cases state with
    | listing | deleting => cases hdone
    | done outcome last =>
      cases hdone
      obtain ⟨rfl, -⟩ := hlast
      exact hreach
  | @child _ waiting outer below inside outside =>
    have hwithin : Clear.Within limit (waiting :: outer) (.listing limit frame [])
        (.listing limit frame ([] ++ waiting :: outer)) := .listing frame []
    rw [outside] at hscoped
    obtain ⟨hreturned, hfailed⟩ := done_within hwithin hscoped hend ambient
    constructor
    · rintro attempts rfl
      have hreach := hreturned _ rfl
      rw [Clear.proceed] at hreach ⊢
      rwa [outside]
    · rintro f rfl
      obtain ⟨hleft, hreach⟩ := hfailed f rfl
      have hsame : f.leaving waiting.context = f := by
        refine hleft.leaving_eq fun hinner => ?_
        rw [inside, ← below.childContext_eq] at hinner
        exact (Clear.isOverlong_of_childContext hinner).elim id (below.covers hcovers)
      rw [below.unwind_eq hcovers, hsame] at hreach
      exact hreach.ends (ends_of_finished rfl)

/-- Against a store whose listings are bounded in width and depth, a deletion with a limit comes to
an end, and it calls for so many listings at the most. Each deletion of a node that is begun in its
course keeps to its attempts, returns how many it took, and gives up exactly over the last refusal,
whatever else the store answers; the whole then goes on below it or fails with it. The context of
such a deletion can be written if that of the whole can. -/
theorem deletion_bounded (store : Respondent) (ambient : Context) {path : String}
    (hp : Path.IsValid path) (deleteSelf : Option Value) (known : Option CreateMode)
    {most width depth : Nat} (hmost : 1 ≤ most) (hstore : store.Bounded path width depth) :
    let start := Operation.deleteChildren ambient path deleteSelf (some (.int most))
    (∃ outcome d, store.Ends ambient (start, { known }) outcome d ∧
      listings d.exchanges ≤ ∑ j ∈ Finset.range (depth + 2), most ^ (j + 1) * width ^ j) ∧
    ∀ limit (frame : Clear.Frame) outer d,
      store.Reaches ambient (start, { known }) (.clear (.listing limit frame outer), d) →
      frame.attempts = 1 →
      ∃ outcome made after,
        store.Ends ambient (.clear (.listing limit frame []), d) outcome after ∧
        after.exchanges = d.exchanges ++ made ∧
        Invocation most frame.path frame.context outcome made ∧
        (frame.context.isOverlong = true → (start.context ambient).isOverlong = true) ∧
        (∀ attempts : Nat, outcome = .ok (.int attempts) →
          store.Reaches ambient (start, { known })
            (.clear (Clear.proceed limit attempts frame.outside outer), after)) ∧
        ∀ f, outcome = .error f → store.Ends ambient (start, { known }) (.error f) after := by
  intro start
  have hstart : start =
      .clear (.listing (.int most) ⟨path, _, 1, start.context ambient, ambient, []⟩ []) :=
    deleteChildren_eq_listing hp ambient deleteSelf (some (.int most))
  have hscoped := Operation.scoped_deleteChildren ambient path deleteSelf (some (.int most))
  generalize start.context ambient = context at hstart ⊢
  change start.Scoped ambient _ at hscoped
  rw [hstart] at hscoped ⊢
  generalize (deleteSelf.getD (.bool false)).truthy = wanted at hscoped ⊢
  let first : Clear.Frame := ⟨path, wanted, 1, context, ambient, []⟩
  have hcovers : Clear.Covers (.int most) context := by
    obtain ⟨_, hcovers, rfl, hnested⟩ := hscoped
    exact hnested.covers hcovers
  constructor
  · obtain ⟨outcome, made, d, hend, hmade, haccount⟩ :=
      hstore.settles hmost (depth + 1) hp hp.isAbove (by omega) (rfl : first.path = path) rfl
        { known }
    refine ⟨outcome, d, hend, ?_⟩
    rw [hmade, List.nil_append, ← cost_eq_sum]
    exact haccount.all
  · intro limit frame outer d hreach hfirst
    obtain ⟨_, hstate, hstands⟩ := hreach.stands (.listing 1 [] _)
    obtain rfl := Operation.clear.inj hstate
    obtain rfl := hstands.limit_eq
    obtain ⟨_, -, hstate, hconfined, -⟩ := hreach.goesDown ⟨⟨hp, hp.isAbove⟩, by simp⟩
    obtain rfl := Operation.clear.inj hstate
    obtain ⟨⟨hvalid, habove⟩, -⟩ := hconfined
    obtain ⟨_, -, rfl, hnested⟩ := hreach.scoped (scoped_listing (.int most) first hcovers)
    have hlength := habove.segments.length_le
    have hsettles : store.Settles ambient most frame.path frame.context 1 most _ _ d :=
      hstore.settles hmost (depth + 1) hvalid habove (by omega) rfl hfirst d
    obtain ⟨outcome, made, after, hend, hmade, haccount⟩ := hsettles
    obtain ⟨hreturns, hfails⟩ := goes_on_of_ends hcovers hnested hend
    refine ⟨outcome, made, after, hend, hmade, haccount.invocation,
      hnested.isOverlong_own hcovers, ?_, ?_⟩
    · exact fun attempts he => Relation.ReflTransGen.trans hreach (hreturns attempts he)
    · exact fun f he => hreach.ends (hfails f he)

/-- A store that refuses every other deletion of the child, and all of its parent, brings as many
listings about as there may be. -/
theorem deletion_bounded_tight :
    let store : Respondent :=
      { className := "Store"
        answer exchanges call := match call with
          | .children path => .ok (.list (if path = "/a" then [.str "b"] else []))
          | .delete path version =>
            if path = "/a/b" ∧ (answersTo (.delete path version) exchanges).length % 2 = 1 then
              .ok .null
            else .error (Problem.ofStore .notEmpty path : Problem)
          | _ => .ok .null }
    let start := Operation.deleteChildren [] "/a" (some (.bool true)) (some (.int 2))
    store.Bounded "/a" 1 0 ∧
      (∃ f d, f.problem = .retriesExhausted "/a" 2 ∧ store.Ends [] (start, {}) (.error f) d ∧
        listings d.exchanges = 6) ∧
      (∃ outcome d, store.Ends [] (start, {}) outcome d ∧ listings d.exchanges ≤ 6) ∧
      ∃ outcome d, store.Ends [] (start, {}) outcome d ∧
        Invocation 2 "/a" (start.context []) outcome d.exchanges := by
  intro store start
  have hnames : ∀ exchanges q value names, store.answer exchanges (.children q) = .ok value →
      value.members? = some names → names = if q = "/a" then [.str "b"] else [] := by
    intro exchanges q value names hanswer hmembers
    obtain rfl := Except.ok.inj hanswer
    exact (Option.some.inj hmembers).symm
  have hbounded : store.Bounded "/a" 1 0 := by
    constructor
    · intro exchanges q value names hanswer hmembers
      rw [hnames exchanges q value names hanswer hmembers]
      split <;> simp
    · intro exchanges q value names hanswer hmembers name hname
      rw [hnames exchanges q value names hanswer hmembers] at hname
      split at hname
      · have hb : Path.IsName (Path.leaf "/b") := Path.IsValid.leaf (by decide) (by decide)
        have hleaf : Path.leaf "/b" = "b" := by decide +kernel
        exact ⟨"b", List.mem_singleton.mp hname, hleaf ▸ hb⟩
      · cases hname
    · intro exchanges q value names hanswer hmembers _ hdeep
      rw [hnames exchanges q value names hanswer hmembers, if_neg]
      rintro rfl
      exact absurd hdeep (Nat.lt_irrefl _)
  obtain ⟨⟨outcome, d, hend, hle⟩, hall⟩ :=
    deletion_bounded store [] (by decide) (some (.bool true)) none (show 1 ≤ 2 by decide) hbounded
  obtain ⟨outcome', made, d', hend', hmade, hinvocation, -⟩ := hall _ _ _ _ .refl rfl
  refine ⟨hbounded, ?_, ⟨outcome, d, hend, hle.trans (by decide)⟩, outcome', d', hend', ?_⟩
  · let failure : Failure :=
      { problem := .retriesExhausted "/a" 2, notes := ["Context: " ++ (start.context []).display]
        source := some (.ofStore .notEmpty "/a") }
    have hruns : (store.client.run [] 13 start).run {} =
        (some (.error failure), ((store.client.run [] 13 start).run {}).2) := Prod.ext (by cbv) rfl
    exact ⟨failure, _, rfl, ends_of_run 13 hruns, by cbv⟩
  · rw [hmade]
    exact hinvocation

end Respondent

end TreeStore
