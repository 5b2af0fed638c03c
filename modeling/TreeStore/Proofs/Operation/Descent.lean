import TreeStore.Proofs.Tree.Isolation

/-!
# Recursive deletion goes down only

Recursive deletion joins whatever names a store lists to the path of the node that was listed. What
the join makes of them may be refused, or stay where it is, or lie below, but it never lies beside
or above. So a deletion keeps to its path, and as long as no listed name is blank it comes to the
node itself only after the deletions of all the children in some listing of it have returned.
-/

namespace TreeStore

namespace Path

/-- A listed name that is empty or has nothing but separators in it. -/
def IsBlank : Value → Prop
  | .str s => ∀ c ∈ s.toList, c = separator
  | v => v.truthy = false

/-- A text that adds nothing to a join is blank. -/
theorem isBlank_of_join_eq_root {s : String} (h : join [s] = root) : IsBlank (.str s) := by
  have hchars : joinChars [s.toList] = [separator] := by
    simpa [join, root, separator] using congrArg String.toList h
  refine strip_eq_nil_iff.mp ?_
  by_contra hne
  rw [joinChars, List.map_singleton, List.filter_cons_of_pos (by simpa using hne)] at hchars
  exact hne (by simpa [List.intercalate] using hchars)

/-- A name that is not blank leads away from the node that it is joined to. -/
theorem ne_of_joinValues {q p : String} {child : Value} (hq : IsValid q) (hchild : ¬ IsBlank child)
    (h : joinValues [.str q, child] = .ok p) (hp : IsValid p) : p ≠ q := by
  rintro rfl
  cases child with
  | str s =>
    have hs : s ≠ "" := by
      rintro rfl
      exact hchild (by simp [IsBlank])
    rw [joinValues_front p hs] at h
    have he : join [p, s] = p := Except.ok.inj h
    have hvalid := isValid_join_iff.mp (he ▸ hp)
    have hs : IsValid (join [s]) := hvalid s (by simp)
    have hsegments := segments_join_of_isValid hvalid
    simp only [he, List.flatMap_cons, hp.join_singleton, List.flatMap_nil, List.append_nil,
      List.self_eq_append_right] at hsegments
    refine hchild (isBlank_of_join_eq_root ((segments_inj hs isValid_root).mp ?_))
    rw [hsegments, segments_root]
  | _ =>
    have hp' : (Value.str p).truthy = true := by simpa [Value.truthy] using hp.ne_empty
    have htruthy := Bool.eq_true_of_not_eq_false hchild
    rw [joinValues, List.filter_cons_of_pos hp', List.filter_cons_of_pos htruthy] at h
    cases h

/-- Paths that lie below each other are the same. -/
theorem IsAbove.antisymm {a p : String} (h : IsAbove a p) (h' : IsAbove p a) : a = p :=
  (segments_inj h.valid h'.valid).mp (h.segments.eq_of_length_le h'.segments.length_le)

end Path

namespace Clear

/-- What recursive deletion calls a store for: to list a valid path at or below its own, or to
delete such a path at any version. -/
def GoesDown (full : String) (call : Call) : Prop :=
  ∃ q, (call = .children q ∨ call = .delete q anyVersion) ∧ Path.IsValid q ∧ Path.IsAbove full q

variable {full : String} {state : Clear}

theorem Confined.goesDown (h : state.Confined full) {call : Call}
    {resume : Answer → List LogRecord × Clear} (hn : state.next = .calling call resume) :
    GoesDown full call ∧ ∀ answer, (resume answer).2.Confined full := by
  refine ⟨?_, (h.calling hn).2⟩
  cases state with
  | listing limit frame outer =>
    cases hn
    exact ⟨frame.path, .inl rfl, h.1.valid, h.1.isAbove⟩
  | deleting limit frame outer =>
    cases hn
    exact ⟨frame.path, .inr rfl, h.1.valid, h.1.isAbove⟩
  | done => cases hn

end Clear

namespace Respondent

variable {store : Respondent} {ambient : Context} {state : Clear} {d : Dialogue}
  {there : Operation × Dialogue} {full : String}

/-- A deletion that makes a call goes on from the answer. -/
theorem steps_of_clear {call : Call} {resume : Answer → List LogRecord × Clear}
    (hn : state.next = .calling call resume) (store : Respondent) (ambient : Context)
    (d : Dialogue) :
    let answer := store.answer d.exchanges call
    store.Steps ambient (.clear state, d)
      (.clear (resume answer).2, (d.heard call answer).reported (resume answer).1) := by
  have hn' : (Operation.clear state).next = .calling call fun answer =>
      (resume answer).map id .clear := by rw [Operation.next, hn, Next.map]
  exact steps_of_calling hn' store ambient d

/-- A step of a deletion is a call. -/
theorem Steps.clear (h : store.Steps ambient (.clear state, d) there) :
    ∃ call resume, state.next = .calling call resume ∧
      let answer := store.answer d.exchanges call
      there = (.clear (resume answer).2, (d.heard call answer).reported (resume answer).1) := by
  cases hn : state.next with
  | calling call resume =>
    exact ⟨call, resume, rfl, (steps_of_clear hn store ambient d).unique h⟩
  | finished outcome =>
    obtain ⟨_, _, hn', -⟩ | ⟨_, hn', -⟩ := h.cases <;> rw [Operation.next, hn] at hn' <;> cases hn'
  | choosing resume => cases state <;> cases hn

/-- What a deletion goes on to is a deletion. -/
theorem Reaches.clear (h : store.Reaches ambient (.clear state, d) there) :
    ∃ state' d', there = (.clear state', d') := by
  induction h with
  | refl => exact ⟨state, d, rfl⟩
  | tail _ hstep ih =>
    obtain ⟨state', d', rfl⟩ := ih
    obtain ⟨call, resume, -, rfl⟩ := hstep.clear
    exact ⟨_, _, rfl⟩

/-- A deletion that is confined to a path stays so, and all calls that it makes go down. -/
theorem Reaches.goesDown (h : store.Reaches ambient (.clear state, d) there)
    (hstate : state.Confined full) : ∃ state' made, there.1 = .clear state' ∧ state'.Confined full ∧
      there.2.exchanges = d.exchanges ++ made ∧
      ∀ exchange ∈ made, Clear.GoesDown full exchange.call := by
  induction h with
  | refl => exact ⟨state, [], rfl, hstate, (List.append_nil _).symm, by simp⟩
  | @tail mid there _ hstep ih =>
    obtain ⟨operation, later⟩ := mid
    obtain ⟨state', made, rfl, hstate', hmade, hdown⟩ := ih
    obtain ⟨call, resume, hn, rfl⟩ := hstep.clear
    obtain ⟨hcall, hnext⟩ := hstate'.goesDown hn
    refine ⟨_, made ++ [⟨call, store.answer later.exchanges call⟩], rfl, hnext _, ?_, ?_⟩
    · rw [← List.append_assoc, ← hmade]
      rfl
    · intro exchange hmem
      obtain hmem | hmem := List.mem_append.mp hmem
      · exact hdown exchange hmem
      · rwa [List.mem_singleton.mp hmem]

/-- Every exchange of a deletion was a call in some state that it went through. -/
theorem Reaches.exists_calling (h : store.Reaches ambient (.clear state, d) there)
    {before after : List Exchange} {exchange : Exchange}
    (he : there.2.exchanges = before ++ exchange :: after) (hd : d.exchanges <+: before) :
    ∃ state' now resume, store.Reaches ambient (.clear state, d) (.clear state', now) ∧
      now.exchanges = before ∧ state'.next = .calling exchange.call resume := by
  induction h generalizing after with
  | refl =>
    replace he : d.exchanges = before ++ exchange :: after := he
    have hle := hd.length_le
    rw [he, List.length_append, List.length_cons] at hle
    omega
  | @tail mid there hreach hstep ih =>
    obtain ⟨state', later, rfl⟩ := Reaches.clear hreach
    obtain ⟨call, resume, hn, rfl⟩ := hstep.clear
    replace he : later.exchanges ++ [⟨call, store.answer later.exchanges call⟩] =
      before ++ exchange :: after := he
    obtain rfl | ⟨rest, last, rfl⟩ := after.eq_nil_or_concat
    · obtain ⟨hbefore, hlast⟩ := List.append_inj' he rfl
      obtain rfl := List.singleton_inj.mp hlast
      exact ⟨state', later, resume, hreach, hbefore, hn⟩
    · rw [List.concat_eq_append, ← List.cons_append, ← List.append_assoc] at he
      exact ih (List.append_inj' he rfl).1

/-- The deletions of children, each with the child itself, returned one after the other. -/
inductive Returned (store : Respondent) (limit : Value) (context : Context) (path : String) :
    List Value → Dialogue → Dialogue → Prop
  | nil (d : Dialogue) : Returned store limit context path [] d d
  | snoc {names : List Value} {child : Value} {q : String} {value : Value}
      {listed entered left : Dialogue}
      (earlier : Returned store limit context path names listed entered)
      (joined : Path.joinValues [.str path, child] = .ok q)
      (ends : store.Ends context
        (.deleteChildren context q (some (.bool true)) (some limit), entered) (.ok value) left) :
      Returned store limit context path (names ++ [child]) listed left

/-- The last exchange was a listing of the path, which was answered with the names. -/
def Listed (path : String) (names : List Value) (d : Dialogue) : Prop :=
  ∃ before value, d.exchanges = before ++ [⟨.children path, .ok value⟩] ∧
    value.members? = some names

/-- Where the deletion at a path stands, as far as the node itself is concerned. -/
inductive Stands (store : Respondent) (limit : Value) (context outside : Context) (path : String)
    (deleteSelf : Bool) : Clear → Dialogue → Prop
  /-- It is going to list the node. -/
  | listing (attempts : Nat) (pending : List Value) (d : Dialogue) :
      Stands store limit context outside path deleteSelf
        (.listing limit ⟨path, deleteSelf, attempts, context, outside, pending⟩ []) d
  /-- It is with one of the listed children, and has returned from those before. -/
  | within {cleared rest : List Value} {child : Value} {q : String} {attempts : Nat}
      {alone below : Clear} {listed entered d : Dialogue}
      (answered : Listed path (cleared ++ child :: rest) listed)
      (returned : Returned store limit context path cleared listed entered)
      (joined : Path.joinValues [.str path, child] = .ok q) (valid : Path.IsValid q)
      (reaches : store.Reaches context
        (.deleteChildren context q (some (.bool true)) (some limit), entered) (.clear alone, d))
      (running : ∀ outcome last, alone ≠ .done outcome last)
      (nested : Clear.Within limit [⟨path, deleteSelf, attempts, context, outside, rest⟩] alone
        below) :
      Stands store limit context outside path deleteSelf below d
  /-- It has returned from all of them and is going to delete the node. -/
  | deleting {names pending : List Value} {attempts : Nat} {listed d : Dialogue}
      (wanted : deleteSelf = true) (answered : Listed path names listed)
      (returned : Returned store limit context path names listed d) :
      Stands store limit context outside path deleteSelf
        (.deleting limit ⟨path, deleteSelf, attempts, context, outside, pending⟩ []) d
  /-- It is done. -/
  | done (outcome : Answer) (last : Context) (d : Dialogue) :
      Stands store limit context outside path deleteSelf (.done outcome last) d

variable {limit : Value} {context outside : Context} {path : String} {deleteSelf : Bool}
  {names cleared rest : List Value} {listed now : Dialogue}

/-- Once the deletions of some children have returned, it is the turn of the next one, or of the
node itself. -/
theorem stands_proceed (hlisted : Listed path (cleared ++ rest) listed)
    (hreturned : Returned store limit context path cleared listed now) (attempts taken : Nat) :
    Stands store limit context outside path deleteSelf
      (Clear.proceed limit taken context [⟨path, deleteSelf, attempts, context, outside, rest⟩])
      now := by
  rw [Clear.proceed]
  cases rest with
  | nil =>
    cases deleteSelf with
    | true => exact .deleting rfl (List.append_nil cleared ▸ hlisted) hreturned
    | false => exact .done _ _ now
  | cons child rest =>
    dsimp only
    rw [Clear.enterChild]
    cases hjoined : Path.joinValues [.str path, child] with
    | error problem => exact .done _ _ now
    | ok q =>
      cases hq : Path.validate q false with
      | error problem =>
        simp only [Clear.enter, hq]
        exact .done _ _ now
      | ok p =>
        refine .within hlisted hreturned hjoined ⟨(Path.validate_eq_ok_iff.mp hq).1⟩ .refl ?_
          (Clear.Within.enter context _ q true [])
        simp [Clear.start, Clear.enter, hq]

/-- Whatever the store answers, the deletion at a path stands somewhere. -/
theorem Stands.step (h : Stands store limit context outside path deleteSelf state d)
    (hstep : store.Steps ambient (.clear state, d) there) :
    ∃ state', there.1 = .clear state' ∧
      Stands store limit context outside path deleteSelf state' there.2 := by
  cases h with
  | done outcome =>
    obtain ⟨call, resume, hn, -⟩ := hstep.clear
    cases hn
  | listing attempts pending =>
    obtain ⟨call, resume, hn, rfl⟩ := hstep.clear
    cases hn
    refine ⟨_, rfl, ?_⟩
    cases hanswer : store.answer d.exchanges (.children path) with
    | error failure =>
      dsimp only
      split
      · exact .done _ _ _
      · exact .done _ _ _
    | ok value =>
      cases hnames : value.members? with
      | none =>
        simp only [hnames]
        exact .done _ _ _
      | some names =>
        simp only [hnames, Dialogue.reported_nil]
        have hlisted : Listed path ([] ++ names) (d.heard (.children path) (.ok value)) :=
          ⟨d.exchanges, value, rfl, hnames⟩
        exact stands_proceed hlisted (.nil _) attempts 0
  | deleting wanted answered returned =>
    obtain ⟨call, resume, hn, rfl⟩ := hstep.clear
    cases hn
    refine ⟨_, rfl, ?_⟩
    cases store.answer d.exchanges (.delete path anyVersion) with
    | ok value => exact .done _ _ _
    | error failure =>
      dsimp only
      split
      · rw [Clear.retry]
        split
        · exact .done _ _ _
        · exact .done _ _ _
        · exact .listing _ _ _
      · split
        · exact .done _ _ _
        · exact .done _ _ _
  | @within cleared rest child q attempts alone _ listed entered _ answered returned joined valid
      reaches running nested =>
    obtain ⟨outcome, last, rfl⟩ | ⟨call, resume, -, halone, -⟩ := nested.next
    · exact absurd rfl (running outcome last)
    obtain ⟨outcome, hn⟩ | ⟨next, hnext⟩ := exists_steps store context (.clear alone) d
    · rw [Operation.next, halone] at hn
      cases hn
    obtain ⟨alone', below', he, hnested, hbelow⟩ := steps_within nested hnext ambient
    obtain rfl := hbelow.unique hstep
    obtain ⟨operation, later⟩ := next
    obtain rfl : operation = .clear alone' := he
    have hreach := reaches.tail hnext
    refine ⟨below', rfl, ?_⟩
    cases hnested with
    | failed failure last => exact .done _ _ _
    | listing frame inner =>
      exact .within answered returned joined valid hreach (by simp) (.listing frame inner)
    | deleting frame inner =>
      exact .within answered returned joined valid hreach (by simp) (.deleting frame inner)
    | returned value last =>
      obtain ⟨_, _, rfl, -⟩ := Reaches.scoped hreach (Operation.scoped_deleteChildren _ _ _ _)
      rw [List.append_cons] at answered
      exact stands_proceed answered
        (returned.snoc joined (Reaches.ends hreach (ends_of_finished rfl))) attempts 0

/-- What was heard before the deletions of the children stays heard. -/
theorem Returned.exchanges (h : Returned store limit context path names listed now) :
    listed.exchanges <+: now.exchanges := by
  induction h with
  | nil d => exact List.prefix_rfl
  | snoc _ _ ends ih =>
    obtain ⟨there, hreach, -, rfl⟩ := ends.reaches
    exact ih.trans hreach.exchanges_prefix

/-- If no name is blank, a deletion calls for the deletion of its own node in one place only. -/
theorem Stands.of_delete (h : Stands store limit context outside path deleteSelf state d)
    (hp : Path.IsValid path)
    (hnames : ∀ names listed, Listed path names listed → listed.exchanges <+: d.exchanges →
      ∀ name ∈ names, ¬ Path.IsBlank name)
    {version : Int} {resume : Answer → List LogRecord × Clear}
    (hn : state.next = .calling (.delete path version) resume) :
    deleteSelf = true ∧ ∃ names listed, Listed path names listed ∧
      Returned store limit context path names listed d := by
  cases h with
  | done => cases hn
  | listing => cases hn
  | deleting wanted answered returned => exact ⟨wanted, _, _, answered, returned⟩
  | @within cleared rest child q attempts alone _ listed entered _ answered returned joined valid
      reaches running nested =>
    obtain ⟨outcome, last, rfl⟩ | ⟨call, resume, resume', halone, hbelow, -⟩ := nested.next
    · exact absurd rfl (running outcome last)
    rw [hbelow] at hn
    obtain rfl : call = .delete path version := by injection hn
    have hstart :
        (Clear.start limit context (Clear.childContext limit context q) q true).Confined q :=
      Clear.confined_enter (fun _ => valid.isAbove) (by simp)
    obtain ⟨_, made, he, hconfined, -⟩ := Reaches.goesDown reaches hstart
    obtain rfl := Operation.clear.inj he
    obtain ⟨r, hcall, -, habove⟩ := (hconfined.goesDown halone).1
    obtain ⟨rfl, -⟩ := Call.delete.inj (hcall.resolve_left (by simp))
    have hq : q = path := habove.antisymm (Path.isAbove_of_joinValues hp joined valid)
    have hblank := hnames _ listed answered (returned.exchanges.trans reaches.exchanges_prefix)
      child (by simp)
    exact absurd hq (Path.ne_of_joinValues hp hblank joined valid)

theorem Reaches.stands (h : store.Reaches ambient (.clear state, d) there)
    (hstate : Stands store limit context outside path deleteSelf state d) :
    ∃ state', there.1 = .clear state' ∧
      Stands store limit context outside path deleteSelf state' there.2 := by
  induction h with
  | refl => exact ⟨state, rfl, hstate⟩
  | @tail mid _ _ hstep ih =>
    obtain ⟨operation, later⟩ := mid
    obtain ⟨state', rfl, hstands⟩ := ih
    exact hstands.step hstep

/-- No level changes the limit. -/
theorem Stands.limit_eq {limit' : Value} {frame : Clear.Frame} {outer : List Clear.Frame}
    (h : Stands store limit context outside path deleteSelf (.listing limit' frame outer) d) :
    limit' = limit := by
  cases h with
  | listing => rfl
  | within _ _ _ _ _ running nested =>
    generalize hbelow : Clear.listing limit' frame outer = below at nested
    cases nested with
    | listing =>
      cases hbelow
      rfl
    | deleting => cases hbelow
    | returned value last => exact absurd rfl (running (.ok value) last)
    | failed => cases hbelow

/-- At a valid path, a deletion begins with a listing. -/
theorem deleteChildren_eq_listing (hp : Path.IsValid path) (ambient : Context)
    (deleteSelf limit : Option Value) :
    let start := Operation.deleteChildren ambient path deleteSelf limit
    start = .clear (.listing (limit.getD .null)
      ⟨path, (deleteSelf.getD (.bool false)).truthy, 1, start.context ambient, ambient, []⟩
      []) := by
  simp only [Operation.deleteChildren, Clear.start_of_validate hp.validate]
  rfl

/-- Whatever names a store lists, recursive deletion lists and deletes valid paths at or below its
own only, and it deletes them at any version. As long as no name that was listed for its own node is
blank, it deletes that node only if it is asked to, and only after a listing of the node, when the
deletions of all the children in that listing have returned. -/
theorem deletion_goes_down (store : Respondent) (ambient : Context) {path : String}
    (hp : Path.IsValid path) (deleteSelf limit : Option Value) (known : Option CreateMode)
    {there : Operation × Dialogue} :
    let start := Operation.deleteChildren ambient path deleteSelf limit
    store.Reaches ambient (start, { known }) there →
    (∀ exchange ∈ there.2.exchanges, Clear.GoesDown path exchange.call) ∧
    ∀ before after version answer,
      there.2.exchanges = before ++ ⟨.delete path version, answer⟩ :: after →
      (∀ value names, ⟨.children path, .ok value⟩ ∈ before → value.members? = some names →
        ∀ name ∈ names, ¬ Path.IsBlank name) →
      (deleteSelf.getD (.bool false)).truthy = true ∧
        ∃ names listed now, Listed path names listed ∧ Returned store (limit.getD .null)
          (start.context ambient) path names listed now ∧ now.exchanges = before := by
  intro start hreach
  have hstart : start = .clear (.listing _ ⟨path, _, 1, start.context ambient, ambient, []⟩ []) :=
    deleteChildren_eq_listing hp ambient deleteSelf limit
  generalize start.context ambient = context at hstart ⊢
  rw [hstart] at hreach
  constructor
  · obtain ⟨_, made, -, -, hmade, hdown⟩ :=
      hreach.goesDown ⟨⟨hp, hp.isAbove⟩, by simp⟩
    intro exchange hmem
    rw [hmade, List.nil_append] at hmem
    exact hdown exchange hmem
  · intro before after version answer he hnames
    obtain ⟨state, now, resume, hnow, rfl, hn⟩ := hreach.exists_calling he (List.nil_prefix)
    obtain ⟨_, hstate, hstands⟩ := hnow.stands (.listing 1 [] _)
    obtain rfl := Operation.clear.inj hstate
    have hheard : ∀ names listed, Listed path names listed → listed.exchanges <+: now.exchanges →
        ∀ name ∈ names, ¬ Path.IsBlank name := by
      rintro names listed ⟨first, value, hlisted, hmembers⟩ hsub
      exact hnames value names (hsub.subset (by simp [hlisted])) hmembers
    obtain ⟨hself, names, listed, hlisted, hreturned⟩ := hstands.of_delete hp hheard hn
    exact ⟨hself, names, listed, now, hlisted, hreturned, rfl⟩

/-- A listed name with separators in it leads further down, and is cleared like any other. -/
theorem deletion_goes_down_two_levels :
    let store : Respondent :=
      { className := "Store"
        answer _ call := match call with
          | .children path => .ok (.list (if path = "/a" then [.str "b/c/"] else []))
          | _ => .ok .null }
    let start := Operation.deleteChildren [] "/a" (some (.bool true)) none
    ∃ there, store.Reaches [] (start, {}) there ∧
      there.2.exchanges.map Exchange.call = [.children "/a", .children "/a/b/c",
        .delete "/a/b/c" anyVersion, .delete "/a" anyVersion] ∧
      (∀ exchange ∈ there.2.exchanges, Clear.GoesDown "/a" exchange.call) ∧
      ∃ names listed now, Listed "/a" names listed ∧
        Returned store .null (start.context []) "/a" names listed now ∧
        now.exchanges ++ [⟨.delete "/a" anyVersion, .ok .null⟩] = there.2.exchanges := by
  intro store start
  obtain ⟨operation, hreach, -⟩ := reaches_run store [] 4 (start, {})
  have hexchanges : ((store.client.run [] 4 start).run {}).2.exchanges =
      [⟨.children "/a", .ok (.list [.str "b/c/"])⟩,
        ⟨.children "/a/b/c", .ok (.list [])⟩,
        ⟨.delete "/a/b/c" anyVersion, .ok .null⟩] ++
          ⟨.delete "/a" anyVersion, .ok .null⟩ :: [] := by
    cbv
  obtain ⟨hdown, hlast⟩ :=
    deletion_goes_down store [] (by decide) (some (.bool true)) none none hreach
  have hnames : ∀ value names, (⟨.children "/a", .ok value⟩ : Exchange) ∈
      [⟨.children "/a", .ok (.list [.str "b/c/"])⟩,
        ⟨.children "/a/b/c", .ok (.list [])⟩,
        ⟨.delete "/a/b/c" anyVersion, .ok .null⟩] → value.members? = some names →
      ∀ name ∈ names, ¬ Path.IsBlank name := by
    intro value names hmem hmembers name hname
    obtain rfl : value = .list [.str "b/c/"] := by simpa using hmem
    obtain rfl := Option.some.inj hmembers
    obtain rfl := List.mem_singleton.mp hname
    exact fun hblank => absurd (hblank 'b' (by decide)) (by decide)
  obtain ⟨-, names, listed, now, hlisted, hreturned, hnow⟩ := hlast _ _ _ _ hexchanges hnames
  exact ⟨_, hreach, by rw [hexchanges]; rfl, hdown, names, listed, now, hlisted, hreturned,
    by rw [hnow, hexchanges]⟩

end Respondent

end TreeStore
