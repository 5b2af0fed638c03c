import TreeStore.Proofs.Operation.Course
import TreeStore.Proofs.Path.Normalizing
import TreeStore.Proofs.Store.Requests
import Mathlib

/-!
# The way up from a path

A path is cut at its last separator into its parent and its leaf. Taking it apart and joining it
again, entering a node among the children of another one and asking for the nodes along a path all
go by the same cut, so that the parents of a path, one above the other, are the nodes that a
recursive creation asks about.
-/

namespace TreeStore

namespace Path

variable {p q s : String}

/-- The parent and the leaf of a path as the texts around its last separator, where an empty text in
front of it stands for the root. -/
structure CutAt (p : String) (position : Nat) (above name : String) : Prop where
  /-- There is a separator at the position. -/
  here : p.toList[position]? = some separator
  /-- There is none behind it. -/
  last : ∀ i, position < i → p.toList[i]? ≠ some separator
  /-- The parent is what stands in front of it. -/
  above : above = if position = 0 then root else String.ofList (p.toList.take position)
  /-- The leaf is what stands behind it. -/
  name : name = String.ofList (p.toList.drop (position + 1))

theorem IsValid.exists_cutAt (hp : IsValid p) :
    ∃ position, CutAt p position (Path.parent p) (Path.leaf p) := by
  obtain ⟨front, name, he, hname⟩ := exists_last_separator (separator_mem_of_fault hp.fault)
  have hbehind : p.toList.drop (front.length + 1) = name := by simp [he]
  refine ⟨front.length, by simp [he], fun i hi h => ?_, ?_, ?_⟩
  · obtain ⟨n, rfl⟩ := Nat.exists_eq_add_of_lt hi
    have hn : name[n]? = some separator := by
      rw [← hbehind, List.getElem?_drop, ← h]
      congr 1
      omega
    exact hname (List.mem_of_getElem? hn)
  · rw [Path.parent, he, parentChars_append front hname]
    cases front with
    | nil => rfl
    | cons c front => simp
  · rw [Path.leaf, hbehind, he, leafChars_append front hname]

theorem parent_iterate_join (hq : IsValid q) (hs : IsName s) (steps : Nat) :
    Path.parent^[steps + 1] (join [q, s]) = Path.parent^[steps] q := by
  rw [Function.iterate_succ_apply, parent_join hq hs]

/-- A path with so many segments is so many steps below the root, which no step leaves. -/
theorem IsValid.parent_iterate_eq_root_iff (hp : IsValid p) {steps : Nat} :
    Path.parent^[steps] p = root ↔ (Path.segments p).length ≤ steps := by
  induction hp using IsValid.induction generalizing steps with
  | atRoot =>
    rw [Function.iterate_fixed parent_root, segments_root]
    simp
  | atChild q s hq hs ih =>
    rw [segments_join hq hs, List.length_append, List.length_singleton]
    cases steps with
    | zero => simp [join_ne_root hq hs]
    | succ steps => rw [parent_iterate_join hq hs, ih, Nat.add_le_add_iff_right]

/-- The beginnings of a path, upwards, are the path and its parents below the root. -/
theorem IsValid.reverse_prefixes (hp : IsValid p) (hne : p ≠ root) :
    (prefixes p).reverse = List.iterate Path.parent p (Path.segments p).length := by
  induction hp using IsValid.induction with
  | atRoot => exact absurd rfl hne
  | atChild q s hq hs ih =>
    have hupper : (if q = root then [] else prefixes q).reverse =
        List.iterate Path.parent q (Path.segments q).length := by
      split
      · rename_i hroot
        rw [hroot, segments_root]
        rfl
      · rename_i hroot
        exact ih hroot
    rw [prefixes_join hq hs, List.reverse_append, hupper, segments_join hq hs, List.length_append,
      List.length_singleton, List.iterate, parent_join hq hs, List.reverse_singleton,
      List.singleton_append]

end Path

namespace Memory

variable {p above name : String}

/-- What creations at a path append to it: nothing, or in a sequential mode the counter of the
parent. -/
def suffix (mode : CreateMode) (parent : Node) : String :=
  if mode.isSequential then String.ofList (Digits.padded counterWidth parent.sequence) else ""

theorem chosenPath_eq_append (p : String) (mode : CreateMode) (parent : Node) :
    chosenPath p mode parent = p ++ suffix mode parent := by
  unfold chosenPath suffix
  split
  · rfl
  · rw [String.append_empty]

theorem leaf_append_suffix (hp : Path.IsValid p) (mode : CreateMode) (parent : Node) :
    Path.leaf (p ++ suffix mode parent) = Path.leaf p ++ suffix mode parent := by
  unfold suffix
  split
  · exact Path.leaf_append_counter hp.fault (Digits.isCounter_padded _ _)
  · rw [String.append_empty, String.append_empty]

/-- Creations at a path look for the parent there, and enter the node under that name. -/
structure EntersAt (p above name : String) : Prop where
  /-- Without the parent they fail over it. -/
  orphan : ∀ (m : Memory) (data : List UInt8) (acl : List Acl) (mode : CreateMode),
    m.closed = false → (mode.isContainer = true → m.containers = true) → m.find? above = none →
      m.create p data acl mode = (m, .error (.ofStore .noNode above))
  /-- Else the parent gets a child with the name, behind which the counter may stand. -/
  child : ∀ (m : Memory) (data : List UInt8) (acl : List Acl) (mode : CreateMode) (parent : Node),
    m.closed = false → (mode.isContainer = true → m.containers = true) →
      m.find? above = some parent → m.has (p ++ suffix mode parent) = false →
      ∃ m', m.create p data acl mode = (m', .ok (p ++ suffix mode parent)) ∧
        m'.find? (p ++ suffix mode parent) = some { data, acl, mode } ∧
        m'.find? above = some ((if mode.isSequential then parent.counted else parent).adopt
          (name ++ suffix mode parent))

/-- The parent and the leaf of a path are those that creations at the path go by. -/
theorem entersAt (hp : Path.IsValid p) : EntersAt p (Path.parent p) (Path.leaf p) := by
  have hfault : ∀ mode : CreateMode, Path.fault p mode.isSequential = none := by
    intro mode
    cases mode.isSequential with
    | false => exact hp.fault
    | true => exact hp.request
  refine ⟨fun m data acl mode ho hcontainer hparent => ?_,
    fun m data acl mode parent ho hcontainer hparent hfree => ?_⟩
  · have hvalid : Path.validate p mode.isSequential = .ok p :=
      Path.validate_eq_ok_iff.mpr ⟨hfault mode, rfl⟩
    have hc : (mode.isContainer && !m.containers) = false := by
      cases hm : mode.isContainer with
      | false => rfl
      | true => simp [hcontainer hm]
    simp [create, hvalid, hc, ho, hparent]
  · have ha : m.Accepts p mode parent := ⟨hfault mode, hcontainer, ho, hparent⟩
    rw [← chosenPath_eq_append] at hfree ⊢
    obtain ⟨hvalid, hne, habove⟩ := ha.chosenPath hfree
    have hother : Path.parent p ≠ chosenPath p mode parent := by
      rw [← habove]
      exact Path.parent_ne_self hvalid hne
    have hcounted : (m.counting p mode).has (chosenPath p mode parent) = false := by
      rwa [has_counting]
    refine ⟨(m.counting p mode).attach (Path.parent p) (chosenPath p mode parent)
      { data, acl, mode }, ?_, ?_, ?_⟩
    · rw [create_of_accepts ha, place, hcounted]
      rfl
    · rw [find?_attach hcounted hother, if_pos rfl]
    · rw [find?_attach hcounted hother, if_neg hother, if_pos rfl, chosenPath_eq_append,
        leaf_append_suffix hp, counting]
      split
      · rw [find?_modify, if_pos rfl, hparent]
        rfl
      · rw [hparent]
        rfl

end Memory

namespace Respondent

open Concurrency Creation

variable {store : Respondent} {ambient : Context} {c : Creation} {known : Option CreateMode}
  {outcome : Answer} {d : Dialogue}

/-- Nothing that was asked about is there. -/
def NoneExists (d : Dialogue) : Prop :=
  ∀ q answer, ⟨.probe q, answer⟩ ∈ d.exchanges → ∃ value, answer = .ok value ∧ value.truthy = false

/-- If nothing is there, all questions of the course are about missing nodes. -/
theorem questions_of_noneExists {existing missing : List String} {earlier : List Exchange}
    (hnone : NoneExists d) (htold : Told existing earlier)
    (hearlier : ∀ q answer, ⟨.probe q, answer⟩ ∈ d.exchanges → ⟨.probe q, answer⟩ ∈ earlier)
    (hasked : questions existing missing <+: d.calls) : existing = [] := by
  rcases List.eq_nil_or_concat existing with he | ⟨init, last, rfl⟩
  · exact he
  · have hmem : Call.probe last ∈ d.calls := hasked.subset (by simp [questions])
    obtain ⟨⟨call, answer⟩, hexchange, rfl⟩ := List.mem_map.mp hmem
    obtain ⟨value, rfl, hfalse⟩ := hnone last answer hexchange
    obtain ⟨_, hvalue, htrue⟩ := htold last _ (hearlier last _ hexchange)
    cases hvalue
    rw [htrue.mpr (by simp)] at hfalse
    cases hfalse

/-- Behind the questions of a course there are no others. -/
theorem ne_probe_of_course {mode : CreateMode} {missing : List String} {call : Call}
    (h : call ∈ c.inquiry known ++ (c.wantedOf missing).map (c.creation mode)) (q : String) :
    call ≠ .probe q := by
  rcases List.mem_append.mp h with hinquiry | hcreation
  · unfold inquiry at hinquiry
    split at hinquiry
    · rw [List.mem_singleton.mp hinquiry]
      exact fun h => nomatch h
    · cases hinquiry
  · obtain ⟨path, -, rfl⟩ := List.mem_map.mp hcreation
    exact creation_ne_probe c mode path q

/-- If nothing is there, the questions of a recursive creation are about the nodes along its path,
upwards, and come before all other calls. -/
theorem calls_of_noneExists (hc : Path.IsValid c.path)
    (hends : store.Ends ambient (c.operation, { known }) outcome d) (hnone : NoneExists d) :
    ∃ rest, d.calls = (Path.prefixes c.path).reverse.map .probe ++ rest ∧
      ∀ call ∈ rest, ∀ q, call ≠ .probe q := by
  suffices hcourse : ∃ existing missing mode earlier,
      Path.prefixes c.path = existing ++ missing ∧ Told existing earlier ∧
      (∀ q answer, ⟨.probe q, answer⟩ ∈ d.exchanges → ⟨.probe q, answer⟩ ∈ earlier) ∧
      questions existing missing <+: d.calls ∧
      d.calls <+: c.course known mode existing missing by
    obtain ⟨existing, missing, mode, earlier, hp, htold, hearlier, hasked, hcalls⟩ := hcourse
    obtain rfl := questions_of_noneExists hnone htold hearlier hasked
    obtain ⟨rest, hrest⟩ := hasked
    rw [List.nil_append] at hp
    refine ⟨rest, ?_, fun call hcall => ?_⟩
    · rw [← hrest, hp, questions]
      simp
    · rw [← hrest, course, List.append_assoc, List.prefix_append_right_inj] at hcalls
      exact ne_probe_of_course (hcalls.subset hcall)
  obtain ⟨⟨_, d'⟩, hreach, hfinished, hd⟩ := hends.reaches
  obtain ⟨state, hstate, hcourse⟩ := onCourse_reaches hc hreach rfl (onCourse_start hc known)
  dsimp only at hstate hd
  subst hstate hd
  cases hcourse with
  | probing | choosing | creating => cases hfinished
  | @succeeded mode existing missing _ along calls told =>
    refine ⟨existing, missing, mode, _, along, told, fun _ _ h => h, ?_, by rw [calls]⟩
    rw [calls, course, List.append_assoc]
    exact List.prefix_append _ _
  | @failed mode existing missing _ earlier call failure _ along last calls told =>
    dsimp only at last calls
    have hcall : ∀ q, call ≠ .probe q := by
      rintro q rfl
      obtain ⟨value, hvalue, -⟩ := hnone q (.error failure) (by simp [last])
      cases hvalue
    refine ⟨existing, missing, mode, earlier, along, told, fun q answer h => ?_, ?_, calls⟩
    · rw [last, List.mem_append, List.mem_singleton] at h
      rcases h with h | h
      · exact h
      · exact absurd (Exchange.mk.inj h).1.symm (hcall q)
    · have hquestions : questions existing missing <+: c.course known mode existing missing := by
        rw [course, List.append_assoc]
        exact List.prefix_append _ _
      rcases List.prefix_or_prefix_of_prefix hquestions calls with h | h
      · exact h
      · have hmem : call ∈ questions existing missing :=
          h.subset (by simp [Dialogue.calls, last])
        obtain ⟨q, hq⟩ : ∃ q, Call.probe q = call := by
          rcases List.mem_append.mp hmem with hm | hm
          · exact (List.mem_map.mp hm).imp fun q hq => hq.2
          · exact (List.mem_map.mp hm).imp fun q hq => hq.2
        exact absurd hq.symm (hcall q)

/-- A valid path other than the root is cut at its last separator into a parent, which is a valid
path, and a leaf. This is what it falls into by its segments, of which the leaf is the last one and
the others are those of the parent, and what it is joined from; and it is what creations at the path
go by. Going to the parent again and again leads to the root, which is its own parent, in as many
steps as there are segments, and on the way to the nodes that a recursive creation asks about as
long as none of them is there, in the same order and before it calls for anything else. -/
theorem parents_agree {p : String} (hp : Path.validate p false = .ok p) (hne : p ≠ Path.root) :
    ∃ above name names position,
      Path.parentAndNode (.str p) = .ok (above, name) ∧
      Path.node (.str p) = .ok name ∧
      Path.validate above false = .ok above ∧
      Path.split (.str p) = .ok (names ++ [name]) ∧
      Path.split (.str above) = .ok names ∧
      Path.joinValues [.str above, .str name] = .ok p ∧
      Path.CutAt p position above name ∧ Memory.EntersAt p above name ∧
      (∀ steps, Path.parent^[steps] p = Path.root ↔ names.length + 1 ≤ steps) ∧
      ∀ (store : Respondent) (ambient : Context) (c : Creation) (known : Option CreateMode),
        c.path = p →
        (∃ outcome d, store.Ends ambient (c.operation, { known }) outcome d) ∧
        ∀ outcome d, store.Ends ambient (c.operation, { known }) outcome d → NoneExists d →
          ∃ rest, d.calls =
              (List.iterate Path.parent p (names.length + 1)).map .probe ++ rest ∧
            ∀ call ∈ rest, ∀ q, call ≠ .probe q := by
  have hvalid : Path.IsValid p := Path.validate_eq_self_iff.mp hp
  have hleaf := hvalid.leaf hne
  have hsegments := Path.segments_eq_parent_leaf hvalid hne
  have hcount : (Path.segments p).length = (Path.segments (Path.parent p)).length + 1 := by
    rw [hsegments, List.length_append, List.length_singleton]
  obtain ⟨position, hcut⟩ := hvalid.exists_cutAt
  refine ⟨Path.parent p, Path.leaf p, Path.segments (Path.parent p), position,
    Path.parentAndNode_of_validate hp, Path.node_of_validate hp, hvalid.parent.validate, ?_,
    Path.split_of_validate hvalid.parent.validate, ?_, hcut, Memory.entersAt hvalid,
    fun steps => ?_, ?_⟩
  · rw [Path.split_of_validate hp, hsegments]
  · rw [Path.joinValues_str hvalid.parent hleaf, Path.join_parent_leaf hvalid hne]
  · rw [hvalid.parent_iterate_eq_root_iff, hcount]
  · rintro store ambient c known rfl
    refine ⟨exists_ends store ambient _ _, fun outcome d hends hnone => ?_⟩
    rw [← hcount, ← hvalid.reverse_prefixes hne]
    exact calls_of_noneExists hvalid hends hnone

/-- Whether an exchange is a question that was answered with no, or no question at all. -/
def saysNo (e : Exchange) : Bool :=
  match e.call, e.answer with
  | .probe _, .ok value => !value.truthy
  | .probe _, .error _ => false
  | _, _ => true

theorem noneExists_of_all {d : Dialogue} (h : d.exchanges.all saysNo = true) : NoneExists d := by
  intro q answer hmem
  have hno := List.all_eq_true.mp h _ hmem
  cases answer with
  | ok value => exact ⟨value, rfl, by simpa [saysNo] using hno⟩
  | error failure => cases hno

/-- A store in which no node is there, and which takes every other call. -/
def vacant : Respondent :=
  { className := "Store"
    answer _ call := match call with
      | .probe _ => .ok (.bool false)
      | call => .ok (.str call.path) }

/-- A path of three levels, and a store that has none of the nodes along it. -/
theorem parents_agree_three :
    let c : Creation := ⟨[], "/one/two/three", none, none, none⟩
    Path.validate "/one/two/three" false = .ok "/one/two/three" ∧
    "/one/two/three" ≠ Path.root ∧
    (∃ position, Path.CutAt "/one/two/three" position "/one/two" "three") ∧
    Memory.EntersAt "/one/two/three" "/one/two" "three" ∧
    (∀ steps, Path.parent^[steps] "/one/two/three" = Path.root ↔ 3 ≤ steps) ∧
    ∃ outcome d, vacant.Ends [] (c.operation, {}) outcome d ∧ NoneExists d ∧
      ∃ rest, d.calls =
        [.probe "/one/two/three", .probe "/one/two", .probe "/one"] ++ rest := by
  intro c
  have hp : Path.validate "/one/two/three" false = .ok "/one/two/three" :=
    Path.validate_eq_self_iff.mpr (by decide)
  have hne : "/one/two/three" ≠ Path.root := by decide
  obtain ⟨above, name, names, position, hparts, -, -, hsegments, -, -, hcut, henters, hsteps,
    hprobes⟩ := parents_agree hp hne
  have hparts' : (above, name) = ("/one/two", "three") := by
    rw [Path.parentAndNode_of_validate hp] at hparts
    exact (Except.ok.inj hparts).symm.trans (by decide +kernel)
  obtain ⟨rfl, rfl⟩ := Prod.mk.inj hparts'
  have hnames : names = ["one", "two"] := by
    rw [Path.split_of_validate hp] at hsegments
    exact (List.append_inj_left' ((Except.ok.inj hsegments).symm.trans
      (by decide +kernel : _ = ["one", "two"] ++ ["three"])) rfl)
  subst hnames
  have hends := (ends_of_run 8 (Prod.ext (by cbv) rfl) :
    vacant.Ends [] (c.operation, {}) (.ok .null) _)
  have hnone : NoneExists ((vacant.client.run [] 8 c.operation).run {}).2 :=
    noneExists_of_all (by cbv)
  obtain ⟨rest, hcalls, -⟩ := (hprobes vacant [] c none rfl).2 _ _ hends hnone
  have hup : List.iterate Path.parent "/one/two/three" 3 =
      ["/one/two/three", "/one/two", "/one"] := by decide +kernel
  refine ⟨hp, hne, ⟨position, hcut⟩, henters, hsteps, _, _, hends, hnone, rest, ?_⟩
  rw [hcalls]
  exact congrArg (fun up => List.map Call.probe up ++ rest) hup

end Respondent

end TreeStore
