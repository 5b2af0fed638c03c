import TreeStore.Proofs.Concurrency.Alone
import TreeStore.Proofs.Store.Root
import Mathlib.Data.List.Infix

/-!
# Sequential names

Each node keeps the counter for its sequential children, and no request ever turns it back: not even
one that fails after the counter has moved on, nor a deletion of the children. So as long as the
node stays and the counter fits into its digits, the names that are given out below the node end in
ever larger numbers, and a sorted listing has those of them that were asked for alike in the order
of their creation.
-/

namespace TreeStore.Memory

/-- A sequential creation that succeeded. -/
structure Numbering where
  /-- The path that was asked for. -/
  requested : String
  /-- The path that was given out. -/
  given : String
  deriving DecidableEq, Repr

/-- The number at the end of the path that was given out. -/
def Numbering.value (x : Numbering) : Nat :=
  Digits.ofDecimal (Path.sequentialSuffix x.given).toList

/-- What a request gives out, if it is a sequential creation below a node. -/
def numbering? (m : Memory) (above : String) (request : Request) : Option Numbering :=
  match request, (m.handle request).2 with
  | .call (.create path _ _ mode), .ok (.str given) =>
    if mode.isSequential ∧ Path.parent path = above then some ⟨path, given⟩ else none
  | _, _ => none

/-- What requests carried out one after the other give out below a node, the earliest first. -/
def numberings (m : Memory) (above : String) : List Request → List Numbering
  | [] => []
  | request :: rest =>
    (m.numbering? above request).toList ++ (m.after request).numberings above rest

variable {m : Memory} {p q above : String}

/-- Unlinking a node changes no counter. -/
theorem sequence_unlink {n n' : Node} (hn : m.find? q = some n)
    (hn' : (m.unlink p).1.find? q = some n') : n'.sequence = n.sequence := by
  rw [find?_unlink, hn] at hn'
  split at hn'
  · cases hn'
  · split at hn'
    · obtain rfl := Option.some.inj hn'
      rfl
    · obtain rfl := Option.some.inj hn'
      rfl

/-- A sweep moves no counter. -/
theorem sequence_sweep {paths : List String} {n n' : Node} (hn : m.find? q = some n)
    (hn' : (m.sweep paths).1.find? q = some n') : n'.sequence = n.sequence := by
  induction paths generalizing m n with
  | nil =>
    obtain rfl := Option.some.inj (hn.symm.trans hn')
    rfl
  | cons path rest ih =>
    rw [sweep] at hn'
    split at hn'
    · split at hn'
      · obtain ⟨n₀, hn₀, -⟩ := agrees_sweep hn'
        exact (ih hn₀ hn').trans (sequence_unlink hn hn₀)
      · exact ih hn hn'
    · exact ih hn hn'

/-- Changing a node in place in a way that leaves counters alone. -/
theorem sequence_modify {f : Node → Node} (hf : ∀ n, (f n).sequence = n.sequence) {n n' : Node}
    (hn : m.find? q = some n) (hn' : (m.modify p f).find? q = some n') :
    n'.sequence = n.sequence := by
  rw [find?_modify, hn] at hn'
  split at hn' <;> obtain rfl := Option.some.inj hn'
  · exact hf n
  · rfl

/-- A node that is attached moves no counter. -/
theorem sequence_attach {node n n' : Node} (hfree : m.has p = false) (hne : above ≠ p)
    (hn : m.find? q = some n) (hn' : (m.attach above p node).find? q = some n') :
    n'.sequence = n.sequence := by
  obtain ⟨children, hadChildren, hkept⟩ := find?_attach_of_find? hfree hne node hn
  obtain rfl := Option.some.inj (hkept.symm.trans hn')
  rfl

/-- The counter moves on if a sequential child is asked for. -/
theorem sequence_counting {path : String} {mode : CreateMode} {n n' : Node}
    (hn : m.find? q = some n) (hn' : (m.counting path mode).find? q = some n') :
    n'.sequence =
      if mode.isSequential ∧ Path.parent path = q then n.sequence + 1 else n.sequence := by
  rw [counting] at hn'
  split at hn'
  · rename_i hmode
    rw [find?_modify, hn] at hn'
    split at hn' <;> obtain rfl := Option.some.inj hn'
    · rename_i hq
      rw [if_pos ⟨hmode, hq.symm⟩]
      rfl
    · rename_i hq
      rw [if_neg fun h => hq h.2.symm]
  · rename_i hmode
    obtain rfl := Option.some.inj (hn.symm.trans hn')
    rw [if_neg fun h => hmode h.1]

/-- What is known about a path that was given out when the counter of the node stood at a number. -/
structure Numbering.Counts (above : String) (x : Numbering) (n : Nat) : Prop where
  /-- The request has no fault. -/
  fault : Path.fault x.requested true = none
  /-- It is for a child of the node. -/
  parent : Path.parent x.requested = above
  /-- The counter stands behind it. -/
  given : x.given = numbered x.requested n

private theorem numbering?_create (path : String) (data : List UInt8) (acl : List Acl)
    (mode : CreateMode) :
    m.numbering? above (.call (.create path data acl mode)) =
      match (m.create path data acl mode).2 with
      | .ok given =>
        if mode.isSequential ∧ Path.parent path = above then some ⟨path, given⟩ else none
      | .error _ => none := by
  have hanswer : (m.handle (.call (.create path data acl mode))).2 =
      Answer.of .str (m.create path data acl mode).2 := rfl
  simp only [numbering?, hanswer]
  cases (m.create path data acl mode).2 <;> rfl

/-- A creation that counts takes the parent's counter and moves it on. -/
private theorem sequence_create {path : String} {data : List UInt8} {acl : List Acl}
    {mode : CreateMode} {n n' : Node} (hn : m.find? above = some n)
    (hn' : (m.create path data acl mode).1.find? above = some n') :
    n.sequence ≤ n'.sequence ∧
      ∀ x, m.numbering? above (.call (.create path data acl mode)) = some x →
        x.Counts above n.sequence ∧ n.sequence < n'.sequence := by
  have hcounted : ∀ n₁, (m.counting path mode).find? above = some n₁ →
      n.sequence ≤ n₁.sequence ∧
        (mode.isSequential ∧ Path.parent path = above → n.sequence < n₁.sequence) := by
    intro n₁ hn₁
    rw [sequence_counting hn hn₁]
    split
    · exact ⟨Nat.le_succ _, fun _ => Nat.lt_succ_self _⟩
    · rename_i h
      exact ⟨Nat.le_refl _, fun h' => absurd h' h⟩
  rw [numbering?_create]
  obtain ⟨problem, -, he⟩ | ⟨parent, ha, ⟨-, he⟩ | ⟨hfree, he⟩⟩ := create_cases m path data acl mode
  · rw [he] at hn' ⊢
    obtain rfl := Option.some.inj (hn.symm.trans hn')
    exact ⟨Nat.le_refl _, fun x hx => by cases hx⟩
  · rw [he] at hn' ⊢
    exact ⟨(hcounted n' hn').1, fun x hx => by cases hx⟩
  · obtain ⟨hvalid, hroot, hparent⟩ := ha.chosenPath hfree
    have hne := Path.parent_ne_self hvalid hroot
    rw [hparent] at hne
    rw [he] at hn' ⊢
    obtain ⟨n₁, hn₁⟩ : ∃ n₁, (m.counting path mode).find? above = some n₁ := by
      rw [← has_iff, has_counting]
      exact has_of_find? hn
    obtain ⟨hle, hlt⟩ := hcounted n₁ hn₁
    rw [sequence_attach (by rw [has_counting, hfree]) hne hn₁ hn']
    refine ⟨hle, fun x hx => ?_⟩
    dsimp only at hx
    split at hx
    · rename_i h
      obtain rfl := Option.some.inj hx
      obtain ⟨hmode, habove⟩ := h
      have hfault := ha.fault
      have hfound := ha.parent
      rw [hmode] at hfault
      rw [habove, hn] at hfound
      obtain rfl := Option.some.inj hfound
      exact ⟨⟨hfault, habove, by simp only [chosenPath, if_pos hmode]⟩, hlt ⟨hmode, habove⟩⟩
    · cases hx

/-- A request does not turn the counter of a node back, and if it gives out the counter, then this
moves on. -/
theorem sequence_after {request : Request} {n n' : Node} (hn : m.find? above = some n)
    (hn' : (m.after request).find? above = some n') :
    n.sequence ≤ n'.sequence ∧ ∀ x, m.numbering? above request = some x →
      x.Counts above n.sequence ∧ n.sequence < n'.sequence := by
  have hsame : n'.sequence = n.sequence → m.numbering? above request = none →
      n.sequence ≤ n'.sequence ∧ ∀ x, m.numbering? above request = some x →
        x.Counts above n.sequence ∧ n.sequence < n'.sequence := by
    intro he hnone
    refine ⟨he.ge, fun x hx => ?_⟩
    rw [hnone] at hx
    cases hx
  have hstill : m.after request = m → n'.sequence = n.sequence := by
    intro he
    rw [he, hn] at hn'
    rw [Option.some.inj hn']
  cases request with
  | call call =>
    cases call with
    | probe path => exact hsame (hstill rfl) rfl
    | children path => exact hsame (hstill rfl) rfl
    | capability => exact hsame (hstill rfl) rfl
    | delete path version =>
      refine hsame ?_ rfl
      rw [after_delete] at hn' hstill
      obtain ⟨problem, -, he⟩ | ⟨node, -, -, -, -, -, he⟩ := delete_cases m path version
      · exact hstill (by rw [he])
      · rw [he] at hn'
        exact sequence_unlink hn hn'
    | create path data acl mode =>
      rw [after_create] at hn'
      exact sequence_create hn hn'
  | setData path data version =>
    refine hsame ?_ rfl
    rw [after_setData] at hn' hstill
    obtain ⟨problem, -, he⟩ | ⟨node, -, -, -, he⟩ := setData_cases m path data version
    · exact hstill (by rw [he])
    · rw [he] at hn'
      exact sequence_modify (f := Node.written data) (fun _ => rfl) hn hn'
  | reap =>
    refine hsame ?_ rfl
    rw [after_reap] at hn'
    split at hn'
    · rw [Option.some.inj (hn.symm.trans hn')]
    · exact sequence_sweep hn hn'
  | close => exact hsame (by rw [Option.some.inj (hn.symm.trans hn')]) rfl

namespace Numbering

variable {x y : Numbering} {n k : Nat}

/-- The digits at the end of a path that was given are the counter. -/
theorem Counts.sequentialSuffix (h : x.Counts above n) (hn : n < Nat.pow 10 counterWidth) :
    Path.sequentialSuffix x.given = String.ofList (Digits.padded counterWidth n) := by
  have hlength : (Digits.padded counterWidth n).length = 10 := Digits.length_padded hn (by decide)
  rw [Path.sequentialSuffix, Path.suffixChars, h.given, numbered, String.toList_append,
    String.toList_ofList, List.length_append, hlength, Nat.add_sub_cancel, List.drop_left]

/-- The value of the digits that were given is the counter. -/
theorem Counts.value_eq (h : x.Counts above n) (hn : n < Nat.pow 10 counterWidth) :
    x.value = n := by
  rw [value, h.sequentialSuffix hn, String.toList_ofList, Digits.ofDecimal_padded]

/-- The leaf that was given is the one that was asked for, and the digits. -/
theorem Counts.leaf_eq (h : x.Counts above n) : Path.leaf x.given =
    Path.leaf x.requested ++ String.ofList (Digits.padded counterWidth n) := by
  rw [h.given, numbered, Path.leaf_append_counter h.fault (Digits.isCounter_padded _ n)]

/-- Names that were asked for alike are in the order of their counters. -/
theorem Counts.leaf_lt (h : x.Counts above n) (h' : y.Counts above k)
    (hrequested : x.requested = y.requested) (hnk : n < k) (hk : k < Nat.pow 10 counterWidth) :
    Path.leaf x.given < Path.leaf y.given := by
  have hdigits : Digits.padded counterWidth n < Digits.padded counterWidth k :=
    Digits.padded_lt_padded (by decide) hnk hk
  rw [h.leaf_eq, h'.leaf_eq, hrequested, String.lt_iff, String.toList_append, String.toList_append,
    String.toList_ofList, String.toList_ofList]
  exact List.append_left_lt hdigits

/-- A node with a counter that still exists is listed among the children. -/
theorem Counts.mem_children (h : x.Counts above n) (hm : m.Consistent) {node : Node}
    (hnode : m.find? above = some node) (hhas : m.has x.given = true) :
    Path.leaf x.given ∈ node.children := by
  refine (hm.mem_children above node hnode _).mpr ⟨x.given, hhas, ?_, ?_, rfl⟩
  · rw [h.given]
    exact numbered_ne_root h.fault n
  · rw [h.given, parent_numbered h.fault n, h.parent]

end Numbering

section Runs

variable {requests : List Request}

/-- A node is there all the time, and its counter fits into the digits. -/
def Keeps (m : Memory) (above : String) (requests : List Request) : Prop :=
  ∀ before, before <+: requests → ∃ node, (m.run before).find? above = some node ∧
    node.sequence < Nat.pow 10 counterWidth

theorem Keeps.tail {request : Request} (h : m.Keeps above (request :: requests)) :
    (m.after request).Keeps above requests :=
  fun before hbegins => h (request :: before) ((List.prefix_cons_inj request).mpr hbegins)

/-- The paths that are given out end in ever larger numbers, none of which is smaller than the
counter at first. -/
theorem numberings_counts (hkeeps : m.Keeps above requests) {node : Node}
    (hn : m.find? above = some node) :
    (∀ x ∈ m.numberings above requests, x.Counts above x.value ∧ node.sequence ≤ x.value ∧
      x.value < Nat.pow 10 counterWidth) ∧
    (m.numberings above requests).Pairwise fun x y => x.value < y.value := by
  induction requests generalizing m node with
  | nil => exact ⟨by simp [numberings], .nil⟩
  | cons request rest ih =>
    obtain ⟨first, hfirst, hfits⟩ := hkeeps [] List.nil_prefix
    obtain rfl := Option.some.inj (hn.symm.trans hfirst)
    obtain ⟨node', hn', -⟩ := hkeeps.tail [] List.nil_prefix
    obtain ⟨hle, hstep⟩ := sequence_after hn hn'
    obtain ⟨hall, hpairwise⟩ := ih hkeeps.tail hn'
    have hlater : ∀ x ∈ (m.after request).numberings above rest, x.Counts above x.value ∧
        node.sequence ≤ x.value ∧ x.value < Nat.pow 10 counterWidth := by
      intro x hx
      obtain ⟨hcounts, hge, hlt⟩ := hall x hx
      exact ⟨hcounts, hle.trans hge, hlt⟩
    rw [numberings]
    cases hx : m.numbering? above request with
    | none => exact ⟨hlater, hpairwise⟩
    | some x =>
      obtain ⟨hcounts, hlt⟩ := hstep x hx
      have hvalue := hcounts.value_eq hfits
      rw [Option.toList_some, List.singleton_append]
      refine ⟨?_, hpairwise.cons fun y hy => ?_⟩
      · rw [List.forall_mem_cons]
        refine ⟨?_, hlater⟩
        rw [hvalue]
        exact ⟨hcounts, Nat.le_refl _, hfits⟩
      · rw [hvalue]
        exact hlt.trans_le (hall y hy).2.1

/-- The paths that were given out for one request and still exist, the earliest first. -/
def survivors (m : Memory) (given : List Numbering) (requested : String) : List String :=
  ((given.filter fun x => x.requested = requested).map Numbering.given).filter m.has

/-- As long as a node is not removed and its counter fits into ten digits, each path that is given
out below it is the requested one with ten digits behind it, which stand for a larger number than
those of all earlier paths, so that no path is given out twice; and of the paths that were asked for
alike, those which still exist are listed in the order of their creation. -/
theorem numberings_ordered (hm : m.Reachable) (hkeeps : m.Keeps above requests) :
    let given := m.numberings above requests
    (∀ x ∈ given, ∃ digits : List Char, digits.length = 10 ∧ (∀ c ∈ digits, c.isDigit = true) ∧
      x.given = x.requested ++ String.ofList digits ∧
      Path.sequentialSuffix x.given = String.ofList digits) ∧
    (given.Pairwise fun x y => x.value < y.value) ∧ (given.map Numbering.given).Nodup ∧
    ((m.run requests).closed = false → ∀ requested asked orders, orders ≠ [] → ∃ names,
      (Concurrency.System.alone (m.run requests) asked (.sortedChildren above) orders).outcome 0 =
          some (.ok (.list (names.map .str))) ∧
        (((m.run requests).survivors given requested).map Path.leaf).Sublist names) := by
  obtain ⟨first, hfirst, -⟩ := hkeeps [] List.nil_prefix
  obtain ⟨last, hlast, -⟩ := hkeeps requests List.prefix_rfl
  obtain ⟨hcounts, hpairwise⟩ := numberings_counts hkeeps hfirst
  have hrun : (m.run requests).Consistent := hm.consistent.run requests
  intro given
  refine ⟨fun x hx => ?_, hpairwise, ?_, fun ho requested asked orders hne => ?_⟩
  · obtain ⟨hcount, -, hlt⟩ := hcounts x hx
    exact ⟨Digits.padded counterWidth x.value, Digits.length_padded hlt (by decide),
      (Digits.isCounter_padded _ _).isDigit, hcount.given, hcount.sequentialSuffix hlt⟩
  · rw [List.Nodup, List.pairwise_map]
    refine hpairwise.imp fun hlt he => ?_
    rw [Numbering.value, Numbering.value, he] at hlt
    exact Nat.lt_irrefl _ hlt
  · have hvalid := hrun.valid above (has_of_find? hlast)
    refine ⟨Sorting.sortTexts last.children, ?_, Sorting.sublist_sortTexts ?_ ?_⟩
    · rw [(Concurrency.System.alone_sortedChildren ho hvalid asked hne).2,
        Concurrency.System.sortedAnswer, hlast]
    · intro name hname
      simp only [survivors, List.mem_map, List.mem_filter] at hname
      obtain ⟨_, ⟨⟨x, ⟨hx, -⟩, rfl⟩, hhas⟩, rfl⟩ := hname
      exact (hcounts x hx).1.mem_children hrun hlast hhas
    · rw [survivors, List.pairwise_map, List.pairwise_filter, List.pairwise_map,
        List.pairwise_filter]
      refine hpairwise.imp_of_mem fun hx hy hlt hx' hy' _ _ => ?_
      have hrequested := (of_decide_eq_true hx').trans (of_decide_eq_true hy').symm
      exact (hcounts _ hx).1.leaf_lt (hcounts _ hy).1 hrequested hlt (hcounts _ hy).2.2

/-- Two prefixes, one of which ends in a digit, next to a name that was taken by hand: the counter
moves on when the third creation fails, and the second name that was asked for is deleted again. -/
theorem numberings_ordered_jobs :
    let m := ({} : Memory).run [.call (.create "/q" [] [] .persistent)]
    let numbered := fun path => Request.call (.create path [] [] .persistentSequential)
    let requests : List Request := [numbered "/q/job-", numbered "/q/job-0",
      .call (.create "/q/job-0000000002" [] [] .persistent), numbered "/q/job-",
      numbered "/q/job-", .call (.delete "/q/job-00000000001" anyVersion), numbered "/q/"]
    let given := m.numberings "/q" requests
    m.Keeps "/q" requests ∧ given.map Numbering.given = ["/q/job-0000000000", "/q/job-00000000001",
        "/q/job-0000000003", "/q/0000000004"] ∧
      (given.Pairwise fun x y => x.value < y.value) ∧
      ∃ names, (Concurrency.System.alone (m.run requests) true (.sortedChildren "/q")
          [⟨List.reverse, fun names => names.reverse_perm⟩]).outcome 0 =
            some (.ok (.list (names.map .str))) ∧
        ["job-0000000000", "job-0000000003"].Sublist names := by
  intro m numbered requests given
  have hkeeps : m.Keeps "/q" requests := by
    have hall : ∀ before ∈ requests.inits, ((m.run before).find? "/q").any
        (fun node => decide (node.sequence < Nat.pow 10 counterWidth)) = true := by decide +kernel
    intro before hbegins
    obtain ⟨node, hn, hfits⟩ :=
      (Option.any_eq_true _ _).mp (hall before ((List.mem_inits _ _).mpr hbegins))
    exact ⟨node, hn, of_decide_eq_true hfits⟩
  have hm : m.Reachable := ⟨true, _, rfl⟩
  obtain ⟨-, hpairwise, -, hsorted⟩ := numberings_ordered hm hkeeps
  obtain ⟨names, hnames, hsub⟩ := hsorted (by decide +kernel) "/q/job-" true
    [⟨List.reverse, fun names => names.reverse_perm⟩] (by simp)
  refine ⟨hkeeps, by decide +kernel, hpairwise, names, hnames, ?_⟩
  have hleaves : ((m.run requests).survivors given "/q/job-").map Path.leaf =
      ["job-0000000000", "job-0000000003"] := by decide +kernel
  rwa [hleaves] at hsub

end Runs

end TreeStore.Memory
