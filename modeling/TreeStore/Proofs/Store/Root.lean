import TreeStore.Proofs.Store.Requests

/-!
# The root

Recursive creation takes it for granted that the root is there. It is, until someone deletes it
while it has no children: the root is its own parent, so that it is gone by the time that its name
is to be taken from its parent's children. From then on the store has no nodes, and none can be
created.
-/

namespace TreeStore.Memory

/-- A request takes the root away: it is a deletion of the root at its version, which has no
children. -/
def Request.TakesRoot (m : Memory) (request : Request) : Prop :=
  ∃ version node, request = .call (.delete Path.root version) ∧ m.closed = false ∧
    m.find? Path.root = some node ∧ node.children = [] ∧ versionMatches version node = true

variable {m : Memory} {request : Request}

theorem run_append (m : Memory) (earlier later : List Request) :
    m.run (earlier ++ later) = (m.run earlier).run later := List.foldl_append

theorem closed_run {requests : List Request} (hclose : Request.close ∉ requests) :
    (m.run requests).closed = m.closed := by
  induction requests generalizing m with
  | nil => rfl
  | cons request rest ih =>
    rw [List.mem_cons, not_or] at hclose
    exact (ih hclose.2).trans (closed_after (Ne.symm hclose.1))

/-- The root is no container, and is never created anew. -/
theorem mode_root (h : m.Reachable) {node : Node} (hn : m.find? Path.root = some node) :
    node.mode = .persistent := by
  obtain ⟨containers, requests, rfl⟩ := h
  induction requests using List.reverseRecOn generalizing node with
  | nil =>
    have he : (⟨[], [], .persistent, 0, [], 0, false⟩ : Node) = node := by
      simpa [run, find?] using hn
    rw [← he]
  | append_singleton requests request ih =>
    rw [run_append] at hn
    obtain ⟨n, hold, hmode, -⟩ | ⟨-, -, -, -, -, -, hroot, -⟩ := find?_of_after hn
    · rw [hmode, ih hold]
    · exact absurd rfl hroot

/-- A deletion of the root that is not refused leaves a store without a root. -/
theorem has_root_delete (version : Int) :
    (m.delete Path.root version).1.has Path.root = true ↔ m.has Path.root = true ∧
      ¬ Request.TakesRoot m (.call (.delete Path.root version)) := by
  obtain ⟨problem, -, he⟩ | ⟨node, -, ho, hn, hc, hversion, he⟩ := delete_cases m Path.root version
  · rw [he, iff_self_and]
    rintro - ⟨version', node, hr, ho, hn, hc, hversion⟩
    simp only [Request.call.injEq, Call.delete.injEq, true_and] at hr
    subst hr
    have hunlink : m.delete Path.root version = m.unlink Path.root := by
      simp [delete, Path.isValid_root.validate, ho, hn, hc, hversion]
    have hgone : (m.unlink Path.root).1.has Path.root = false := by
      simp [has_unlink]
    rw [← hunlink, he, has_of_find? hn] at hgone
    cases hgone
  · have htakes : Request.TakesRoot m (.call (.delete Path.root version)) :=
      ⟨version, node, rfl, ho, hn, hc, hversion⟩
    rw [he, has_unlink]
    simp [htakes]

/-- The root stays in every request but the one that takes it away, and never comes back. -/
theorem has_root_after (hm : m.Reachable) (request : Request) :
    (m.after request).has Path.root = true ↔
      m.has Path.root = true ∧ ¬ request.TakesRoot m := by
  by_cases hdelete : ∃ version, request = .call (.delete Path.root version)
  · obtain ⟨version, rfl⟩ := hdelete
    exact has_root_delete version
  have htakes : ¬ request.TakesRoot m := fun ⟨version, _, hr, _⟩ => hdelete ⟨version, hr⟩
  rw [and_iff_left htakes]
  constructor
  · intro h
    obtain ⟨n', hn'⟩ := has_iff.mp h
    obtain ⟨n, hn, -⟩ | ⟨-, -, -, -, -, -, hroot, -⟩ := find?_of_after hn'
    · exact has_of_find? hn
    · exact absurd rfl hroot
  · intro h
    cases request with
    | call call =>
      cases call with
      | probe path => exact h
      | children path => exact h
      | capability => exact h
      | create path data acl mode =>
        rw [after_create]
        obtain ⟨problem, -, he⟩ | ⟨parent, -, ⟨-, he⟩ | ⟨hfree, he⟩⟩ :=
          create_cases m path data acl mode
        · rwa [he]
        · rwa [he, has_counting]
        · rw [he, has_attach, has_counting, h, Bool.or_true]
      | delete path version =>
        have hne : Path.root ≠ path := fun hp => hdelete ⟨version, by rw [hp]⟩
        rw [after_delete]
        obtain ⟨problem, -, he⟩ | ⟨node, -, -, -, -, -, he⟩ := delete_cases m path version
        · rwa [he]
        · rw [he, has_unlink, decide_eq_true hne, h, Bool.true_and]
    | setData path data version =>
      rw [after_setData]
      obtain ⟨problem, -, he⟩ | ⟨node, -, -, -, he⟩ := setData_cases m path data version
      · rwa [he]
      · rwa [he, has_modify]
    | reap =>
      rw [after_reap]
      split
      · exact h
      · rwa [has_sweep_of_plain fun n hn => by rw [mode_root hm hn]; rfl]
    | close => exact h

/-- In a store without nodes none can be created. -/
theorem create_of_empty (hm : ∀ q, m.has q = false) (path : String) (data : List UInt8)
    (acl : List Acl) (mode : CreateMode) :
    ∃ problem, m.create path data acl mode = (m, .error problem) := by
  have hnone : ∀ parent, ¬ m.Accepts path mode parent := by
    intro parent ha
    have hhas := has_of_find? ha.parent
    rw [hm] at hhas
    cases hhas
  obtain ⟨problem, -, he⟩ := create_of_not_accepts hnone data acl
  exact ⟨problem, he⟩

theorem empty_after (hm : ∀ q, m.has q = false) (request : Request) (q : String) :
    (m.after request).has q = false := by
  rw [← Bool.not_eq_true]
  intro h
  obtain hold | ⟨⟨path, data, acl, mode, rfl⟩, hanswer⟩ := has_of_after h
  · rw [hm] at hold
    cases hold
  · obtain ⟨problem, he⟩ := create_of_empty hm path data acl mode
    change Answer.of .str (m.create path data acl mode).2 = _ at hanswer
    rw [he] at hanswer
    cases hanswer

theorem empty_run (hm : ∀ q, m.has q = false) (requests : List Request) (q : String) :
    (m.run requests).has q = false := by
  induction requests generalizing m with
  | nil => exact hm q
  | cons request rest ih => exact ih (empty_after hm request)

/-- Without a root there are no nodes at all. -/
theorem Consistent.empty_of_rootless (h : m.Consistent) (hroot : m.has Path.root = false)
    (q : String) : m.has q = false := by
  rw [← Bool.not_eq_true]
  intro hq
  rw [h.has_of_isAbove hq (Path.isAbove_root q)] at hroot
  cases hroot

/-- The root is there exactly if no request has taken it away so far. -/
theorem has_root_run (containers : Bool) (requests : List Request) :
    (({ containers } : Memory).run requests).has Path.root = true ↔
      ∀ before request, before ++ [request] <+: requests →
        ¬ request.TakesRoot (({ containers } : Memory).run before) := by
  induction requests using List.reverseRecOn with
  | nil =>
    refine ⟨fun _ before request hbegins => ?_, fun _ => by simp [run, has, find?]⟩
    simp at hbegins
  | append_singleton requests last ih =>
    have hafter := has_root_after ⟨containers, requests, rfl⟩ last
    rw [run_append]
    refine hafter.trans ?_
    rw [ih]
    constructor
    · rintro ⟨hearlier, hlast⟩ before request hbegins
      rcases List.prefix_concat_iff.mp hbegins with he | hbegins
      · obtain ⟨rfl, hsame⟩ := List.append_inj' he rfl
        obtain rfl := List.singleton_inj.mp hsame
        exact hlast
      · exact hearlier before request hbegins
    · intro hall
      refine ⟨fun before request hbegins => ?_, hall requests last List.prefix_rfl⟩
      exact hall before request (hbegins.trans (List.prefix_append _ _))

/-- While the session lasts, the root is there exactly if no request has taken it away so far. As
long as it is, a node below it can be created at each free path; once it is gone, there are no nodes
and there never will be any. -/
theorem root_stays_iff (containers : Bool) {requests : List Request}
    (hclose : Request.close ∉ requests) :
    let m := ({ containers } : Memory).run requests
    (m.probe Path.root = .ok true ↔ ∀ before request, before ++ [request] <+: requests →
      ¬ request.TakesRoot (({ containers } : Memory).run before)) ∧
    (m.probe Path.root = .ok true → ∀ p, Path.IsValid p → Path.parent p = Path.root →
      m.has p = false → ∀ data acl, (m.create p data acl .persistent).2 = .ok p) ∧
    (m.probe Path.root = .ok false → ∀ later : List Request,
      (∀ q, (m.run later).has q = false) ∧ ∀ p data acl mode,
        ∃ problem, ((m.run later).create p data acl mode).2 = .error problem) := by
  intro m
  have hopen : m.closed = false := closed_run hclose
  have hprobe : m.probe Path.root = .ok (m.has Path.root) := probe_of_open hopen _
  rw [hprobe]
  refine ⟨?_, ?_, ?_⟩
  · rw [← has_root_run, Except.ok.injEq]
  · intro h p hp hparent hfree data acl
    have hroot : m.has (Path.parent p) = true := by
      rw [hparent]
      exact Except.ok.inj h
    rw [create_plain rfl (fun hc => by cases hc) hp hopen hroot, if_neg (by simp [hfree])]
  · intro h later
    have hempty : ∀ q, m.has q = false :=
      ((consistent_fresh containers).run requests).empty_of_rootless (Except.ok.inj h)
    refine ⟨fun q => empty_run hempty later q, fun p data acl mode => ?_⟩
    obtain ⟨problem, he⟩ := create_of_empty (fun q => empty_run hempty later q) p data acl mode
    exact ⟨problem, by rw [he]⟩

/-- A deletion of the root at another version, or while it has children, does no harm. -/
theorem root_stays_iff_refused :
    let requests : List Request := [.call (.delete Path.root 7),
      .call (.create "/a" [] [] .persistent), .call (.delete Path.root anyVersion)]
    let m := ({} : Memory).run requests
    m.probe Path.root = .ok true ∧ (m.create "/b" [] [] .persistent).2 = .ok "/b" := by
  intro requests m
  have hprobe : m.probe Path.root = .ok true := by
    rw [probe_of_open (by decide +kernel)]
    exact congrArg Except.ok (by decide +kernel)
  have hclose : Request.close ∉ requests := by decide
  obtain ⟨-, hcreate, -⟩ := root_stays_iff true hclose
  refine ⟨hprobe, hcreate hprobe "/b" (by decide) ?_ ?_ [] []⟩
  · rw [Path.parent]
    decide
  · decide +kernel

/-- A deletion of the root as the first request takes it away, and no node can be created then. -/
theorem root_deleted :
    ∃ requests : List Request, Request.close ∉ requests ∧
      (({} : Memory).run requests).probe Path.root = .ok false ∧
      ((({} : Memory).run requests).create "/a" [] [] .persistent).2.isOk = false := by
  refine ⟨[.call (.delete Path.root anyVersion)], by decide, ?_, by decide +kernel⟩
  rw [probe_of_open (by decide +kernel)]
  exact congrArg Except.ok (by decide +kernel)

end TreeStore.Memory
