import TreeStore.Proofs.Concurrency.System
import TreeStore.Proofs.Workspace.Directories

/-!
# A service and a store in memory that answer alike

A service that keeps a tree of directories and a store in memory that holds the same tree answer
each call alike, up to where a problem came from and whether a directory that is made was there
before. Neither makes a difference to a recursive operation, which goes on in the same way.
-/

namespace TreeStore

/-- Two answers to a call after which operations go on alike. -/
inductive Call.Matches (call : Call) : Answer → Answer → Prop
  /-- The same value. -/
  | value (value : Value) : Matches call (.ok value) (.ok value)
  /-- The same problem with the same notes, whatever it was raised from. -/
  | problem {f g : Failure} (same : f.problem = g.problem) (notes : f.notes = g.notes) :
      Matches call (.error f) (.error g)
  /-- A node was created, or it was there already. -/
  | present {value : Value} {failure : Failure} (create : call.primitive = .create)
      (taken : failure.problem.isNodeExists = true) : Matches call (.ok value) (.error failure)

/-- What leaves a context does not depend on where a failure was raised from. -/
theorem Failure.leaving_congr {f g : Failure} (hproblem : f.problem = g.problem)
    (hnotes : f.notes = g.notes) (context : Context) :
    (f.leaving context).problem = (g.leaving context).problem := by
  rw [leaving, leaving, hnotes, hproblem]
  split
  · cases context.note? <;> rfl
  · exact hproblem

namespace Operation

/-- What leaves an operation does not depend on where a failure was raised from. -/
theorem leave_congr {f g : Failure} (operation : Operation) (hproblem : f.problem = g.problem)
    (hnotes : f.notes = g.notes) : (operation.leave f).problem = (operation.leave g).problem := by
  cases operation with
  | ensure state | clear state => exact Failure.leaving_congr hproblem hnotes _
  | listing state => exact hproblem

variable {operation twin : Operation} {call : Call} {resume : Answer → List LogRecord × Operation}

/-- Two operations in the same state, or two that failed with the same problem. -/
inductive Abreast : Operation → Operation → Prop
  | same (operation : Operation) : Abreast operation operation
  | failed {operation twin : Operation} {f g : Failure}
      (own : operation.next = .finished (.error f)) (other : twin.next = .finished (.error g))
      (problem : f.problem = g.problem) : Abreast operation twin

theorem Abreast.symm (h : operation.Abreast twin) : twin.Abreast operation := by
  cases h with
  | same => exact .same _
  | failed own other problem => exact .failed other own problem.symm

/-- The one is done if the other is, with the same value or the same problem. -/
theorem Abreast.finished (h : operation.Abreast twin) {outcome : Answer}
    (hn : twin.next = .finished outcome) :
    ∃ own, operation.next = .finished own ∧
      own.mapError Failure.problem = outcome.mapError Failure.problem := by
  cases h with
  | same => exact ⟨outcome, hn, rfl⟩
  | failed own other problem =>
    cases other.symm.trans hn
    exact ⟨_, own, congrArg Except.error problem⟩

/-- An operation that is not done is in the same state as the other. -/
theorem Abreast.eq (h : operation.Abreast twin)
    (hn : ∀ outcome, operation.next ≠ .finished outcome) : twin = operation := by
  cases h with
  | same => rfl
  | failed own => exact absurd own (hn _)

/-- After an expected failure, an operation only looks at the problem. -/
theorem abreast_of_expected (hn : operation.next = .calling call resume) {f g : Failure}
    (hsame : f.problem = g.problem) (he : call.expects f.problem = true) :
    (resume (.error f)).2.Abreast (resume (.error g)).2 := by
  cases operation with
  | ensure state =>
    cases state with
    | probing =>
      cases hn
      cases he
    | creating job mode path below =>
      cases hn
      have hexists : g.problem.isNodeExists = true := by rwa [← hsame]
      simp only [hsame, if_pos hexists]
      exact .same _
    | choosing | done => cases hn
  | clear state =>
    cases state with
    | listing limit frame outer =>
      cases hn
      have hgone : g.problem.isNoNode = true := by rwa [← hsame]
      simp only [hsame, if_pos hgone]
      exact .same _
    | deleting limit frame outer =>
      cases hn
      simp only [hsame, Clear.retry]
      by_cases hfull : g.problem.isNotEmpty = true
      · simp only [if_pos hfull]
        exact .same _
      · have hgone : g.problem.isNoNode = true := by
          rw [hsame] at he
          simpa [Call.expects, hfull] using he
        simp only [if_neg hfull, if_pos hgone]
        exact .same _
    | done => cases hn
  | listing state =>
    cases state with
    | waiting path =>
      cases hn
      exact .failed rfl rfl hsame
    | done => cases hn

/-- Operations that get matching answers stay abreast. -/
theorem abreast_resume {ambient own : Context} (hscoped : operation.Scoped ambient own)
    (hn : operation.next = .calling call resume) {answer other : Answer}
    (h : call.Matches answer other) : (resume answer).2.Abreast (resume other).2 := by
  cases h with
  | value value => exact .same _
  | @problem f g same notes =>
    cases he : call.expects f.problem with
    | true => exact abreast_of_expected hn same he
    | false =>
      have hf := next_of_unexpected hscoped hn he
      rw [same] at he
      exact .failed hf (next_of_unexpected hscoped hn he) (operation.leave_congr same notes)
  | present create taken =>
    cases operation with
    | ensure state =>
      cases state with
      | creating job mode path below =>
        cases hn
        simp only [if_pos taken]
        exact .same _
      | probing =>
        cases hn
        cases create
      | choosing | done => cases hn
    | clear state => cases state <;> cases hn <;> cases create
    | listing state =>
      cases state <;> cases hn
      cases create

end Operation

/-- A call that makes sense for directories; the parent of a node to be created is in the store. -/
def Call.Modest (m : Memory) : Call → Prop
  | probe _ | capability => True
  | children p => Path.IsValid p
  | create p data _ mode =>
    Path.IsValid p ∧ data = [] ∧ mode = .persistent ∧ m.has (Path.parent p) = true
  | delete p version => Path.IsValid p ∧ p ≠ Path.root ∧ version = anyVersion

namespace Concurrency

/-- The order of some names, for the listing of the same ones. -/
def Arrangement.of (names : List String) : Arrangement where
  apply other := if names.Perm other then names else other
  perm other := by
    split
    · assumption
    · exact .refl other

theorem Arrangement.apply_of {names other : List String} (h : names.Perm other) :
    (Arrangement.of names).apply other = names := if_pos h

end Concurrency

namespace Workspace

open Concurrency

/-- A service that keeps a tree and a store in memory give matching answers to a call, and then the
store holds what has become of the tree. -/
structure InStep (service : Service) (exchanges : List Exchange) (tree : DirectoryTree) (m : Memory)
    (call : Call) (order : Arrangement) : Prop where
  /-- The answers match. -/
  answers : call.Matches ((storeOver service).answer exchanges call) (m.serve order.apply call).2
  /-- The store holds the tree. -/
  holds : (m.serve order.apply call).1.Holds (tree.afterAll (request? call).toList)

section OneCall

variable {service : Service} {exchanges : List Exchange} {tree : DirectoryTree} {m : Memory}
  {p : String} {order : Arrangement}

/-- The names of listed directories. -/
theorem listed_paths {listing : List String} (h : ∀ q ∈ listing, q ≠ "") :
    listed p (.ok (.list (listing.map .str))) =
      .ok (.list ((listing.map Path.leaf).map .str)) := by
  have hfilter : (listing.map Value.str).filter Value.truthy = listing.map .str := by
    refine List.filter_eq_self.mpr fun object hobject => ?_
    obtain ⟨q, hq, rfl⟩ := List.mem_map.mp hobject
    simpa [Value.truthy] using h q hq
  have hnames : (listing.map Value.str).mapM nameOf =
      .ok ((listing.map Path.leaf).map .str) := by
    rw [List.mapM_map, List.map_map]
    exact List.mapM_pure
  simp only [listed, objectPaths, bind, Except.bind, hfilter, hnames]
  rfl

theorem inStep_probe (hservice : tree.Serves (service.answer (requests exchanges)))
    (hm : m.Holds tree) : InStep service exchanges tree m (.probe p) order := by
  refine ⟨?_, ?_⟩
  · rw [answer_over_probe, Memory.serve_probe hm.opened]
    by_cases hp : p ∈ tree.paths
    · obtain ⟨value, hvalue⟩ := hservice.status_present p hp
      rw [Service.reply_of_ok hvalue, (hm.has_iff p).mpr hp]
      exact .value _
    · obtain ⟨report, hreport, habsent⟩ := hservice.status_missing p hp
      rw [Service.reply_of_report hreport, found_of_absence habsent, hm.has_eq_false_iff.mpr hp]
      exact .value _
  · rw [Memory.serve_probe hm.opened]
    exact hm

/-- There is an order in which the store lists the names as the service does. -/
theorem exists_inStep_children (hservice : tree.Serves (service.answer (requests exchanges)))
    (hm : m.Holds tree) (hp : Path.IsValid p) :
    ∃ order, InStep service exchanges tree m (.children p) order := by
  by_cases hmem : p ∈ tree.paths
  · obtain ⟨listing, hlisting, hnodup, hchildren⟩ := hservice.list_present p hmem
    obtain ⟨node, hn⟩ := Memory.has_iff.mp ((hm.has_iff p).mpr hmem)
    have hnonempty : ∀ q ∈ listing, q ≠ "" := fun q hq =>
      (tree.valid q (DirectoryTree.mem_children.mp ((hchildren q).mp hq)).1).ne_empty
    let order : Arrangement := .of (listing.map Path.leaf)
    have hserve : (m.serve order.apply (.children p)).2 =
        .ok (.list ((order.apply node.children).map .str)) := by
      simp only [Memory.serve, Memory.children_of_open hp hm.opened, hn]
      rfl
    refine ⟨order, ?_, hm⟩
    rw [answer_over_children, Service.reply_of_ok hlisting, listed_paths hnonempty, hserve,
      Arrangement.apply_of (hm.perm_children hn hnodup hchildren)]
    exact .value _
  · obtain ⟨report, hreport, habsent⟩ := hservice.list_missing p hmem
    refine ⟨.of [], ?_, hm⟩
    rw [answer_over_children, Service.reply_of_report hreport, listed_of_absence p habsent]
    simp only [Memory.serve, Memory.children_of_open hp hm.opened,
      hm.find?_eq_none_iff.mpr hmem]
    exact .problem rfl rfl

/-- A directory may be there already, which the service does not report. -/
theorem inStep_create (hservice : tree.Serves (service.answer (requests exchanges)))
    (hm : m.Holds tree) (hp : Path.IsValid p) (hparent : m.has (Path.parent p) = true)
    (acl : List Acl) :
    InStep service exchanges tree m (.create p [] acl .persistent) order := by
  obtain ⟨value, hvalue⟩ := hservice.make p hp
  have hparent' : Path.parent p ∈ tree.paths := (hm.has_iff _).mp hparent
  have hpaths := tree.paths_after_makeDirectories hp hparent'
  have hcreate : m.create p [] acl .persistent = _ :=
    Memory.create_plain rfl (fun h => absurd h (by decide)) hp hm.opened hparent [] acl
  have hanswer :
      (storeOver service).answer exchanges (.create p [] acl .persistent) = .ok (.str p) := by
    rw [answer_over_create, Service.reply_of_ok hvalue]
    rfl
  cases hhas : m.has p with
  | true =>
    rw [hhas, if_pos rfl] at hcreate
    refine ⟨?_, ?_⟩
    · rw [hanswer, Memory.serve, hcreate]
      exact .present rfl rfl
    · rw [request?_create, Memory.serve, hcreate]
      exact hm.congr (hpaths.trans (Finset.insert_eq_self.mpr ((hm.has_iff p).mp hhas)))
  | false =>
    rw [hhas, if_neg (by decide)] at hcreate
    refine ⟨?_, ?_⟩
    · rw [hanswer, Memory.serve, hcreate]
      exact .value _
    · rw [request?_create, Memory.serve, hcreate]
      exact hm.attach hp hparent' (hm.has_eq_false_iff.mp hhas) rfl hpaths

theorem inStep_delete (hservice : tree.Serves (service.answer (requests exchanges)))
    (hm : m.Holds tree) (hp : Path.IsValid p) (hne : p ≠ Path.root) :
    InStep service exchanges tree m (.delete p anyVersion) order := by
  have hdelete := Memory.delete_any hp hm.opened
  cases hn : m.find? p with
  | none =>
    have hmem := hm.find?_eq_none_iff.mp hn
    obtain ⟨report, hreport, habsent⟩ := hservice.delete_missing p hmem
    rw [hn] at hdelete
    refine ⟨?_, ?_⟩
    · rw [answer_over_delete, Service.reply_of_report hreport, deleted_of_absence p habsent,
        Memory.serve, hdelete]
      exact .problem rfl rfl
    · rw [request?_delete, Memory.serve, hdelete]
      refine hm.congr ((DirectoryTree.paths_after_delete hne ?_).trans ?_)
      · exact DirectoryTree.children_of_missing hmem
      · exact Finset.erase_eq_of_notMem hmem
  | some node =>
    have hmem : p ∈ tree.paths := (hm.has_iff p).mp (Memory.has_of_find? hn)
    have hchildren := hm.children_eq_nil_iff hn
    rw [hn] at hdelete
    by_cases hempty : tree.children p = ∅
    · obtain ⟨value, hvalue⟩ := hservice.delete_empty p hmem hempty hne
      have hc := hchildren.mpr hempty
      have hunlink := hm.consistent.unlink_eq_ok (Memory.has_of_find? hn) hne
      simp only [hc, ne_eq, not_true_eq_false, if_false] at hdelete
      refine ⟨?_, ?_⟩
      · rw [answer_over_delete, Service.reply_of_ok hvalue, Memory.serve, hdelete, hunlink]
        exact .value _
      · rw [request?_delete, Memory.serve, hdelete]
        exact hm.unlink hn hc (DirectoryTree.paths_after_delete hne hempty)
    · obtain ⟨report, hreport, hpresent, hcode⟩ := hservice.delete_full p hmem hempty
      have hc : node.children ≠ [] := fun hc => hempty (hchildren.mp hc)
      simp only [if_pos hc] at hdelete
      refine ⟨?_, ?_⟩
      · rw [answer_over_delete, Service.reply_of_report hreport,
          deleted_of_full p hpresent hcode, Memory.serve, hdelete]
        exact .problem rfl rfl
      · have hsame : tree.afterAll [.delete p] = tree := DirectoryTree.after_delete_of_full hempty
        rw [request?_delete, Memory.serve, hdelete, Option.toList, hsame]
        exact hm

theorem inStep_capability (hm : m.Holds tree) :
    InStep service exchanges tree m .capability order := by
  refine ⟨?_, hm⟩
  rw [answer_over_capability, Memory.serve, hm.containers]
  exact .value _

/-- For each call there is an order of names with which the store in memory keeps in step. -/
theorem exists_inStep (hservice : tree.Serves (service.answer (requests exchanges)))
    (hm : m.Holds tree) {call : Call} (hcall : call.Modest m) :
    ∃ order, InStep service exchanges tree m call order := by
  cases call with
  | probe p => exact ⟨.of [], inStep_probe hservice hm⟩
  | children p => exact exists_inStep_children hservice hm hcall
  | create p data acl mode =>
    obtain ⟨hp, rfl, rfl, hparent⟩ := hcall
    exact ⟨.of [], inStep_create hservice hm hp hparent acl⟩
  | delete p version =>
    obtain ⟨hp, hne, rfl⟩ := hcall
    exact ⟨.of [], inStep_delete hservice hm hp hne⟩
  | capability => exact ⟨.of [], inStep_capability hm⟩

end OneCall

end Workspace

end TreeStore
