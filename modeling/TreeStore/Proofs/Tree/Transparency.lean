import TreeStore.Proofs.Concurrency.Alone
import TreeStore.Proofs.Tree.Demand

/-!
# Namespaces are transparent

Whoever uses a tree with a namespace might as well use one without, on a store whose root is the
node that the namespace stands for. Either operation ends, the answers are the same but for the
namespace in front of the paths, and so are the stores that are left; what does not lie below the
node is as it was. The two runs probe different paths and join different texts, and each lists
children in an order of its own. So they are not compared step by step: each is followed to its end,
and what it leads to below the node is read off for the shorter paths.
-/

namespace TreeStore

/-- A table for the store below a node: its paths lose the part that leads to the node. -/
def AclProvider.rekeyed (p : AclProvider) (front : String) : AclProvider where
  fallback := p.fallback
  overrides := p.overrides.filterMap fun (path, acl) =>
    (Path.relative? front path).map fun rest => (rest, acl)

/-- The table for the store below a node has for a path what the whole table has for the path below
the node. -/
theorem AclProvider.override?_rekeyed (p : AclProvider) {front q : String}
    (hfront : Path.IsValid front) (hq : Path.IsValid q) :
    (p.rekeyed front).override? q = p.override? (Path.join [front, q]) := by
  have hkey : ∀ entry : String × Option (List Acl),
      (((Path.relative? front entry.1).map fun rest => (rest, entry.2)).any (·.1 == q)) =
        (entry.1 == Path.join [front, q]) := by
    intro entry
    rw [Bool.eq_iff_iff, Option.any_map, Option.any_eq_true]
    simp only [beq_iff_eq, exists_eq_right, Path.relative?_eq_some_iff, hfront,
      hq, true_and]
  rw [override?, override?, rekeyed, ← List.filterMap_reverse, List.find?_filterMap]
  simp only [hkey]
  cases he : p.overrides.reverse.find? (·.1 == Path.join [front, q]) with
  | none => rfl
  | some entry =>
    have hpath : entry.1 = Path.join [front, q] := by simpa using List.find?_some he
    simp [hpath, Path.relative?_append hfront hq]

namespace Tree

/-- Another tree is set up for the store below a node as this one is for the whole store. Their
namespaces do not matter. -/
structure Rekeyed (front : String) (t t' : Tree) : Prop where
  /-- Nodes are to be containers in both or in none. -/
  useContainers : t'.settings.useContainers = t.settings.useContainers
  /-- As many attempts are made. -/
  maxDeleteAttempts : t'.settings.maxDeleteAttempts = t.settings.maxDeleteAttempts
  /-- The access control list for a node is the same. -/
  resolve : ∀ q, Path.IsValid q →
    AclPolicy.resolve t'.provider q = AclPolicy.resolve t.provider (Path.join [front, q])

/-- Rekeying a table sets a tree up for the store below a node. -/
theorem rekeyed_table (settings : Settings) (table : Option AclProvider) {front : String}
    (hfront : Path.IsValid front) :
    Rekeyed front { settings, provider := table.map AclProvider.policy }
      { settings, provider := table.map fun p => (p.rekeyed front).policy } := by
  refine ⟨rfl, rfl, fun q hq => ?_⟩
  cases table with
  | none => rfl
  | some p =>
    simp only [Option.map_some, AclPolicy.resolve, AclProvider.policy,
      p.override?_rekeyed hfront hq]
    rfl

end Tree

/-- A report about a path as one about the path below another one. -/
def Problem.lift (front : String) : Problem → Problem
  | store fault path text => store fault (Path.join [front, path]) text
  | problem => problem

namespace Tree

open Concurrency

/-- An answer about paths as one about the paths below another one. Only recursive creation answers
a path. -/
def Demand.lift (front : String) : Demand → Answer → Answer
  | _, .error failure => .error { failure with problem := failure.problem.lift front }
  | .mkdirs _, .ok (.str path) => .ok (.str (Path.join [front, path]))
  | _, answer => answer

/-- What a tree answers when the operation that it started has ended. -/
def answer (t : Tree) (ambient : Context) (path : Value) (outcome : Answer) : Demand → Answer
  | .mkdirs makeLast => do
    let _ ← outcome
    Answer.of .str ((t.mkdirs ambient path makeLast).map Prod.fst)
  | _ => outcome

/-- Do what is demanded of a tree while nobody disturbs it, for as many steps as there are orders:
the store, and the answer if it is there. -/
def alone (t : Tree) (ambient : Context) (path : Value) (demand : Demand) (m : Memory)
    (asked : Bool) (orders : List Arrangement) : Memory × Option Answer :=
  match t.operation ambient path demand with
  | .error problem => (m, some (.error problem))
  | .ok operation =>
    let s := System.alone m asked operation orders
    (s.memory, (s.outcome 0).map fun outcome => t.answer ambient path outcome demand)

/-- What was done below a node of a store is what was done on the store below the node. -/
structure Mirrors (front : String) (demand : Demand) (m : Memory)
    (below plain : Memory × Option Answer) : Prop where
  /-- Both are over and have answered the same, apart from the paths. -/
  answer : ∃ value, plain.2 = some value ∧ below.2 = some (demand.lift front value)
  /-- They left the same nodes. -/
  alike : (below.1.rerooted front).Alike plain.1
  /-- Nothing else has changed. -/
  spares : m.Spares front below.1

end Tree

namespace Concurrency

variable {m after after' : Memory} {front : String}

/-- A call makes sure of the nodes along a path below a node. -/
theorem Creation.ensures_below_iff {c c' : Creation} (hfront : Path.IsValid front)
    (hpath : c.path = Path.join [front, c'.path]) (hc' : Path.IsValid c'.path)
    (hlast : c.wantsLast = c'.wantsLast) {q : String} (hq : Path.IsValid q)
    (hne : q ≠ Path.root) : c.Ensures (Path.join [front, q]) ↔ c'.Ensures q := by
  constructor
  · rintro ⟨-, habove, hself⟩
    rw [hpath] at habove hself
    rw [Path.isAbove_append_iff hfront hq hc'] at habove
    rw [hlast, ne_eq, Path.append_inj hfront hq hc'] at hself
    exact ⟨hne, habove, hself⟩
  · rintro ⟨-, habove, hself⟩
    refine ⟨Path.append_ne_root hfront hq hne, ?_, ?_⟩
    · rwa [hpath, Path.isAbove_append_iff hfront hq hc']
    · rwa [hlast, hpath, ne_eq, Path.append_inj hfront hq hc']

/-- A call below a node and the call for the shorter path on the store below the node lead to the
same nodes. -/
theorem Creation.Completed.alike {c c' : Creation} (h : c.Completed m after)
    (h' : c'.Completed (m.rerooted front) after') (hfront : Path.IsValid front)
    (hhas : m.has front = true) (hpath : c.path = Path.join [front, c'.path])
    (hc' : Path.IsValid c'.path) (hlast : c.wantsLast = c'.wantsLast)
    (hcontainers : c.wantsContainers = c'.wantsContainers)
    (hacl : ∀ q, Path.IsValid q → c'.acl q = c.acl (Path.join [front, q])) :
    (after.rerooted front).Alike after' := by
  refine h.consistent.alike_rerooted h'.consistent hfront (fun q hq => ?_) ?_
  · rw [h'.has_iff, h.has_iff, Memory.has_rerooted hfront hq]
    by_cases hroot : q = Path.root
    · rw [hroot, Path.append_root hfront]
      simp [hhas]
    · rw [Creation.ensures_below_iff hfront hpath hc' hlast hq hroot]
  · intro q n n' hq hn hn'
    cases hold : m.find? (Path.join [front, q]) with
    | some first =>
      have hfirst : (m.rerooted front).find? q = some first := by
        rw [Memory.find?_rerooted hfront hq, hold]
      exact (h.kept _ first n hold hn).symm.trans (h'.kept q first n' hfirst hn')
    | none =>
      have hfree := Memory.find?_eq_none_iff.mp hold
      have hmade := h.made _ n hfree hn
      have hmade' := h'.made q n' (by rw [Memory.has_rerooted hfront hq, hfree]) hn'
      have hmode : c'.mode (m.rerooted front).containers = c.mode m.containers := by
        rw [mode, mode, hcontainers, Memory.containers_rerooted]
      refine ⟨?_, ?_, ?_, ?_⟩
      · rw [hmade.data, hmade'.data]
      · rw [hmade.acl, hmade'.acl, hacl q hq]
      · rw [hmade.mode, hmade'.mode, hmode]
      · rw [hmade.version, hmade'.version]

/-- A call deletes the nodes below a path below a node. -/
theorem Removal.removes_below_iff {call call' : Removal} (hfront : Path.IsValid front)
    (hpath : call.path = Path.join [front, call'.path]) (hc' : Path.IsValid call'.path)
    (hself : call.deletesSelf = call'.deletesSelf) {q : String} (hq : Path.IsValid q) :
    call.Removes (Path.join [front, q]) ↔ call'.Removes q := by
  have hremoves : ∀ (r : Removal) (p : String),
      r.Removes p ↔ Path.IsAbove r.path p ∧ (r.deletesSelf = true ∨ p ≠ r.path) :=
    fun r p => ⟨fun h => ⟨h.isAbove, h.self⟩, fun h => ⟨h.1, h.2⟩⟩
  rw [hremoves, hremoves, hpath, hself, Path.isAbove_append_iff hfront hc' hq, ne_eq,
    Path.append_inj hfront hq hc']

theorem Removal.Completed.alike {call call' : Removal} (h : call.Completed m after)
    (h' : call'.Completed (m.rerooted front) after') (hfront : Path.IsValid front)
    (hpath : call.path = Path.join [front, call'.path]) (hc' : Path.IsValid call'.path)
    (hself : call.deletesSelf = call'.deletesSelf) : (after.rerooted front).Alike after' := by
  refine h.consistent.alike_rerooted h'.consistent hfront (fun q hq => ?_) ?_
  · rw [h'.has_iff, h.has_iff, Memory.has_rerooted hfront hq,
      Removal.removes_below_iff hfront hpath hc' hself hq]
  · intro q n n' hq hn hn'
    obtain ⟨first, hold⟩ :=
      Memory.has_iff.mp ((h.has_iff _).mp (Memory.has_of_find? hn)).1
    have hfirst : (m.rerooted front).find? q = some first := by
      rw [Memory.find?_rerooted hfront hq, hold]
    exact (h.kept _ first n hold hn).symm.trans (h'.kept q first n' hfirst hn')

end Concurrency

namespace Tree

open Concurrency

variable {m : Memory} {front p : String} {t t' : Tree}

/-- A tree carries out the operation that it starts at a valid path. -/
theorem alone_below (hp : Path.IsValid p) (nameSpace : Option String) (ambient : Context)
    (demand : Demand) (asked : Bool) (orders : List Arrangement) :
    (t.below nameSpace).alone ambient (.str p) demand m asked orders =
      let s := System.alone m asked ((t.below nameSpace).operationAt ambient
        (nameSpace.elim p fun front => Path.join [front, p]) demand) orders
      (s.memory, (s.outcome 0).map fun outcome =>
        (t.below nameSpace).answer ambient (.str p) outcome demand) := by
  rw [alone, operation_below hp]

/-- Recursive creation answers the path with the namespace in front. -/
theorem answer_mkdirs (hp : Path.IsValid p) (nameSpace : Option String) (ambient : Context)
    (makeLast : Value) :
    (t.below nameSpace).answer ambient (.str p) (.ok .null) (.mkdirs makeLast) =
      .ok (.str (nameSpace.elim p fun front => Path.join [front, p])) := by
  have hfst : ((t.below nameSpace).mkdirs ambient (.str p) makeLast).map Prod.fst =
      (t.below nameSpace).fixPath (.str p) false := by
    rw [mkdirs]
    cases (t.below nameSpace).fixPath (.str p) false <;> rfl
  rw [answer, hfst, fixPath_below hp.fault]
  rfl

section Mirrors

variable {ambient ambient' : Context} (ho : m.closed = false) (hfront : Path.IsValid front)
  (hp : Path.IsValid p)

include ho hfront hp

theorem mirrors_sortedChildren (asked asked' : Bool) {orders orders' : List Arrangement}
    (horders : orders ≠ []) (horders' : orders' ≠ []) :
    Mirrors front .sortedChildren m
      ((t.below (some front)).alone ambient (.str p) .sortedChildren m asked orders)
      ((t'.below none).alone ambient' (.str p) .sortedChildren (m.rerooted front) asked'
        orders') := by
  have hoperation : (t.below (some front)).operationAt ambient (Path.join [front, p])
      .sortedChildren = .sortedChildren (Path.join [front, p]) := rfl
  have hoperation' : (t'.below none).operationAt ambient' p .sortedChildren = .sortedChildren p :=
    rfl
  obtain ⟨hmemory, hout⟩ := System.alone_sortedChildren ho (hfront.append hp) asked horders
  obtain ⟨hmemory', hout'⟩ :=
    System.alone_sortedChildren (m := m.rerooted front) ho hp asked' horders'
  rw [alone_below hp, alone_below hp, Option.elim_some, Option.elim_none, hoperation, hoperation']
  refine ⟨⟨System.sortedAnswer (m.rerooted front) p, ?_, ?_⟩, ?_, ?_⟩
  · simp only [hout', Option.map_some]
    rfl
  · simp only [hout, Option.map_some, System.sortedAnswer, Memory.find?_rerooted hfront hp]
    cases m.find? (Path.join [front, p]) <;> rfl
  · simp only [hmemory, hmemory']
    exact .refl _
  · simp only [hmemory]
    exact .refl front m

variable (hm : m.Reachable) (hkeys : Rekeyed front t t')

include hm hkeys

theorem mirrors_deleteChildren {most : Option Int}
    (hlimit : t.settings.maxDeleteAttempts = Removal.limitValue most) {deleteSelf : Value}
    (hself : deleteSelf.truthy = true → p ≠ Path.root) :
    ∃ enough, ∀ asked asked' orders orders', enough ≤ orders.length → enough ≤ orders'.length →
      Mirrors front (.deleteChildren deleteSelf) m
        ((t.below (some front)).alone ambient (.str p) (.deleteChildren deleteSelf) m asked orders)
        ((t'.below none).alone ambient' (.str p) (.deleteChildren deleteSelf) (m.rerooted front)
          asked' orders') := by
  let call : Removal := ⟨ambient, Path.join [front, p], some deleteSelf, some most⟩
  let call' : Removal := ⟨ambient', p, some deleteSelf, some most⟩
  have hcall : call.Proper :=
    ⟨hfront.append hp, fun htrue => Path.append_ne_root hfront hp (hself htrue)⟩
  have hcall' : call'.Proper := ⟨hp, hself⟩
  have hstays : ¬ call.Removes front := by
    rintro ⟨habove, hgoes⟩
    have hroot : p = Path.root := by
      rw [← Path.isAbove_root_iff, ← Path.isAbove_append_iff hfront hp Path.isValid_root,
        Path.append_root hfront]
      exact habove
    have hpath : front = call.path := by
      simp only [call, hroot, Path.append_root hfront]
    exact hself (hgoes.resolve_right fun hne => hne hpath) hroot
  have hoperation : (t.below (some front)).operationAt ambient call.path
      (.deleteChildren deleteSelf) = call.operation := by
    rw [Removal.operation, Option.map_some, ← hlimit]
    rfl
  have hoperation' : (t'.below none).operationAt ambient' p (.deleteChildren deleteSelf) =
      call'.operation := by
    rw [Removal.operation, Option.map_some, ← hlimit, ← hkeys.maxDeleteAttempts]
    rfl
  obtain ⟨enough, hends⟩ := System.alone_removal hm.consistent ho hcall
  obtain ⟨enough', hends'⟩ :=
    System.alone_removal (m := m.rerooted front) (hm.consistent.rerooted front) ho hcall'
  refine ⟨max enough enough', fun asked asked' orders orders' horders horders' => ?_⟩
  obtain ⟨hout, hdone⟩ := hends asked orders (Nat.le_trans (Nat.le_max_left _ _) horders)
  obtain ⟨hout', hdone'⟩ := hends' asked' orders' (Nat.le_trans (Nat.le_max_right _ _) horders')
  rw [alone_below hp, alone_below hp, Option.elim_some, Option.elim_none, hoperation, hoperation']
  refine ⟨⟨.ok (.int 1), ?_, ?_⟩, ?_, ?_⟩
  · simp only [hout', Option.map_some]
    rfl
  · simp only [hout, Option.map_some]
    rfl
  · exact hdone.alike hdone' hfront rfl hp rfl
  · exact System.spares_alone_removal hm.consistent ho asked hcall (Path.isAbove_append hfront hp)
      hstays orders

theorem mirrors_mkdirs (hhas : m.has front = true) (makeLast : Value) :
    ∃ enough, ∀ asked asked' orders orders', enough ≤ orders.length → enough ≤ orders'.length →
      Mirrors front (.mkdirs makeLast) m
        ((t.below (some front)).alone ambient (.str p) (.mkdirs makeLast) m asked orders)
        ((t'.below none).alone ambient' (.str p) (.mkdirs makeLast) (m.rerooted front) asked'
          orders') := by
  let c : Creation := ⟨ambient, Path.join [front, p], some makeLast, t.provider,
    some t.settings.useContainers⟩
  let c' : Creation := ⟨ambient', p, some makeLast, t'.provider, some t'.settings.useContainers⟩
  have hfull : Path.IsValid c.path := hfront.append hp
  have hroot : m.has Path.root = true := hm.consistent.has_of_isAbove hhas (Path.isAbove_root front)
  have hroot' : (m.rerooted front).has Path.root = true := by
    rw [Memory.has_rerooted hfront Path.isValid_root, Path.append_root hfront, hhas]
  have hcontainers : c.wantsContainers = c'.wantsContainers := by
    simp only [Creation.wantsContainers, c, c', hkeys.useContainers]
  have hoperation : (t.below (some front)).operationAt ambient c.path (.mkdirs makeLast) =
      c.operation := rfl
  have hoperation' : (t'.below none).operationAt ambient' p (.mkdirs makeLast) = c'.operation := rfl
  refine ⟨max (2 * (Path.prefixes c.path).length + 1) (2 * (Path.prefixes p).length + 1), ?_⟩
  intro asked asked' orders orders' horders horders'
  obtain ⟨hout, hdone⟩ := System.alone_creation hm.consistent ho hroot asked hfull
    (Nat.le_trans (Nat.le_max_left _ _) horders)
  obtain ⟨hout', hdone'⟩ := System.alone_creation (c := c') (hm.consistent.rerooted front) ho
    hroot' asked' hp (Nat.le_trans (Nat.le_max_right _ _) horders')
  rw [alone_below hp, alone_below hp, Option.elim_some, Option.elim_none, hoperation, hoperation']
  refine ⟨⟨.ok (.str p), ?_, ?_⟩, ?_, ?_⟩
  · simp only [hout', Option.map_some, answer_mkdirs hp]
    rfl
  · simp only [hout, Option.map_some, answer_mkdirs hp]
    rfl
  · exact hdone.alike hdone' hfront hhas rfl hp rfl hcontainers hkeys.resolve
  · exact System.spares_alone_creation hm ho hroot asked hfull hhas
      (Path.isAbove_append hfront hp) orders

end Mirrors

/-- A namespace is transparent. In an open store in which its node is there, whatever is demanded of
a tree with the namespace at a valid path comes out as it does for a tree without one, set up alike,
on the store below the node: both end, with the same value or the same failure apart from the
namespace in front of the paths, they leave the same nodes, and nothing outside of the namespace has
changed. The one demand to be excepted is to delete the root itself. -/
theorem namespace_transparent (hm : m.Reachable) (ho : m.closed = false)
    (hfront : Path.IsValid front) (hhas : m.has front = true) (hkeys : Rekeyed front t t')
    {most : Option Int} (hlimit : t.settings.maxDeleteAttempts = Removal.limitValue most)
    (hp : Path.IsValid p) (ambient ambient' : Context) {demand : Demand}
    (hdemand : ∀ deleteSelf, demand = .deleteChildren deleteSelf → deleteSelf.truthy = true →
      p ≠ Path.root) :
    ∃ enough, ∀ asked asked' orders orders', enough ≤ orders.length → enough ≤ orders'.length →
      Mirrors front demand m
        ((t.below (some front)).alone ambient (.str p) demand m asked orders)
        ((t'.below none).alone ambient' (.str p) demand (m.rerooted front) asked' orders') := by
  cases demand with
  | mkdirs makeLast => exact mirrors_mkdirs ho hfront hp hm hkeys hhas makeLast
  | deleteChildren deleteSelf =>
    exact mirrors_deleteChildren ho hfront hp hm hkeys hlimit (hdemand deleteSelf rfl)
  | sortedChildren =>
    refine ⟨1, fun asked asked' orders orders' horders horders' => ?_⟩
    exact mirrors_sortedChildren ho hfront hp asked asked' (List.ne_nil_of_length_pos horders)
      (List.ne_nil_of_length_pos horders')

/-- Two nodes are made, one of which has an access control list of its own. -/
theorem namespace_transparent_table :
    let m := ({} : Memory).run [.call (.create "/n" [] [] .persistent),
      .call (.create "/n/a" [] [] .persistent), .call (.create "/b" [] [] .persistent)]
    let settings : Settings := { useContainers := .bool true }
    let table : AclProvider := { overrides := [("/n/a/b", some [⟨.read, "world", "anyone"⟩])] }
    let t : Tree := { settings, provider := some table.policy }
    let t' : Tree := { settings, provider := some (table.rekeyed "/n").policy }
    ∃ enough, ∀ asked asked' orders orders', enough ≤ orders.length → enough ≤ orders'.length →
      Mirrors "/n" (.mkdirs (.bool true)) m
        ((t.below (some "/n")).alone [] (.str "/a/b/c") (.mkdirs (.bool true)) m asked orders)
        ((t'.below none).alone [] (.str "/a/b/c") (.mkdirs (.bool true)) (m.rerooted "/n") asked'
          orders') := by
  intro m settings table t t'
  have hreachable : m.Reachable := ⟨true, _, rfl⟩
  have hopen : m.closed = false := by decide +kernel
  have hfront : Path.IsValid "/n" := by decide
  have hhas : m.has "/n" = true := by decide +kernel
  have hkeys : Rekeyed "/n" t t' := rekeyed_table settings (some table) hfront
  have hlimit : t.settings.maxDeleteAttempts = Removal.limitValue none := rfl
  have hpath : Path.IsValid "/a/b/c" := by decide
  exact namespace_transparent hreachable hopen hfront hhas hkeys hlimit hpath [] [] (by
    intro deleteSelf he
    cases he)

end Tree

end TreeStore
