import TreeStore.Proofs.Concurrency.Alone
import TreeStore.Proofs.Workspace.Lockstep

/-!
# Recursive operations over workspace directories

A recursive operation takes the same steps over a service that keeps a tree of directories as over a
store in memory that holds the tree, if the store lists names in the order of the service. How the
operation ends over the store does not depend on that order, so that it ends in the same way over
the service.
-/

namespace TreeStore

namespace Concurrency

/-- The next call of each operation is modest. -/
def System.Modest (s : System) : Prop :=
  ∀ operation ∈ s.operations, ∀ call resume, operation.next = .calling call resume →
    call.Modest s.memory

namespace System

variable {m : Memory} {tree : DirectoryTree} {asked : Bool}

end System

/-- The operations that make sense for a tree of directories: recursive creation, recursive deletion
that leaves the root, and ordered listing, each of a valid path and with any options. -/
inductive Feasible : Operation → Prop
  | creation (c : Creation) (valid : Path.IsValid c.path) : Feasible c.operation
  | removal (call : Removal) (proper : call.Proper) : Feasible call.operation
  | listing (path : String) (valid : Path.IsValid path) : Feasible (.sortedChildren path)

namespace Feasible

variable {m : Memory} {tree : DirectoryTree} {operation : Operation}

/-- Over a store in memory, each of the operations ends, and how it ends and which nodes it leaves
does not depend on the order of listings. -/
theorem settles (h : Feasible operation) (hm : m.Holds tree) :
    ∃ (enough : Nat) (outcome : Answer) (left : String → Prop),
      ∀ (asked : Bool) (orders : List Arrangement), enough ≤ orders.length →
        let s := System.alone m asked operation orders
        s.outcome 0 = some outcome ∧ ∀ q, s.memory.has q = true ↔ left q := by
  cases h with
  | creation c valid =>
    refine ⟨2 * (Path.prefixes c.path).length + 1, .ok .null,
      fun q => m.has q = true ∨ c.Ensures q, fun asked orders horders => ?_⟩
    obtain ⟨hdone, hcompleted⟩ :=
      System.alone_creation hm.consistent hm.opened hm.has_root asked valid horders
    exact ⟨hdone, hcompleted.has_iff⟩
  | removal call proper =>
    obtain ⟨enough, hends⟩ := System.alone_removal hm.consistent hm.opened proper
    refine ⟨enough, .ok (.int 1), fun q => m.has q = true ∧ ¬ call.Removes q,
      fun asked orders horders => ?_⟩
    obtain ⟨hdone, hcompleted⟩ := hends asked orders horders
    exact ⟨hdone, hcompleted.has_iff⟩
  | listing path valid =>
    refine ⟨1, System.sortedAnswer m path, fun q => m.has q = true, fun asked orders horders => ?_⟩
    have hne : orders ≠ [] := by
      rintro rfl
      exact absurd horders (by decide)
    obtain ⟨hsame, hdone⟩ := System.alone_sortedChildren hm.opened valid asked hne
    exact ⟨hdone, fun q => by rw [hsame]⟩

end Feasible

end Concurrency

namespace Workspace

open Concurrency

/-- An operation over a service, and one over a store in memory that holds the tree which the
service keeps by now. Neither store can create containers, as far as anything is known about it. -/
structure Parallel (tree : DirectoryTree) (here : Operation × Dialogue) (s : System) : Prop where
  /-- The operations are abreast. -/
  operations : ∃ twin, s.operations = [twin] ∧ here.1.Abreast twin
  /-- The store holds the tree. -/
  holds : s.memory.Holds (tree.afterAll (requests here.2.exchanges))
  /-- The mode for containers over the store in memory. -/
  mode : s.containerMode = .persistent
  /-- The mode for containers over the service. -/
  known : ∀ mode, here.2.known = some mode → mode = .persistent

section Whole

variable {service : Service} {tree : DirectoryTree} {m : Memory} {operation : Operation}
  {here : Operation × Dialogue} {s : System}

/-- The mode for containers that an operation over a service goes on with. -/
theorem choice_over (service : Service) (context : Context) {d : Dialogue}
    (hd : ∀ mode, d.known = some mode → mode = .persistent) :
    ∃ after, (storeOver service).choice context d = (.ok .persistent, after) ∧
      requests after.exchanges = requests d.exchanges ∧
      ∀ mode, after.known = some mode → mode = .persistent := by
  cases hknown : d.known with
  | some mode =>
    obtain rfl := hd mode hknown
    refine ⟨d, ?_, rfl, hd⟩
    rw [Respondent.choice, hknown]
  | none =>
    let asked := d.heard .capability (.ok (.bool false))
    refine ⟨(asked.reported ((storeOver service).remarks context .persistent)).learnt .persistent,
      ?_, ?_, ?_⟩
    · rw [Respondent.choice, hknown]
      simp only [answer_over_capability]
      rfl
    · exact (requests_append d.exchanges [_]).trans (List.append_nil _)
    · exact fun mode hmode => (Option.some.inj hmode).symm

/-- While the operation goes on over the service, it does over the store in memory, in a suitable
order of listings. -/
theorem Parallel.step (hservice : service.Keeps tree) (h : Parallel tree here s)
    (hs : s.Modest) {around own : Context} (hscoped : here.1.Scoped around own)
    (ambient : Context) :
    ∃ order there, (storeOver service).Reaches ambient here there ∧
      Parallel tree there (s.step (.turn ⟨0, order⟩)) := by
  obtain ⟨operation, d⟩ := here
  obtain ⟨twin, hoperations, habreast⟩ := h.operations
  have ho : s.operations[0]? = some twin := by rw [hoperations]; rfl
  cases hn : operation.next with
  | finished outcome =>
    obtain ⟨outcome', hn', -⟩ := habreast.symm.finished hn
    refine ⟨.of [], (operation, d), .refl, ?_⟩
    rwa [System.step_of_finished ho hn']
  | calling call resume =>
    obtain rfl := habreast.eq (by simp [hn])
    obtain ⟨order, hstep⟩ := exists_inStep (hservice _) h.holds
      (hs twin (by simp [hoperations]) call resume hn)
    refine ⟨order, _, .single (Respondent.steps_of_calling hn (storeOver service) ambient d), ?_⟩
    rw [System.step_of_calling ho hn order]
    refine ⟨⟨_, by rw [hoperations]; rfl, Operation.abreast_resume hscoped hn hstep.answers⟩,
      ?_, ?_, h.known⟩
    · have hholds := hstep.holds
      rw [← DirectoryTree.afterAll_append,
        ← requests_singleton call ((storeOver service).answer d.exchanges call),
        ← requests_append] at hholds
      exact hholds
    · have hcontainers := hstep.holds.containers.trans h.holds.containers.symm
      rw [← h.mode]
      exact congrArg (fun c => s.shared.known.getD (Client.modeOf (.bool c))) hcontainers
  | choosing resume =>
    obtain rfl := habreast.eq (by simp [hn])
    obtain ⟨asked, -, he⟩ := System.step_of_choosing ho hn (.of [])
    obtain ⟨after, hchoice, hrequests, hafter⟩ :=
      choice_over service (twin.context ambient) h.known
    have hstep := Respondent.steps_of_choosing hn (storeOver service) ambient d
    rw [hchoice] at hstep
    refine ⟨.of [], _, .single hstep, ?_⟩
    rw [he, h.mode]
    refine ⟨⟨_, by rw [hoperations]; rfl, .same _⟩, ?_, rfl, hafter⟩
    have hholds := h.holds
    rw [← hrequests] at hholds
    exact hholds

end Whole

end Workspace

end TreeStore
