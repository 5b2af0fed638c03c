import TreeStore.Proofs.Path.Joining
import TreeStore.Tree

/-!
# Operations below a namespace

A tree checks the path that it is given and puts its namespace in front. What becomes of the path
does not depend on the operation, and the namespace, which nobody checks, shows in the joined path:
this is valid exactly if the namespace, joined alone, is.
-/

namespace TreeStore.Tree

/-- The recursive operations of a tree, with their arguments other than the path. -/
inductive Demand where
  /-- Make sure that the nodes along the path exist. -/
  | mkdirs (makeLast : Value)
  /-- Delete every descendant of the node and perhaps the node itself. -/
  | deleteChildren (deleteSelf : Value)
  /-- List the names of the node's children in order. -/
  | sortedChildren

/-- The operation that a tree starts at a path, unless it refuses the path. -/
def operation (t : Tree) (ambient : Context) (path : Value) : Demand → Except Problem Operation
  | .mkdirs makeLast => (t.mkdirs ambient path makeLast).map Prod.snd
  | .deleteChildren deleteSelf => t.deleteChildren ambient path deleteSelf
  | .sortedChildren => t.sortedChildren path

/-- The operation that a tree starts once the namespace is in front of the path. -/
def operationAt (t : Tree) (ambient : Context) (full : String) : Demand → Operation
  | .mkdirs makeLast =>
    .mkdirs ambient full (some makeLast) t.provider (some t.settings.useContainers)
  | .deleteChildren deleteSelf =>
    .deleteChildren ambient full (some deleteSelf) (some t.settings.maxDeleteAttempts)
  | .sortedChildren => .sortedChildren full

/-- A tree with another namespace, or with none. -/
def below (t : Tree) (nameSpace : Option String) : Tree :=
  { t with settings := { t.settings with nameSpace := nameSpace.elim .null .str } }

/-- The path of the node that a namespace stands for. -/
def top (nameSpace : Option String) : String := Path.join nameSpace.toList

variable {t : Tree} {ambient : Context} {path : Value} {demand : Demand} {p : String}
  {nameSpace : Option String}

/-- Every operation starts with the namespace. -/
theorem operation_eq : t.operation ambient path demand =
    (t.fixPath path false).map fun full => t.operationAt ambient full demand := by
  cases demand <;> simp only [operation, mkdirs, deleteChildren, sortedChildren] <;>
    cases t.fixPath path false <;> rfl

theorem fixPath_below_of_error {isOpen : Bool} {problem : Problem}
    (h : Path.checked path isOpen = .error problem) :
    (t.below nameSpace).fixPath path isOpen = .error problem := by
  rw [fixPath, Path.inNamespace, h]
  rfl

/-- A path that a tree accepts is joined to its namespace, if there is one. -/
theorem fixPath_below {isOpen : Bool} (hp : Path.fault p isOpen = none) :
    (t.below nameSpace).fixPath (.str p) isOpen =
      .ok (nameSpace.elim p fun front => Path.join [front, p]) := by
  have hchecked : Path.checked (.str p) isOpen = .ok p := Path.validate_eq_ok_iff.mpr ⟨hp, rfl⟩
  have hne : p ≠ "" := by
    rintro rfl
    cases hp
  rw [fixPath, Path.inNamespace, hchecked]
  cases nameSpace with
  | none => rfl
  | some front => exact Path.joinValues_front front hne

@[simp] theorem top_none : top none = Path.root := Path.join_nil

/-- A valid path lands below a valid namespace, or nowhere valid. -/
theorem isValid_below (hp : Path.IsValid p) :
    Path.IsValid (nameSpace.elim p fun front => Path.join [front, p]) ↔
      Path.IsValid (top nameSpace) := by
  cases nameSpace with
  | none =>
    rw [top_none]
    exact iff_of_true hp Path.isValid_root
  | some front =>
    rw [top, Option.toList_some, Option.elim_some, Path.isValid_join_iff]
    simp [hp.join_singleton, hp]

theorem below_eq_join (hp : Path.IsValid p) (htop : Path.IsValid (top nameSpace)) :
    (nameSpace.elim p fun front => Path.join [front, p]) = Path.join [top nameSpace, p] := by
  cases nameSpace with
  | none => rw [top_none, Option.elim_none, Path.root_append hp]
  | some front =>
    have h : Path.join ([front] ++ [p]) = Path.join [Path.join [front], Path.join [p]] :=
      Path.join_append htop (by rwa [hp.join_singleton])
    rwa [hp.join_singleton] at h

/-- The operation that a tree starts at a valid path. -/
theorem operation_below (hp : Path.IsValid p) :
    (t.below nameSpace).operation ambient (.str p) demand =
      .ok ((t.below nameSpace).operationAt ambient
        (nameSpace.elim p fun front => Path.join [front, p]) demand) := by
  rw [operation_eq, fixPath_below hp.fault]
  rfl

end TreeStore.Tree
