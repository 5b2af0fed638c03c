import TreeStore.Proofs.Settings.Fields
import TreeStore.Settings.Migration
import Mathlib

/-!
# Which migrations end

Which version comes after which is a matter of the steps alone, as long as each of them sets the
version or leaves it unset. A step that repeats the version is refused at once; one that lowers it
is not. So a migration ends unless the versions come back to one that was there before, and it
surely ends where every step raises the version. Only finitely many steps are there to be taken,
which also bounds the rounds that a migration needs.
-/

namespace TreeStore

namespace Migration

variable {step : Migration} {raw : Fields}

/-- A step renames fields and then sets the version to an integer or leaves it unset. -/
structure Tidy (step : Migration) : Prop where
  /-- A version that is set is an integer. -/
  integer : ∀ version, step.target = some version → ∃ n, version = .int n
  /-- A version that is not set stays unset, whatever is renamed. -/
  unset : step.target = none → ∀ raw : Fields, raw.get? versionKey = none →
    (step.apply raw).get? versionKey = none

/-- The version after a step: what it sets, else the one of settings that do not tell. -/
def next (step : Migration) : Value := step.target.getD (.int 1)

/-- Renaming to another name than that of the version leaves it unset. -/
theorem get?_rename {old new : String} (hnew : new ≠ "version")
    (h : raw.get? versionKey = none) : (rename raw old new).get? versionKey = none := by
  unfold rename
  split
  · rw [versionKey, Fields.get?_put_of_ne hnew]
    exact Fields.get?_remove_of_none h _
  · exact h

theorem get?_foldl_rename {renames : List (String × String)}
    (hnames : ∀ names ∈ renames, names.2 ≠ "version") (h : raw.get? versionKey = none) :
    Fields.get? (renames.foldl (fun raw names => rename raw names.1 names.2) raw) versionKey =
      none := by
  induction renames generalizing raw with
  | nil => exact h
  | cons names rest ih =>
    exact ih (fun other ho => hnames other (List.mem_cons_of_mem _ ho))
      (get?_rename (hnames names List.mem_cons_self) h)

/-- A step is tidy if it sets an integer, or sets nothing and renames no field to the version. -/
theorem tidy_of_renames (hinteger : ∀ version, step.target = some version → ∃ n, version = .int n)
    (hrenames : ∀ names ∈ step.renames, names.2 ≠ "version") : step.Tidy := by
  refine ⟨hinteger, fun hnone raw h => ?_⟩
  simp only [apply, hnone]
  exact get?_foldl_rename hrenames h

/-- The step from the first version is tidy. -/
theorem tidy_first : first.Tidy := by
  apply tidy_of_renames
  · rintro version ⟨⟩
    exact ⟨2, rfl⟩
  · decide

/-- What is left of settings has no version. -/
theorem get?_takeVersion (raw : Fields) : (takeVersion raw).2.get? versionKey = none :=
  Fields.get?_remove raw versionKey

/-- After a step the version is the step's own, whatever the settings hold. -/
theorem takeVersion_apply (tidy : step.Tidy) (h : raw.get? versionKey = none) :
    (takeVersion (step.apply raw)).1 = step.next := by
  cases htarget : step.target with
  | none => simp [takeVersion, next, htarget, tidy.unset htarget raw h]
  | some version =>
    simp only [takeVersion, next, apply, htarget]
    rw [versionKey, Fields.get?_put]

/-- The version after a step is an integer. -/
theorem next_integer (tidy : step.Tidy) : ∃ n, step.next = .int n := by
  cases htarget : step.target with
  | none => exact ⟨1, by simp [next, htarget]⟩
  | some version =>
    obtain ⟨n, rfl⟩ := tidy.integer version htarget
    exact ⟨n, by simp [next, htarget]⟩

end Migration

namespace Schema

open Migration Relation

variable {schema : Schema} {file : String} {v next : Value} {raw rest : Fields}

/-- A migration goes on from a version to the next one: the version is old and can be written, and
the step from it sets another one. -/
inductive Follows (schema : Schema) : Value → Value → Prop
  | step {v : Value} {step : Migration} (older : schema.isOlder? v = some true)
      (short : v.isOverlong = false) (found : schema.step? v = some step)
      (moved : step.next.same v = false) : Follows schema v step.next

/-- The versions after the first one come back to one of them. -/
def Circles (schema : Schema) (first : Value) : Prop :=
  ∃ v, ReflTransGen schema.Follows first v ∧ TransGen schema.Follows v v

theorem mem_of_step? {step : Migration} (h : schema.step? v = some step) :
    step ∈ schema.migrations :=
  List.mem_reverse.mp (List.mem_of_find?_eq_some h)

/-- What a round can be: a version of a wrong kind, one that needs no step or has none, one that is
too long to look for a step, a step that repeats the version, or one that goes on. -/
theorem advance_cases (schema : Schema) (file : String) (v : Value) (raw : Fields) :
    (schema.isOlder? v = none ∧ schema.advance file v raw = .settled (.error .wrongType)) ∨
    schema.advance file v raw = .settled (schema.accept v raw) ∨
    (schema.isOlder? v = some true ∧ v.isOverlong = true ∧
      schema.advance file v raw = .settled (.error (.argument .overlongNumber))) ∨
    ∃ step, schema.isOlder? v = some true ∧ v.isOverlong = false ∧ schema.step? v = some step ∧
      ((takeVersion (step.apply raw)).1.same v = true ∧
          schema.advance file v raw = .settled (.error (.ofSettings (.stuckMigration file v))) ∨
        (takeVersion (step.apply raw)).1.same v = false ∧
          schema.advance file v raw = .onwards (takeVersion (step.apply raw)).1
            (takeVersion (step.apply raw)).2) := by
  unfold advance
  cases older : schema.isOlder? v with
  | none => exact .inl ⟨rfl, rfl⟩
  | some isOlder =>
    cases isOlder with
    | false => exact .inr (.inl rfl)
    | true =>
      cases short : v.isOverlong with
      | true => exact .inr (.inr (.inl ⟨rfl, rfl, rfl⟩))
      | false =>
        cases found : schema.step? v with
        | none => exact .inr (.inl rfl)
        | some step =>
          refine .inr (.inr (.inr ⟨step, rfl, rfl, rfl, ?_⟩))
          cases moved : (takeVersion (step.apply raw)).1.same v with
          | true => exact .inl ⟨rfl, by simp [moved]⟩
          | false => exact .inr ⟨rfl, by simp [moved]⟩

/-- A round goes on exactly to the version that follows. -/
theorem advance_eq_onwards (file : String) (tidy : ∀ step ∈ schema.migrations, step.Tidy)
    (hraw : raw.get? versionKey = none) (hfollows : schema.Follows v next) :
    ∃ rest, schema.advance file v raw = .onwards next rest ∧ rest.get? versionKey = none := by
  obtain ⟨older, short, found, moved⟩ := hfollows
  rename_i step
  have hnext := takeVersion_apply (tidy step (mem_of_step? found)) hraw
  refine ⟨(takeVersion (step.apply raw)).2, ?_, get?_takeVersion _⟩
  simp [advance, older, short, found, hnext, moved]

theorem follows_of_advance (tidy : ∀ step ∈ schema.migrations, step.Tidy)
    (hraw : raw.get? versionKey = none) (h : schema.advance file v raw = .onwards next rest) :
    schema.Follows v next ∧ rest.get? versionKey = none := by
  rcases schema.advance_cases file v raw with
    ⟨-, ha⟩ | ha | ⟨-, -, ha⟩ | ⟨step, older, short, found, ⟨-, ha⟩ | ⟨moved, ha⟩⟩
  all_goals rw [ha] at h; cases h
  rw [takeVersion_apply (tidy step (mem_of_step? found)) hraw] at moved ⊢
  exact ⟨.step older short found moved, get?_takeVersion _⟩

/-- Rounds that are over stay over if more are allowed. -/
theorem rounds_mono {result : Except Problem Fields} {count more : Nat} (hle : count ≤ more)
    (h : schema.rounds file count v raw = some result) :
    schema.rounds file more v raw = some result := by
  induction count generalizing v raw more with
  | zero => cases h
  | succ count ih =>
    obtain ⟨more, rfl⟩ : ∃ m, more = m + 1 := ⟨more - 1, by omega⟩
    rw [rounds] at h ⊢
    cases hadvance : schema.advance file v raw with
    | settled result => simpa [hadvance] using h
    | onwards next rest =>
      simp only [hadvance] at h ⊢
      exact ih (by omega) h

/-- In a circle there is always a version that follows. -/
theorem Circles.follows (h : schema.Circles v) : ∃ next, schema.Follows v next ∧
    schema.Circles next := by
  obtain ⟨w, hreach, hcircle⟩ := h
  rcases hreach.cases_head with rfl | ⟨next, hnext, hreach⟩
  · obtain ⟨next, hnext, hback⟩ := TransGen.head'_iff.mp hcircle
    exact ⟨next, hnext, v, hback, hcircle⟩
  · exact ⟨next, hnext, w, hreach, hcircle⟩

/-- No number of rounds is enough for a circle. -/
theorem Circles.endless (tidy : ∀ step ∈ schema.migrations, step.Tidy) (h : schema.Circles v)
    (hraw : raw.get? versionKey = none) (count : Nat) : schema.rounds file count v raw = none := by
  induction count generalizing v raw with
  | zero => rfl
  | succ count ih =>
    obtain ⟨next, hfollows, hnext⟩ := h.follows
    obtain ⟨rest, hadvance, hrest⟩ := advance_eq_onwards file tidy hraw hfollows
    rw [rounds, hadvance]
    exact ih hnext hrest

/-- Rounds that are not over went through as many versions. -/
theorem exists_chain_of_rounds (tidy : ∀ step ∈ schema.migrations, step.Tidy)
    (hraw : raw.get? versionKey = none) {count : Nat}
    (h : schema.rounds file count v raw = none) :
    ∃ chain : Nat → Value, chain 0 = v ∧ ∀ i < count, schema.Follows (chain i) (chain (i + 1)) := by
  induction count generalizing v raw with
  | zero => exact ⟨fun _ => v, rfl, fun i hi => absurd hi (Nat.not_lt_zero i)⟩
  | succ count ih =>
    rw [rounds] at h
    cases hadvance : schema.advance file v raw with
    | settled result => simp [hadvance] at h
    | onwards next rest =>
      obtain ⟨hfollows, hrest⟩ := follows_of_advance tidy hraw hadvance
      simp only [hadvance] at h
      obtain ⟨chain, rfl, hchain⟩ := ih hrest h
      refine ⟨fun i => i.casesOn v chain, rfl, fun i hi => ?_⟩
      cases i with
      | zero => exact hfollows
      | succ i => exact hchain i (by omega)

theorem reflTransGen_chain {chain : Nat → Value} {count : Nat}
    (hchain : ∀ i < count, schema.Follows (chain i) (chain (i + 1))) {i j : Nat} (hij : i ≤ j)
    (hj : j ≤ count) : ReflTransGen schema.Follows (chain i) (chain j) := by
  induction j, hij using Nat.le_induction with
  | base => exact .refl
  | succ j _ ih => exact (ih (by omega)).tail (hchain j (by omega))

/-- A chain with more links than there are steps takes one step twice, and so comes back to the
version that this step sets. -/
theorem circles_of_chain {chain : Nat → Value} {count : Nat}
    (hchain : ∀ i < count, schema.Follows (chain i) (chain (i + 1)))
    (hcount : schema.migrations.length < count) : schema.Circles (chain 0) := by
  have htaken : ∀ i : Fin count, ∃ j : Fin schema.migrations.length,
      chain (i + 1) = schema.migrations[j].next := by
    intro i
    have hfollows := hchain i i.isLt
    generalize hnext : chain (i + 1) = next at hfollows
    obtain ⟨-, -, found, -⟩ := hfollows
    obtain ⟨j, hj, hstep⟩ := List.getElem_of_mem (mem_of_step? found)
    exact ⟨⟨j, hj⟩, by simp [hstep]⟩
  choose taken htaken using htaken
  obtain ⟨i, j, hne, hsame⟩ := Fintype.exists_ne_map_eq_of_card_lt taken (by simpa using hcount)
  wlog hij : i < j generalizing i j
  · exact this j i (Ne.symm hne) hsame.symm (by omega)
  have hback : chain (i + 1) = chain (j + 1) := by rw [htaken, htaken, hsame]
  have hon := reflTransGen_chain hchain (i := i + 1) (j := j) (by omega) (by omega)
  refine ⟨chain (i + 1), reflTransGen_chain hchain (Nat.zero_le _) (by omega), ?_⟩
  have hcircle := TransGen.tail' hon (hchain j j.isLt)
  rwa [← hback] at hcircle

theorem before?_int {a b : Int} : (Value.int a).before? (.int b) = some true ↔ a < b := by
  simp [Value.before?, Value.number?, Value.Number.compare?, compare_lt_iff_lt]

/-- Versions that only rise never come back. -/
theorem not_circles_of_rising (tidy : ∀ step ∈ schema.migrations, step.Tidy)
    (rising : ∀ w next, ReflTransGen schema.Follows v w → schema.Follows w next →
      w.before? next = some true) : ¬ schema.Circles v := by
  rintro ⟨w, hreach, hcircle⟩
  have hinteger : ∀ {w next}, schema.Follows w next → ∃ n, next = .int n := by
    rintro w next ⟨-, -, found, -⟩
    exact next_integer (tidy _ (mem_of_step? found))
  obtain ⟨u, -, hlast⟩ := TransGen.tail'_iff.mp hcircle
  obtain ⟨n, rfl⟩ := hinteger hlast
  have hrise : ∀ {w}, TransGen schema.Follows (.int n) w → ∃ m, w = .int m ∧ n < m := by
    intro w hw
    induction hw with
    | single hnext =>
      obtain ⟨m, rfl⟩ := hinteger hnext
      exact ⟨m, rfl, before?_int.mp (rising _ _ hreach hnext)⟩
    | tail hw hnext ih =>
      obtain ⟨m, rfl, hm⟩ := ih
      obtain ⟨k, rfl⟩ := hinteger hnext
      have hk := before?_int.mp (rising _ _ (hreach.trans hw.to_reflTransGen) hnext)
      exact ⟨k, rfl, hm.trans hk⟩
  obtain ⟨m, hm, hlt⟩ := hrise hcircle
  cases hm
  exact lt_irrefl n hlt

/-- More rounds are allowed than there are steps. -/
theorem length_lt_enough (schema : Schema) (raw : Fields) :
    schema.migrations.length < schema.enough raw := by
  have hrounds : schema.migrations.length + 1 ≤ (raw.length + 1) * (schema.migrations.length + 1) :=
    Nat.le_mul_of_pos_left _ (Nat.succ_pos _)
  have hnames : (raw.length + 1) * (schema.migrations.length + 1) ≤ schema.enough raw :=
    Nat.le_mul_of_pos_right _ (Nat.succ_pos _)
  omega

/-- Rounds that are not over after each step could have been taken are in a circle. -/
theorem circles_of_rounds (tidy : ∀ step ∈ schema.migrations, step.Tidy)
    (hraw : raw.get? versionKey = none) {count : Nat} (hcount : schema.migrations.length < count)
    (h : schema.rounds file count v raw = none) : schema.Circles v := by
  obtain ⟨chain, rfl, hchain⟩ := exists_chain_of_rounds tidy hraw h
  exact circles_of_chain hchain hcount

theorem migrate?_eq (schema : Schema) (file : String) (raw : Fields) :
    schema.migrate? file raw =
      schema.rounds file (schema.enough raw) (takeVersion raw).1 (takeVersion raw).2 := rfl

/-- The rounds that a migration is given are enough for it to end, if it ends at all. -/
theorem migrate?_eq_some_iff (tidy : ∀ step ∈ schema.migrations, step.Tidy)
    (result : Except Problem Fields) :
    schema.migrate? file raw = some result ↔
      ∃ count, schema.rounds file count (takeVersion raw).1 (takeVersion raw).2 = some result := by
  have hnone := get?_takeVersion raw
  rw [migrate?_eq]
  generalize (takeVersion raw).1 = v, (takeVersion raw).2 = rest at hnone ⊢
  constructor
  · intro h
    exact ⟨_, h⟩
  · rintro ⟨count, h⟩
    cases hmigrate : schema.rounds file (schema.enough raw) v rest with
    | none =>
      have hcircles := circles_of_rounds tidy hnone (length_lt_enough schema raw) hmigrate
      rw [hcircles.endless tidy hnone] at h
      cases h
    | some other =>
      have hmore := rounds_mono (Nat.le_max_left count (schema.enough raw)) h
      have hother := rounds_mono (Nat.le_max_right count (schema.enough raw)) hmigrate
      exact hother.symm.trans hmore

/-- A migration whose versions do not come back ends. -/
theorem exists_migrate? (tidy : ∀ step ∈ schema.migrations, step.Tidy)
    (hcircles : ¬ schema.Circles (takeVersion raw).1) :
    ∃ result, schema.migrate? file raw = some result := by
  rw [← Option.isSome_iff_exists, Option.isSome_iff_ne_none]
  intro h
  have hnone := get?_takeVersion raw
  exact hcircles (circles_of_rounds tidy hnone (length_lt_enough schema raw) h)

/-- A version that was reached is left in no better way than by a step from it. -/
theorem exists_rounds_of_reached (file : String)
    (tidy : ∀ step ∈ schema.migrations, step.Tidy) (hreach : ReflTransGen schema.Follows v next)
    (hraw : raw.get? versionKey = none) :
    ∃ rest : Fields, rest.get? versionKey = none ∧ ∃ before, ∀ count,
      schema.rounds file (before + count) v raw = schema.rounds file count next rest := by
  induction hreach using ReflTransGen.head_induction_on generalizing raw with
  | refl => exact ⟨raw, hraw, 0, fun count => by rw [Nat.zero_add]⟩
  | head hfollows _ ih =>
    obtain ⟨rest, hadvance, hrest⟩ := advance_eq_onwards file tidy hraw hfollows
    obtain ⟨last, hlast, before, heq⟩ := ih hrest
    refine ⟨last, hlast, before + 1, fun count => ?_⟩
    rw [Nat.add_right_comm, rounds, hadvance]
    exact heq count

/-- For steps that set the version to an integer or leave it unset: a migration ends exactly if the
versions do not come back to one of them, and then the rounds that it is given are enough. A step
that repeats the version ends it at once, and it ends if every other step raises the version. A step
that lowers the version is taken like any other. -/
theorem migration_ends_iff (schema : Schema) (file : String) (raw : Fields)
    (tidy : ∀ step ∈ schema.migrations, step.Tidy) :
    ((∃ result, schema.migrate? file raw = some result) ↔
      ¬ schema.Circles (takeVersion raw).1) ∧
    (∀ result, schema.migrate? file raw = some result ↔
      ∃ count, schema.rounds file count (takeVersion raw).1 (takeVersion raw).2 = some result) ∧
    (∀ v step, ReflTransGen schema.Follows (takeVersion raw).1 v → schema.isOlder? v = some true →
      v.isOverlong = false → schema.step? v = some step → step.next.same v = true →
      schema.migrate? file raw = some (.error (.settings (.stuckMigration file v)))) ∧
    ((∀ v next, ReflTransGen schema.Follows (takeVersion raw).1 v → schema.Follows v next →
      v.before? next = some true) → ∃ result, schema.migrate? file raw = some result) := by
  have hnone := get?_takeVersion raw
  refine ⟨⟨?_, exists_migrate? tidy⟩, migrate?_eq_some_iff tidy, ?_, fun rising => ?_⟩
  · rintro ⟨result, h⟩ hcircles
    rw [migrate?_eq, hcircles.endless tidy hnone] at h
    cases h
  · intro v step hreach older short found same
    obtain ⟨rest, hrest, before, heq⟩ := exists_rounds_of_reached file tidy hreach hnone
    have hnext := takeVersion_apply (tidy step (mem_of_step? found)) hrest
    rw [migrate?_eq_some_iff tidy]
    refine ⟨before + 1, (heq 1).trans ?_⟩
    simp [rounds, advance, older, short, found, hnext, same, Problem.ofSettings, Problem.showing,
      SettingsFault.shown, Value.anyOverlong]
  · exact exists_migrate? tidy (not_circles_of_rising tidy rising)

/-- Steps of which the second one renames a field and forgets about the version. -/
def forgetful : Schema :=
  { current := 3, migrations := [.first, { source := "2", renames := [("path", "namespace")] }] }

/-- A forgotten version is the first one again, and the migration goes round in a circle. -/
theorem migration_ends_iff_forgotten :
    (∀ step ∈ forgetful.migrations, step.Tidy) ∧
      ¬ ∃ result, forgetful.migrate? "config.yml" [(.str "path", .str "/a")] = some result := by
  have tidy : ∀ step ∈ forgetful.migrations, step.Tidy := by
    simp only [forgetful, List.forall_mem_cons]
    refine ⟨tidy_first, tidy_of_renames ?_ (by decide), by simp⟩
    rintro version ⟨⟩
  refine ⟨tidy, fun hends => ?_⟩
  have hnot :=
    (migration_ends_iff forgetful "config.yml" [(.str "path", .str "/a")] tidy).1.mp hends
  have hup : forgetful.Follows (.int 1) Migration.first.next :=
    .step (by cbv) (by cbv) (by cbv) (by cbv)
  have hdown : forgetful.Follows (.int 2)
      (Migration.next { source := "2", renames := [("path", "namespace")] }) :=
    .step (by cbv) (by cbv) (by cbv) (by cbv)
  exact hnot ⟨.int 1, .refl, .tail (.single hup) hdown⟩

/-- Steps of which the second one sets the first version again. -/
def relapsing : Schema :=
  { current := 3, migrations := [.first, { source := "2", target := some (.int 1) }] }

/-- A step that lowers the version is taken like any other: with the first step it is taken again
and again, and with a better step from the lower version the settings are accepted. -/
theorem lowering_goes_on :
    (∀ step ∈ relapsing.migrations, step.Tidy) ∧
      (∀ count, relapsing.rounds "config.yml" count (.int 1) [] = none) ∧
      Schema.migrate? { relapsing with
          migrations := relapsing.migrations ++ [{ source := "1", target := some (.int 3) }] }
        "config.yml" [(versionKey, .int 2)] = some (.ok []) := by
  have tidy : ∀ step ∈ relapsing.migrations, step.Tidy := by
    simp only [relapsing, List.forall_mem_cons]
    refine ⟨tidy_first, tidy_of_renames ?_ (by decide), by simp⟩
    rintro version ⟨⟩
    exact ⟨1, rfl⟩
  have hup : relapsing.Follows (.int 1) Migration.first.next :=
    .step (by cbv) (by cbv) (by cbv) (by cbv)
  have hdown : relapsing.Follows (.int 2)
      (Migration.next { source := "2", target := some (.int 1) }) :=
    .step (by cbv) (by cbv) (by cbv) (by cbv)
  have hcircles : relapsing.Circles (.int 1) := ⟨.int 1, .refl, .tail (.single hup) hdown⟩
  exact ⟨tidy, hcircles.endless tidy rfl, by cbv⟩

end Schema

end TreeStore
