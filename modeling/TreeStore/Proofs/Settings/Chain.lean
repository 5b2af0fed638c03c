import TreeStore.Proofs.Settings.Reading

/-!
# Chains of migrations

Where each step sets a later version, a migration takes the step from the version that it starts
with, the step from the version which that one sets, and so on, until there is none or the current
version is reached. No step is taken twice. What is left is made of the fields by the renames of
these steps, one after the other, and it is accepted exactly if the chain ends in the current
version.
-/

namespace TreeStore

namespace Digits

/-- The decimal digits of a number hold no sign. -/
theorem minus_not_mem_decimal (n : Nat) : '-' ∉ decimal n := by
  intro h
  cases Nat.isDigit_of_mem_toDigits (by decide) (by decide) h

/-- Different integers are written differently. -/
theorem signed_injective : Function.Injective signed := by
  have hdecimal : ∀ {m n : Nat}, decimal m = decimal n → m = n := by
    intro m n h
    rw [← ofDecimal_decimal m, h, ofDecimal_decimal]
  intro a b h
  cases a with
  | ofNat m =>
    cases b with
    | ofNat n => rw [hdecimal h]
    | negSucc n =>
      have hminus : '-' ∈ signed (.ofNat m) := by
        rw [h]
        exact List.mem_cons_self
      exact absurd hminus (minus_not_mem_decimal m)
  | negSucc m =>
    cases b with
    | ofNat n =>
      have hminus : '-' ∈ signed (.ofNat n) := by
        rw [← h]
        exact List.mem_cons_self
      exact absurd hminus (minus_not_mem_decimal n)
    | negSucc n => rw [Nat.succ_injective (hdecimal (List.cons_inj_right _ |>.mp h))]

end Digits

namespace Value

/-- Different integers are shown differently. -/
theorem display_int_inj {a b : Int} : (int a).display = (int b).display ↔ a = b := by
  have hdisplay (n : Int) : (int n).display = String.ofList (Digits.signed n) := by
    simp [display, literal]
  rw [hdisplay, hdisplay, String.ofList_inj, Digits.signed_injective.eq_iff]

/-- Integers are worth the same only if they are equal. -/
theorem same_int {a b : Int} : (int a).same (int b) = decide (a = b) := by
  rw [Bool.eq_iff_iff]
  simp [same, sameNumber, number?, Number.compare?]

end Value

/-- A key that holds nothing need not be removed. -/
theorem Fields.remove_of_get?_eq_none {fields : Fields} {key : Value} (h : fields.get? key = none) :
    remove key fields = fields := by
  rw [get?_eq_none_iff] at h
  rw [remove, List.filter_eq_self]
  intro f hf
  rw [h f hf]
  rfl

/-- A field that is removed need not have been put. -/
theorem Fields.remove_put_self (s : String) (value : Value) (fields : Fields) :
    remove (.str s) (put (.str s) value fields) = remove (.str s) fields := by
  induction fields with
  | nil => simp [put, remove, sameKey_str_iff]
  | cons f rest ih =>
    obtain ⟨k, v⟩ := f
    rw [remove] at ih
    by_cases hk : k.sameKey (.str s) = true
    · simp [put, remove, hk]
    · simp [put, remove, hk, ih]

namespace Migration

variable {step : Migration} {version : Value} {raw : Fields}

/-- What the renames of a step make of fields. One that they give the name of the version makes way
for the version that the step sets, and goes with it. -/
def renamed (step : Migration) (raw : Fields) : Fields :=
  Fields.remove versionKey (step.renames.foldl (fun raw names => rename raw names.1 names.2) raw)

/-- A step that sets a version leads to this version and renames the fields. -/
theorem takeVersion_apply_of_target (h : step.target = some version) :
    takeVersion (step.apply raw) = (version, step.renamed raw) := by
  have happly : step.apply raw =
      (step.renames.foldl (fun raw names => rename raw names.1 names.2) raw).put versionKey
        version := by
    rw [apply, h]
  rw [takeVersion, happly, versionKey, Fields.get?_put, Fields.remove_put_self]
  rfl

/-- Renames that give no field the name of the version are carried out as they are. -/
theorem foldl_renamed {steps : List Migration}
    (hnames : ∀ step ∈ steps, ∀ names ∈ step.renames, names.2 ≠ "version")
    (hraw : raw.get? versionKey = none) :
    steps.foldl (fun raw step => step.renamed raw) raw =
      (steps.flatMap Migration.renames).foldl (fun raw names => rename raw names.1 names.2)
        raw := by
  induction steps generalizing raw with
  | nil => rfl
  | cons step rest ih =>
    have hunset := get?_foldl_rename (hnames step List.mem_cons_self) hraw
    have hstep : step.renamed raw =
        step.renames.foldl (fun raw names => rename raw names.1 names.2) raw :=
      Fields.remove_of_get?_eq_none hunset
    rw [List.foldl_cons, List.flatMap_cons, List.foldl_append, hstep]
    exact ih (fun other ho => hnames other (List.mem_cons_of_mem _ ho)) hunset

end Migration

namespace Schema

open Migration

variable {schema : Schema} {file : String} {v t last : Int} {step : Migration}
  {steps : List Migration} {raw : Fields}

/-- Steps from versions below the current one, each of which sets a later version. A step that
another one from the same version replaces does not count. -/
structure Rising (schema : Schema) : Prop where
  /-- A step that is found starts from one integer and sets a larger one. -/
  rises : ∀ version step, schema.step? version = some step → ∃ k t : Int,
    1 ≤ k ∧ k < schema.current ∧ step.source = (Value.int k).display ∧
      step.target = some (.int t) ∧ k < t

/-- The steps that lead from a version to the last one: as long as the version is older than the
current one and has a step, this one, and then those from the version that it sets. A version with
too many digits to be written has no step. -/
inductive Leads (schema : Schema) : Int → List Migration → Int → Prop
  | stays {v : Int} (h : schema.current ≤ v ∨ (Value.int v).isOverlong = true ∨
      schema.step? (.int v) = none) : Leads schema v [] v
  | goes {v t last : Int} {step : Migration} {steps : List Migration} (older : v < schema.current)
      (short : (Value.int v).isOverlong = false) (found : schema.step? (.int v) = some step)
      (sets : step.target = some (.int t)) (more : Leads schema t steps last) :
      Leads schema v (step :: steps) last

/-- The rounds of a migration: the steps that they carry out, one after the other, and the result.
-/
inductive Carries (schema : Schema) (file : String) :
    Value → Fields → List Migration → Except Problem Fields → Prop
  | settled {v : Value} {raw : Fields} {result : Except Problem Fields}
      (round : schema.advance file v raw = .settled result) : Carries schema file v raw [] result
  | onwards {v next : Value} {raw rest : Fields} {step : Migration} {steps : List Migration}
      {result : Except Problem Fields} (found : schema.step? v = some step)
      (round : schema.advance file v raw = .onwards next rest)
      (more : Carries schema file next rest steps result) :
      Carries schema file v raw (step :: steps) result

/-- What comes of fields at the end of a chain. -/
def outcome (schema : Schema) (raw : Fields) (steps : List Migration) (last : Int) :
    Except Problem Fields :=
  if last = schema.current then .ok (steps.foldl (fun raw step => step.renamed raw) raw)
  else .error (.ofSettings (.wrongVersion schema.current (.int last)))

/-- Rising steps start from a version that is at least the first, and set a later one. -/
theorem Rising.of_step? (rising : schema.Rising) (h : schema.step? (.int v) = some step) :
    1 ≤ v ∧ step.source = (Value.int v).display ∧ ∃ t, step.target = some (.int t) ∧ v < t := by
  obtain ⟨k, t, hk, -, hsource, htarget, hlt⟩ := rising.rises _ _ h
  have hdisplay : step.source = (Value.int v).display := by
    simpa using List.find?_some h
  obtain rfl := Value.display_int_inj.mp (hsource.symm.trans hdisplay)
  exact ⟨hk, hdisplay, t, htarget, hlt⟩

/-- The version that a rising step sets is later. -/
theorem Rising.lt_of_step? (rising : schema.Rising) (found : schema.step? (.int v) = some step)
    (sets : step.target = some (.int t)) : v < t := by
  obtain ⟨-, -, t', htarget, hlt⟩ := rising.of_step? found
  obtain rfl := Value.int.inj (Option.some.inj (sets.symm.trans htarget))
  exact hlt

/-- Rising steps lead somewhere from every version, as each one comes closer to the current version.
-/
theorem exists_leads (rising : schema.Rising) (v : Int) :
    ∃ steps last, schema.Leads v steps last := by
  induction hdistance : (schema.current - v).toNat using Nat.strongRecOn generalizing v with
  | ind distance ih =>
    subst hdistance
    by_cases hold : v < schema.current
    · cases hshort : (Value.int v).isOverlong with
      | true => exact ⟨[], v, .stays (.inr (.inl hshort))⟩
      | false =>
        cases hfound : schema.step? (.int v) with
        | none => exact ⟨[], v, .stays (.inr (.inr hfound))⟩
        | some step =>
          obtain ⟨-, -, t, htarget, hlt⟩ := rising.of_step? hfound
          obtain ⟨steps, last, hleads⟩ := ih _ (by omega) t rfl
          exact ⟨step :: steps, last, .goes hold hshort hfound htarget hleads⟩
    · exact ⟨[], v, .stays (.inl (by omega))⟩

/-- A version that is none of those before the current one has no steps. -/
theorem Leads.eq_of_outside (rising : schema.Rising) (h : schema.Leads v steps last)
    (hv : v < 1 ∨ schema.current ≤ v) : steps = [] ∧ last = v := by
  cases h with
  | stays => exact ⟨rfl, rfl⟩
  | goes older _ found =>
    have hfirst := (rising.of_step? found).1
    omega

/-- There are no more steps than versions between. -/
theorem Leads.length_le (rising : schema.Rising) (h : schema.Leads v steps last) :
    (steps.length : Int) ≤ max 0 (schema.current - v) := by
  induction h with
  | stays => simp
  | goes older short found sets more ih =>
    have hlt := rising.lt_of_step? found sets
    rw [List.length_cons]
    omega

/-- The steps start from the version or from later ones. -/
theorem Leads.source_of_mem (rising : schema.Rising) (h : schema.Leads v steps last)
    (hmem : step ∈ steps) : ∃ k, v ≤ k ∧ step.source = (Value.int k).display := by
  induction h with
  | stays => cases hmem
  | goes older short found sets more ih =>
    have hlt := rising.lt_of_step? found sets
    obtain ⟨-, hsource, -⟩ := rising.of_step? found
    rcases List.mem_cons.mp hmem with rfl | hmem
    · exact ⟨_, le_rfl, hsource⟩
    · obtain ⟨k, hk, hsource⟩ := ih hmem
      exact ⟨k, by omega, hsource⟩

/-- No two of the steps start from the same version. -/
theorem Leads.nodup (rising : schema.Rising) (h : schema.Leads v steps last) :
    (steps.map Migration.source).Nodup := by
  induction h with
  | stays => exact List.nodup_nil
  | goes older short found sets more ih =>
    have hlt := rising.lt_of_step? found sets
    obtain ⟨-, hsource, -⟩ := rising.of_step? found
    rw [List.map_cons, List.nodup_cons]
    refine ⟨fun hmem => ?_, ih⟩
    obtain ⟨other, hother, he⟩ := List.mem_map.mp hmem
    obtain ⟨k, hk, hsame⟩ := more.source_of_mem rising hother
    have hv := Value.display_int_inj.mp (hsource.symm.trans (he.symm.trans hsame))
    omega

/-- The steps that lead on are steps of the schema. -/
theorem Leads.subset (h : schema.Leads v steps last) : steps ⊆ schema.migrations := by
  induction h with
  | stays => exact List.nil_subset _
  | goes older short found sets more ih => exact List.cons_subset.mpr ⟨mem_of_step? found, ih⟩

/-- Integers are older than the current version if they are less. -/
theorem isOlder?_int : schema.isOlder? (.int v) = some (decide (v < schema.current)) := by
  have hnumber : schema.isOlder? (.int v) = some (compare v schema.current == .lt) := rfl
  rw [hnumber, Option.some_inj, Bool.eq_iff_iff]
  simp [compare_lt_iff_lt]

/-- Where no step is left, the fields are accepted exactly if their version is the current one. -/
theorem accept_int : schema.accept (.int v) raw = schema.outcome raw [] v := by
  simp [accept, outcome, Value.same_int]

/-- The rounds of a migration carry out the steps that lead on. -/
theorem Leads.carries (rising : schema.Rising) (file : String) (raw : Fields)
    (h : schema.Leads v steps last) :
    schema.Carries file (.int v) raw steps (schema.outcome raw steps last) := by
  induction h generalizing raw with
  | @stays v h =>
    refine .settled ?_
    by_cases older : v < schema.current
    · cases long : (Value.int v).isOverlong with
      | true =>
        have hrefused : Problem.ofSettings (.wrongVersion schema.current (.int v)) =
            .argument .overlongNumber := by
          simp [Problem.ofSettings, Problem.showing, SettingsFault.shown, Value.anyOverlong, long]
        simp [advance, isOlder?_int, older, long, outcome, older.ne, hrefused]
      | false =>
        have hnone : schema.step? (.int v) = none := by
          rcases h with h | h | h
          · omega
          · rw [long] at h
            cases h
          · exact h
        simp [advance, isOlder?_int, older, long, hnone, accept_int]
    · simp [advance, isOlder?_int, older, accept_int]
  | @goes v t last step steps older short found sets more ih =>
    have hlt := rising.lt_of_step? found sets
    have hmoved : (Value.int t).same (.int v) = false := by
      rw [Value.same_int, decide_eq_false_iff_not]
      omega
    have honwards : schema.advance file (.int v) raw = .onwards (.int t) (step.renamed raw) := by
      simp [advance, isOlder?_int, older, short, found, takeVersion_apply_of_target sets, hmoved]
    exact .onwards found honwards (ih (step.renamed raw))

/-- The rounds that carry out steps are one more than the steps. -/
theorem Carries.rounds {v : Value} {result : Except Problem Fields}
    (h : schema.Carries file v raw steps result) :
    schema.rounds file (steps.length + 1) v raw = some result := by
  induction h with
  | settled round => rw [Schema.rounds, round]
  | onwards found round more ih =>
    rw [List.length_cons, Schema.rounds, round]
    exact ih

/-- A migration allows for all the steps that lead on, since each is one of the steps there are and
none is taken twice. -/
theorem Leads.migrate? (rising : schema.Rising) (file : String)
    (hversion : (takeVersion raw).1 = .int v) (h : schema.Leads v steps last) :
    schema.migrate? file raw = some (schema.outcome (takeVersion raw).2 steps last) := by
  have hlength : steps.length ≤ schema.migrations.length :=
    (List.Nodup.of_map _ (h.nodup rising)).subperm h.subset |>.length_le
  have hallowed := schema.length_lt_enough raw
  rw [migrate?_eq, hversion]
  exact rounds_mono (by omega) (h.carries rising file (takeVersion raw).2).rounds

/-- A refused version ends as such, unless it or the current one has too many digits to be shown. -/
theorem kind_wrongVersion_int (expected found : Int) :
    (Problem.ofSettings (.wrongVersion expected (.int found))).kind =
      if 10 ^ Digits.limit ≤ max expected.natAbs found.natAbs then "ValueError"
      else "IllegalState" := by
  rw [SettingsFault.kind_ofSettings]
  simp [SettingsFault.shown, Value.anyOverlong, Value.isOverlong_int, SettingsFault.isVersion]

/-- No step leads from a version outside of those up to the current one, and such a version is not
the current one. -/
theorem Leads.refused_of_outside (rising : schema.Rising) (hcurrent : 1 ≤ schema.current)
    (h : schema.Leads v steps last) (hv : v < 1 ∨ schema.current < v) :
    steps = [] ∧ last ≠ schema.current := by
  obtain ⟨rfl, rfl⟩ := h.eq_of_outside rising (by omega)
  exact ⟨rfl, by omega⟩

/-- Where each step sets a later integer as the version, there is a chain of steps from the version
of stored settings, and the rounds of a migration carry out just its steps, in order, each of them
once and fewer of them than the number of the current version. The fields are accepted, renamed by
one step after the other, if the chain ends in the current version. Otherwise, and for a version
outside of those up to the current one without any step, they are refused for the version that the
chain ends in, which the refusal tells unless a version has too many digits to be shown. -/
theorem chain_in_order (schema : Schema) (file : String) (raw : Fields) (first : Int)
    (hcurrent : 1 ≤ schema.current) (rising : schema.Rising)
    (hfirst : (takeVersion raw).1 = .int first) :
    (∃ steps last, schema.Leads first steps last) ∧
    ∀ steps last, schema.Leads first steps last →
      schema.Carries file (.int first) (takeVersion raw).2 steps
        (schema.outcome (takeVersion raw).2 steps last) ∧
      schema.migrate? file raw = some (schema.outcome (takeVersion raw).2 steps last) ∧
      (steps.map Migration.source).Nodup ∧
      (steps.length : Int) ≤ schema.current - 1 ∧
      (last = schema.current → schema.migrate? file raw =
        some (.ok (steps.foldl (fun raw step => step.renamed raw) (takeVersion raw).2))) ∧
      ((∀ step ∈ steps, ∀ names ∈ step.renames, names.2 ≠ "version") →
        steps.foldl (fun raw step => step.renamed raw) (takeVersion raw).2 =
          (steps.flatMap Migration.renames).foldl (fun raw names => rename raw names.1 names.2)
            (takeVersion raw).2) ∧
      (first < 1 ∨ schema.current < first → steps = [] ∧ last ≠ schema.current) ∧
      (last ≠ schema.current → ∃ problem,
        schema.migrate? file raw = some (.error problem) ∧
        problem = .ofSettings (.wrongVersion schema.current (.int last)) ∧
        problem.kind =
          if 10 ^ Digits.limit ≤ max schema.current.natAbs last.natAbs then "ValueError"
          else "IllegalState") := by
  refine ⟨exists_leads rising first, fun steps last h => ?_⟩
  have hmigrate := h.migrate? rising file hfirst
  have hlength : (steps.length : Int) ≤ schema.current - 1 := by
    by_cases houtside : first < 1
    · obtain ⟨rfl, -⟩ := h.refused_of_outside rising hcurrent (.inl houtside)
      simpa using hcurrent
    · have hle := h.length_le rising
      omega
  refine ⟨h.carries rising file _, hmigrate, h.nodup rising, hlength, fun hlast => ?_,
    fun hnames => foldl_renamed hnames (get?_takeVersion raw),
    h.refused_of_outside rising hcurrent, fun hlast => ⟨_, ?_, rfl, kind_wrongVersion_int _ _⟩⟩
  · rw [hmigrate, outcome, if_pos hlast]
  · rw [hmigrate, outcome, if_neg hlast]

/-- Steps to the fourth version, one of which leaves out a version. -/
def leaping : Schema :=
  { current := 4
    migrations :=
      [.first, { source := "1", renames := [("a", "b")], target := some (.int 3) },
        { source := "3", renames := [("b", "c"), ("d", "b")], target := some (.int 4) }] }

theorem rising_leaping : leaping.Rising := by
  refine ⟨fun version step h => ?_⟩
  have hmem := mem_of_step? h
  simp only [leaping, List.mem_cons, List.not_mem_nil, or_false] at hmem
  rcases hmem with rfl | rfl | rfl
  · exact ⟨1, 2, by decide, by decide, by decide, rfl, by decide⟩
  · exact ⟨1, 3, by decide, by decide, by decide, rfl, by decide⟩
  · exact ⟨3, 4, by decide, by decide, by decide, rfl, by decide⟩

/-- A later step replaces the first one, and both steps of the chain rename the same field. -/
theorem chain_in_order_leaping :
    1 ≤ leaping.current ∧ leaping.Rising ∧
    (takeVersion [(.str "a", .int 5), (.str "d", .null)]).1 = .int 1 ∧
    leaping.migrate? "config.yml" [(.str "a", .int 5), (.str "d", .null)] =
      some (.ok [(.str "c", .int 5), (.str "b", .null)]) := by
  obtain ⟨-, hall⟩ := chain_in_order leaping "config.yml"
    [(.str "a", .int 5), (.str "d", .null)] 1 (by decide) rising_leaping rfl
  have hleads : leaping.Leads 1
      [{ source := "1", renames := [("a", "b")], target := some (.int 3) },
        { source := "3", renames := [("b", "c"), ("d", "b")], target := some (.int 4) }] 4 :=
    .goes (by decide) (by cbv) (by cbv) rfl
      (.goes (by decide) (by cbv) (by cbv) rfl (.stays (.inl le_rfl)))
  obtain ⟨-, -, -, -, haccepted, -⟩ := hall _ _ hleads
  exact ⟨by decide, rising_leaping, rfl, haccepted rfl⟩

/-- The steps of the default schema are rising. -/
theorem rising_default : Schema.Rising {} := by
  refine ⟨fun version step h => ?_⟩
  obtain rfl := List.mem_singleton.mp (mem_of_step? h)
  exact ⟨1, 2, by decide, by decide, by decide, rfl, by decide⟩

/-- A negative version with too many digits is refused as a value that cannot be shown. -/
theorem overlong_version_before_first :
    Schema.Rising {} ∧ (takeVersion [(.str "version", .int (-2 ^ 14400))]).1 = .int (-2 ^ 14400) ∧
    ∃ problem, Schema.migrate? {} "config.yml" [(.str "version", .int (-2 ^ 14400))] =
      some (.error problem) ∧ problem.kind = "ValueError" := by
  have hlarge : 10 ^ Digits.limit ≤ ((-2 ^ 14400 : Int)).natAbs := by
    have habs (k : Nat) : (-2 ^ k : Int).natAbs = 2 ^ k := by
      rw [Int.natAbs_neg, Int.natAbs_pow]
      rfl
    rw [habs]
    exact Digits.limit_le_two_pow
  have hnegative : (-2 ^ 14400 : Int) < 1 := by
    have hpositive : (0 : Int) < 2 ^ 14400 := Int.pow_pos (by decide)
    exact (neg_neg_of_pos hpositive).trans one_pos
  generalize (-2 ^ 14400 : Int) = v at hlarge hnegative ⊢
  have hversion : (takeVersion [(.str "version", .int v)]).1 = .int v := rfl
  obtain ⟨steps, last, hleads⟩ := exists_leads rising_default v
  obtain ⟨rfl, hlast⟩ := hleads.eq_of_outside rising_default (.inl hnegative)
  subst last
  have hrefused : v ≠ Schema.current {} := by
    rw [show Schema.current {} = 2 from rfl]
    omega
  refine ⟨rising_default, rfl, .ofSettings (.wrongVersion 2 (.int v)), ?_, ?_⟩
  · rw [hleads.migrate? rising_default _ hversion, outcome, if_neg hrefused]
  · rw [kind_wrongVersion_int, if_pos (hlarge.trans (le_max_right _ _))]

end Schema

end TreeStore
