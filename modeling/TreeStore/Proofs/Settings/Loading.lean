import TreeStore.Json.Reader
import TreeStore.Proofs.Settings.Migration
import TreeStore.Settings.Stored

/-!
# How settings are rejected

Loading a stored value ends with settings or with a rejection that tells what is wrong with them,
with two exceptions. A version that is no number is compared with one before anything is checked,
and keys that are no texts are put in order for a warning: both fail as values of a wrong type. A
migration and the check of the settings look at keys that are texts only, so that what becomes of
these does not depend on the other keys. Besides, a rejection shows the value that is at fault,
which fails for an integer with too many digits.
-/

namespace TreeStore

namespace Fields

/-- The fields whose keys are texts. -/
def named (fields : Fields) : Fields := fields.filter fun f => f.1.isText

variable {fields : Fields} {s : String} {value : Value}

/-- A text key holds the same with and without the other keys. -/
theorem get?_named (fields : Fields) (s : String) :
    (named fields).get? (.str s) = fields.get? (.str s) := by
  have hkey : (fun f : Value × Value => decide (f.1.isText ∧ f.1.sameKey (.str s))) =
      fun f => f.1.sameKey (.str s) := by
    funext f
    cases h : f.1.sameKey (.str s) with
    | false => simp
    | true => simp [Value.isText_of_sameKey h]
  rw [get?, get?, named, List.find?_filter, hkey]

/-- A field may be removed before or after the other keys are left out. -/
theorem remove_named (fields : Fields) (key : Value) :
    remove key (named fields) = named (remove key fields) :=
  List.filter_comm _ _ _

/-- A field may be put before or after the other keys are left out. -/
theorem put_named (fields : Fields) (s : String) (value : Value) :
    put (.str s) value (named fields) = named (put (.str s) value fields) := by
  induction fields with
  | nil => rfl
  | cons f rest ih =>
    rw [named] at ih
    cases hkey : f.1.sameKey (.str s) with
    | true => simp [named, put, hkey, Value.isText_of_sameKey hkey]
    | false => cases htext : f.1.isText <;> simp [named, put, hkey, htext, ih]

/-- Setting and removing fields by name leaves those whose keys are no texts. -/
theorem mem_put_of_not_isText {f : Value × Value} (hf : f.1.isText = false) :
    f ∈ put (.str s) value fields ↔ f ∈ fields := by
  induction fields with
  | nil =>
    have hne : f ≠ (.str s, value) := fun h => by simp [h, Value.isText] at hf
    simp [put, hne]
  | cons g rest ih =>
    cases hkey : g.1.sameKey (.str s) with
    | false => simp [put, hkey, ih]
    | true =>
      have hg := Value.isText_of_sameKey hkey
      have hold : f ≠ g := fun h => by simp [h, hg] at hf
      have hnew : f ≠ (g.1, value) := fun h => by simp [h, hg] at hf
      simp [put, hkey, hold, hnew]

/-- Removing a text key leaves the other keys alone. -/
theorem mem_remove_of_not_isText {f : Value × Value} (hf : f.1.isText = false) :
    f ∈ remove (.str s) fields ↔ f ∈ fields := by
  have hkey : f.1.sameKey (.str s) = false := by
    by_contra h
    rw [Value.isText_of_sameKey (by simpa using h)] at hf
    cases hf
  simp [remove, hkey]

/-- None of the values has too many digits to be shown. -/
def Short (fields : Fields) : Prop := ∀ f ∈ fields, f.2.isOverlong = false

/-- In short fields every value that is looked up is short. -/
theorem Short.get? {key : Value} (h : Short fields) (hget : fields.get? key = some value) :
    value.isOverlong = false := by
  obtain ⟨f, hf, rfl⟩ := Option.map_eq_some_iff.mp hget
  exact h f (List.mem_of_find?_eq_some hf)

/-- Short fields stay so when one is removed. -/
theorem Short.remove (h : Short fields) (key : Value) : Short (remove key fields) :=
  fun f hf => h f (List.mem_filter.mp hf).1

/-- Short fields stay so when a short value is put. -/
theorem Short.put {key : Value} (h : Short fields) (hvalue : value.isOverlong = false) :
    Short (put key value fields) := by
  induction fields with
  | nil =>
    intro f hf
    rw [List.mem_singleton.mp hf]
    exact hvalue
  | cons g rest ih =>
    have hrest : Short rest := fun f hf => h f (List.mem_cons_of_mem _ hf)
    intro f hf
    cases hkey : g.1.sameKey key with
    | true =>
      rcases List.mem_cons.mp (by simpa [Fields.put, hkey] using hf) with rfl | hf
      · exact hvalue
      · exact hrest f hf
    | false =>
      rcases List.mem_cons.mp (by simpa [Fields.put, hkey] using hf) with rfl | hf
      · exact h f List.mem_cons_self
      · exact ih hrest f hf

/-- Fields without an overlong value are short. -/
theorem short_of_not_anyFieldOverlong (h : Value.anyFieldOverlong fields = false) :
    Short fields := by
  induction fields with
  | nil => exact fun f hf => absurd hf List.not_mem_nil
  | cons g rest ih =>
    obtain ⟨key, value⟩ := g
    simp only [Value.anyFieldOverlong, Bool.or_eq_false_iff] at h
    intro f hf
    rcases List.mem_cons.mp hf with rfl | hf
    · exact h.1.2
    · exact ih h.2 f hf

end Fields

/-- How settings are rejected: for a fault, or because a value that would be shown is too long. -/
inductive Problem.Rejection (long : Prop) : Problem → Prop
  | fault (fault : SettingsFault) : Rejection long (.settings fault)
  | overlong (h : long) : Rejection long (.argument .overlongNumber)

namespace Problem

/-- A problem that a longer value may cause may be caused by less. -/
theorem Rejection.mono {long long' : Prop} {p : Problem} (h : Rejection long p)
    (himp : long → long') : Rejection long' p := by
  cases h with
  | fault fault => exact .fault fault
  | overlong h => exact .overlong (himp h)

/-- A fault turns into a failure to show it only if it shows an overlong value. -/
theorem rejection_ofSettings {long : Prop} {fault : SettingsFault}
    (h : Value.anyOverlong fault.shown = true → long) : Rejection long (.ofSettings fault) := by
  unfold ofSettings showing
  split
  · exact .overlong (h ‹_›)
  · exact .fault fault

/-- The runtime's own type error is no rejection. -/
theorem not_rejection_wrongType {long : Prop} : ¬ Rejection long .wrongType := nofun

end Problem

namespace Migration

open Fields

/-- Renaming a key does not look at keys that are no texts. -/
theorem rename_named (raw : Fields) (old new : String) :
    rename (named raw) old new = named (rename raw old new) := by
  unfold rename
  rw [get?_named]
  split
  · rw [remove_named, put_named]
  · rfl

/-- Renaming a text key does not touch the other keys. -/
theorem mem_rename_of_not_isText {raw : Fields} {old new : String} {f : Value × Value}
    (hf : f.1.isText = false) : f ∈ rename raw old new ↔ f ∈ raw := by
  unfold rename
  split
  · rw [mem_put_of_not_isText hf, mem_remove_of_not_isText hf]
  · rfl

/-- Renaming a key keeps fields short. -/
theorem short_rename {raw : Fields} (h : Short raw) (old new : String) :
    Short (rename raw old new) := by
  unfold rename
  split
  · rename_i value hget
    exact (h.remove _).put (h.get? hget)
  · exact h

/-- What holds after each renaming, and after the version was set, holds after a step. -/
theorem apply_induction {motive : Fields → Prop} (step : Migration) {raw : Fields}
    (start : motive raw) (renamed : ∀ raw old new, motive raw → motive (rename raw old new))
    (versioned : ∀ raw version, step.target = some version → motive raw →
      motive (raw.put versionKey version)) : motive (step.apply raw) := by
  have hrenamed : ∀ (renames : List (String × String)) (raw : Fields), motive raw →
      motive (renames.foldl (fun raw names => rename raw names.1 names.2) raw) := by
    intro renames
    induction renames with
    | nil => exact fun raw h => h
    | cons names rest ih => exact fun raw h => ih _ (renamed _ _ _ h)
  unfold apply
  split
  · exact versioned _ _ ‹_› (hrenamed _ _ start)
  · exact hrenamed _ _ start

/-- A step does not look at keys that are no texts. -/
theorem apply_named (step : Migration) (raw : Fields) :
    step.apply (named raw) = named (step.apply raw) := by
  have hrenamed : step.renames.foldl (fun raw names => rename raw names.1 names.2) (named raw) =
      named (step.renames.foldl (fun raw names => rename raw names.1 names.2) raw) :=
    List.foldl_hom named fun raw names => rename_named raw names.1 names.2
  unfold apply
  cases step.target with
  | none => exact hrenamed
  | some version =>
    exact (congrArg (Fields.put versionKey version) hrenamed).trans (put_named _ _ _)

/-- A step does not touch keys that are no texts. -/
theorem mem_apply_of_not_isText {step : Migration} {raw : Fields} {f : Value × Value}
    (hf : f.1.isText = false) : f ∈ step.apply raw ↔ f ∈ raw := by
  refine apply_induction (motive := fun changed => f ∈ changed ↔ f ∈ raw) step .rfl ?_ ?_
  · intro changed old new h
    rw [mem_rename_of_not_isText hf, h]
  · intro changed version _ h
    rw [versionKey, mem_put_of_not_isText hf, h]

/-- The version is taken from the text keys. -/
theorem takeVersion_named (raw : Fields) :
    takeVersion (named raw) = ((takeVersion raw).1, named (takeVersion raw).2) := by
  simp only [takeVersion, versionKey, get?_named, remove_named]

/-- A step for which neither the version that it sets nor any other value is too long. -/
theorem short_apply {step : Migration} {raw : Fields} (hnext : step.next.isOverlong = false)
    (h : Short raw) : Short (step.apply raw) := by
  refine apply_induction step h (fun _ old new h => short_rename h old new) ?_
  intro changed version htarget h
  rw [next, htarget] at hnext
  exact h.put hnext

end Migration

namespace Schema

open Migration Fields

variable {schema : Schema} {file : String} {v : Value} {raw : Fields}

/-- A round with the fields whose keys are texts is the round, as far as these fields go. -/
def Progress.named : Progress → Progress
  | settled result => settled (result.map Fields.named)
  | onwards version raw => onwards version raw.named

/-- A round goes the same way with and without keys that are no texts. -/
theorem advance_named (schema : Schema) (file : String) (v : Value) (raw : Fields) :
    schema.advance file v (Fields.named raw) = (schema.advance file v raw).named := by
  unfold advance accept
  split
  · rfl
  · split <;> rfl
  · split
    · rfl
    · split
      · split <;> rfl
      · simp only [apply_named, takeVersion_named]
        split <;> rfl

/-- A migration of the fields whose keys are texts is the migration, as far as these go. -/
theorem rounds_named (schema : Schema) (file : String) (count : Nat) (v : Value) (raw : Fields) :
    schema.rounds file count v (Fields.named raw) =
      (schema.rounds file count v raw).map (·.map Fields.named) := by
  induction count generalizing v raw with
  | zero => rfl
  | succ count ih =>
    rw [rounds, rounds, advance_named]
    cases schema.advance file v raw with
    | settled result => rfl
    | onwards next rest => exact ih next rest

/-- Fields that are accepted are left as they are. -/
theorem accept_eq_ok {rest : Fields} (h : schema.accept v raw = .ok rest) : rest = raw := by
  unfold accept at h
  split at h
  · exact (Except.ok.inj h).symm
  · cases h

/-- The other fields are still there after a migration, and no new ones are. -/
theorem mem_of_rounds {count : Nat} {rest : Fields} {f : Value × Value} (hf : f.1.isText = false)
    (h : schema.rounds file count v raw = some (.ok rest)) : f ∈ rest ↔ f ∈ raw := by
  induction count generalizing v raw with
  | zero => cases h
  | succ count ih =>
    rw [rounds] at h
    rcases schema.advance_cases file v raw with ⟨-, ha⟩ | ha | ⟨-, -, ha⟩ | ⟨step, -, -, -, hstep⟩
    · simp [ha] at h
    · simp only [ha, Option.some.injEq] at h
      rw [accept_eq_ok h]
    · simp [ha] at h
    · rcases hstep with ⟨-, ha⟩ | ⟨-, ha⟩
      · simp [ha] at h
      · simp only [ha] at h
        rw [ih h, takeVersion, versionKey, mem_remove_of_not_isText hf, mem_apply_of_not_isText hf]

/-- A version that is not the current one is rejected, by a message that may be too long to write.
-/
theorem accept_error {p : Problem} (hcurrent : (Value.int schema.current).isOverlong = false)
    (h : schema.accept v raw = .error p) : p.Rejection (v.isOverlong = true) := by
  unfold accept at h
  split at h
  · cases h
  · cases h
    apply Problem.rejection_ofSettings
    simp [SettingsFault.shown, Value.anyOverlong, hcurrent]

/-- Versions that are numbers are all that can be compared with the current one. -/
theorem isOlder?_eq_none_iff : schema.isOlder? v = none ↔ v.number? = none := by
  cases v <;> simp [isOlder?, Value.before?, Value.number?]

/-- A migration fails over the kind of a version only if that is the one that was stored. -/
theorem rounds_error (tidy : ∀ step ∈ schema.migrations, step.Tidy)
    (hnext : ∀ step ∈ schema.migrations, step.next.isOverlong = false)
    (hcurrent : (Value.int schema.current).isOverlong = false)
    (hraw : raw.get? versionKey = none) {count : Nat} {p : Problem}
    (h : schema.rounds file count v raw = some (.error p)) :
    p = .wrongType ∧ v.number? = none ∨ p.Rejection (v.isOverlong = true) := by
  induction count generalizing v raw with
  | zero => cases h
  | succ count ih =>
    rw [rounds] at h
    rcases schema.advance_cases file v raw with
      ⟨older, ha⟩ | ha | ⟨-, long, ha⟩ | ⟨step, -, short, found, hstep⟩
    · simp only [ha, Option.some.injEq, Except.error.injEq] at h
      exact .inl ⟨h.symm, isOlder?_eq_none_iff.mp older⟩
    · simp only [ha, Option.some.injEq] at h
      exact .inr (accept_error hcurrent h)
    · simp only [ha, Option.some.injEq, Except.error.injEq] at h
      rw [← h]
      exact .inr (.overlong long)
    · rcases hstep with ⟨-, ha⟩ | ⟨-, ha⟩
      · simp only [ha, Option.some.injEq, Except.error.injEq] at h
        rw [← h]
        exact .inr (Problem.rejection_ofSettings (by simp [SettingsFault.shown, Value.anyOverlong]))
      · simp only [ha] at h
        have hstep := mem_of_step? found
        rw [takeVersion_apply (tidy step hstep) hraw] at h
        obtain ⟨n, hn⟩ := next_integer (tidy step hstep)
        rcases ih (get?_takeVersion _) h with ⟨-, hnumber⟩ | hrejection
        · rw [hn] at hnumber
          cases hnumber
        · refine .inr (hrejection.mono fun long => ?_)
          rw [hnext step hstep] at long
          cases long

/-- A migration brings no value that is too long. -/
theorem short_of_rounds (hnext : ∀ step ∈ schema.migrations, step.next.isOverlong = false)
    {count : Nat} {rest : Fields} (hraw : Short raw)
    (h : schema.rounds file count v raw = some (.ok rest)) : Short rest := by
  induction count generalizing v raw with
  | zero => cases h
  | succ count ih =>
    rw [rounds] at h
    rcases schema.advance_cases file v raw with
      ⟨-, ha⟩ | ha | ⟨-, -, ha⟩ | ⟨step, -, -, found, ⟨-, ha⟩ | ⟨-, ha⟩⟩
    · simp [ha] at h
    · simp only [ha, Option.some.injEq] at h
      rwa [accept_eq_ok h]
    · simp [ha] at h
    · simp [ha] at h
    · simp only [ha] at h
      have hstep := mem_of_step? found
      exact ih ((short_apply (hnext step hstep) hraw).remove _) h

/-- A version that is no number cannot be compared, so that the first round fails. -/
theorem rounds_of_number?_eq_none (hv : v.number? = none) {count : Nat} (hcount : 0 < count) :
    schema.rounds file count v raw = some (.error .wrongType) := by
  obtain ⟨count, rfl⟩ := Nat.exists_eq_add_of_lt hcount
  rw [Nat.zero_add, rounds, advance, isOlder?_eq_none_iff.mpr hv]

/-- A whole migration goes the same way with and without keys that are no texts. -/
theorem migrate?_named (tidy : ∀ step ∈ schema.migrations, step.Tidy)
    {result : Except Problem Fields} (h : schema.migrate? file raw = some result) :
    schema.migrate? file (Fields.named raw) = some (result.map Fields.named) := by
  rw [migrate?_eq] at h
  rw [migrate?_eq_some_iff tidy, takeVersion_named]
  exact ⟨schema.enough raw, by rw [rounds_named, h]; rfl⟩

/-- The steps of the default schema are tidy. -/
theorem tidy_default : ∀ step ∈ ({} : Schema).migrations, step.Tidy := by
  simpa using tidy_first

/-- There is one step only, and it raises the version. -/
theorem default_ends (file : String) (raw : Fields) :
    ∃ result, Schema.migrate? {} file raw = some result := by
  refine exists_migrate? tidy_default (not_circles_of_rising tidy_default ?_)
  rintro w next - ⟨older, -, found, -⟩
  have hfirst := mem_of_step? found
  rw [List.mem_singleton.mp hfirst]
  exact older

end Schema

namespace Settings

open Migration Fields Problem

variable {raw : Fields} {s : Settings} {name file : String}

/-- A field's check fails with a rejection of the value. -/
theorem check_error {value : Value} {p : Problem} (h : check name value = .error p) :
    p.Rejection (value.isOverlong = true) := by
  have hshown : ∀ fault : SettingsFault, fault.shown = [value] →
      (Problem.ofSettings fault).Rejection (value.isOverlong = true) := by
    intro fault hfault
    apply rejection_ofSettings
    simp [hfault, Value.anyOverlong]
  unfold check at h
  split at h
  · cases h
  · cases h
    exact hshown _ rfl
  · cases h
  · cases h
    exact hshown _ rfl
  · split at h
    · cases h
      exact hshown _ rfl
    · cases h
  · cases h
    exact hshown _ rfl

/-- A setting can be set. -/
theorem exists_set (hname : name ∈ names) (s : Settings) (value : Value) :
    ∃ s', s.set name value = .ok s' := by
  simp only [names, List.mem_cons, List.not_mem_nil, or_false] at hname
  rcases hname with rfl | rfl | rfl <;> exact ⟨_, rfl⟩

/-- Taking a field fails with a rejection, or because its value is overlong. -/
theorem take_error {p : Problem} (hname : name ∈ names) (h : take raw s name = .error p) :
    p.Rejection (¬ Short raw) := by
  unfold take at h
  split at h
  · cases h
  · cases h
  · rename_i value _ hget
    cases hcheck : check name value with
    | error q =>
      rw [hcheck] at h
      cases h
      refine (check_error hcheck).mono fun long hshort => ?_
      rw [hshort.get? hget] at long
      cases long
    | ok value =>
      obtain ⟨s', hs'⟩ := exists_set hname s value
      rw [hcheck] at h
      exact absurd (hs'.symm.trans h) nofun

/-- Taking several fields fails with a rejection, or because a value is overlong. -/
theorem foldlM_take_error {p : Problem} {some : List String} (hsome : ∀ name ∈ some, name ∈ names)
    (h : some.foldlM (take raw) s = .error p) : p.Rejection (¬ Short raw) := by
  induction some generalizing s with
  | nil => cases h
  | cons name rest ih =>
    rw [List.foldlM_cons] at h
    cases htake : take raw s name with
    | error q =>
      rw [htake] at h
      cases h
      exact take_error (hsome name List.mem_cons_self) htake
    | ok s' =>
      rw [htake] at h
      exact ih (fun other ho => hsome other (List.mem_cons_of_mem _ ho)) h

/-- The fields are taken from the text keys. -/
theorem take_named (raw : Fields) : take (named raw) = take raw := by
  funext s name
  rw [take, take, get?_named]

/-- Keys that are texts can all be sorted. -/
theorem mapM_textKey_of_isText {keys : List Value} (h : ∀ k ∈ keys, k.isText = true) :
    ∃ found, keys.mapM textKey = .ok found := by
  induction keys with
  | nil => exact ⟨[], rfl⟩
  | cons k rest ih =>
    obtain ⟨found, hfound⟩ := ih fun other ho => h other (List.mem_cons_of_mem _ ho)
    have hk := h k List.mem_cons_self
    cases k with
    | str name => exact ⟨name :: found, by rw [List.mapM_cons, hfound]; rfl⟩
    | _ => cases hk

/-- A key that is no text cannot be sorted with the others. -/
theorem mapM_textKey_of_not_isText {keys : List Value} {k : Value} (hmem : k ∈ keys)
    (hk : k.isText = false) : keys.mapM textKey = .error .wrongType := by
  induction keys with
  | nil => cases hmem
  | cons head rest ih =>
    rw [List.mapM_cons]
    rcases List.mem_cons.mp hmem with rfl | hmem
    · cases k with
      | str name => cases hk
      | _ => rfl
    · rw [ih hmem]
      cases head <;> rfl

/-- Unknown text keys are only warned about. -/
theorem exists_unknownWarning (file : String) {keys : List Value}
    (h : ∀ k ∈ keys, k.isText = true) : ∃ warning, unknownWarning file keys = .ok warning := by
  obtain ⟨found, hfound⟩ := mapM_textKey_of_isText h
  unfold unknownWarning
  split
  · exact ⟨none, rfl⟩
  · rw [hfound]
    exact ⟨_, rfl⟩

/-- An unknown key of another type is a type error. -/
theorem unknownWarning_of_not_isText (file : String) {keys : List Value} {k : Value}
    (hmem : k ∈ keys) (hk : k.isText = false) :
    unknownWarning file keys = .error .wrongType := by
  have hnonempty : keys.isEmpty = false := by
    cases keys with
    | nil => cases hmem
    | cons _ _ => rfl
  rw [unknownWarning, hnonempty, mapM_textKey_of_not_isText hmem hk]
  rfl

/-- Settings from fields: the first setting of a wrong kind is reported; else the keys have to be
texts. -/
theorem ofFields_cases (file : String) (raw : Fields) :
    (∃ p, ofFields file raw = .error p ∧ ofFields file (named raw) = .error p ∧
      p.Rejection (¬ Short raw)) ∨
    ((∃ loaded, ofFields file (named raw) = .ok loaded) ∧
      ((∃ f ∈ raw, f.1.isText = false) → ofFields file raw = .error .wrongType) ∧
      ((∀ f ∈ raw, f.1.isText = true) → ∃ loaded, ofFields file raw = .ok loaded)) := by
  unfold ofFields
  rw [take_named]
  cases hfold : names.foldlM (take raw) {} with
  | error p => exact .inl ⟨p, rfl, rfl, foldlM_take_error (fun _ h => h) hfold⟩
  | ok s =>
    have hok : ∀ fields : Fields, (∀ f ∈ fields, f.1.isText = true) →
        ∃ warning, unknownWarning file (unknownKeys fields) = .ok warning := by
      intro fields htext
      apply exists_unknownWarning
      intro k hk
      obtain ⟨f, hf, rfl⟩ := List.mem_map.mp (List.mem_filter.mp hk).1
      exact htext f hf
    refine .inr ⟨?_, ?_, ?_⟩
    · obtain ⟨warning, hwarning⟩ := hok (named raw) fun f hf => (List.mem_filter.mp hf).2
      exact ⟨⟨s, warning⟩, by rw [hwarning]; rfl⟩
    · rintro ⟨f, hf, hkey⟩
      have hunknown : f.1 ∈ unknownKeys raw := by
        refine List.mem_filter.mpr ⟨List.mem_map_of_mem hf, ?_⟩
        cases hk : f.1 with
        | str name => rw [hk] at hkey; cases hkey
        | _ => rfl
      rw [unknownWarning_of_not_isText file hunknown hkey]
      rfl
    · intro htext
      obtain ⟨warning, hwarning⟩ := hok raw htext
      exact ⟨⟨s, warning⟩, by rw [hwarning]; rfl⟩

/-- What loading does not expect of an object: a version that is no number, or a key that is no text
among fields that would make settings without such keys. -/
inductive Trips (file : String) (fields : Fields) : Prop
  | version (h : (takeVersion fields).1.number? = none)
  | key (present : ∃ f ∈ fields, f.1.isText = false)
      (accepted : ∃ loaded, ofValue? {} file (.object (named fields)) = some (.ok loaded))

/-- The version of short fields is short. -/
theorem short_version {fields : Fields} (h : Short fields) :
    (takeVersion fields).1.isOverlong = false := by
  unfold takeVersion
  cases hget : fields.get? versionKey with
  | none => rfl
  | some version => exact h.get? hget

/-- A migration as loading needs it: why it fails, and what it leaves of the fields. -/
theorem migrate?_outcome {file : String} {fields : Fields} {migrated : Except Problem Fields}
    (h : Schema.migrate? {} file fields = some migrated) :
    ((takeVersion fields).1.number? = none ↔ migrated = .error .wrongType) ∧
    (∀ p, migrated = .error p → p ≠ .wrongType → p.Rejection (¬ Short fields)) ∧
    (∀ rest, migrated = .ok rest → (Short fields → Short rest) ∧
      ∀ f, f.1.isText = false → (f ∈ rest ↔ f ∈ fields)) := by
  have hnext : ∀ step ∈ ({} : Schema).migrations, step.next.isOverlong = false := by decide
  have hrounds := h
  rw [Schema.migrate?_eq] at hrounds
  refine ⟨⟨?_, ?_⟩, ?_, ?_⟩
  · intro hv
    have hpos := Nat.zero_lt_of_lt (Schema.length_lt_enough {} fields)
    rw [Schema.rounds_of_number?_eq_none hv hpos] at hrounds
    exact (Option.some.inj hrounds).symm
  · rintro rfl
    rcases Schema.rounds_error Schema.tidy_default hnext (by decide) (get?_takeVersion fields)
      hrounds with ⟨-, hv⟩ | hrejection
    · exact hv
    · exact absurd hrejection not_rejection_wrongType
  · rintro p rfl hp
    rcases Schema.rounds_error Schema.tidy_default hnext (by decide) (get?_takeVersion fields)
      hrounds with ⟨rfl, -⟩ | hrejection
    · exact absurd rfl hp
    · refine hrejection.mono fun long hshort => ?_
      rw [short_version hshort] at long
      cases long
  · rintro rest rfl
    refine ⟨fun hshort => Schema.short_of_rounds hnext (hshort.remove _) hrounds, fun f hf => ?_⟩
    rw [Schema.mem_of_rounds hf hrounds, takeVersion, versionKey, mem_remove_of_not_isText hf]

/-- What becomes of an object, with or without the keys that are no texts. -/
theorem object_outcome (file : String) (fields : Fields) :
    ∃ result, ofValue? {} file (.object fields) = some result ∧
      (result = .error .wrongType ↔ Trips file fields) ∧
      (∀ p, result = .error p → p ≠ .wrongType → p.Rejection (¬ Short fields)) := by
  have hvalue : ∀ fields, ofValue? {} file (.object fields) =
      (Schema.migrate? {} (if file.isEmpty then defaultFile else file) fields).map
        (· >>= ofFields (if file.isEmpty then defaultFile else file)) := fun _ => rfl
  obtain ⟨migrated, hmigrated⟩ :=
    Schema.default_ends (if file.isEmpty then defaultFile else file) fields
  have hwith := hvalue fields
  have hwithout := hvalue (named fields)
  rw [hmigrated] at hwith
  rw [Schema.migrate?_named Schema.tidy_default hmigrated] at hwithout
  obtain ⟨hversion, herror, hok⟩ := migrate?_outcome hmigrated
  have hnumber : Trips file fields → ∀ rest, migrated = .ok rest →
      (∃ f ∈ rest, f.1.isText = false) ∧
        ∃ loaded, ofValue? {} file (.object (named fields)) = some (.ok loaded) := by
    rintro (hv | ⟨⟨f, hf, hkey⟩, hfine⟩) rest rfl
    · cases hversion.mp hv
    · exact ⟨⟨f, ((hok rest rfl).2 f hkey).mpr hf, hkey⟩, hfine⟩
  refine ⟨_, hwith, ?_⟩
  cases migrated with
  | error p =>
    refine ⟨⟨fun h => ?_, ?_⟩, fun q hq hne => ?_⟩
    · cases h
      exact .version (hversion.mpr rfl)
    · rintro (hv | ⟨-, loaded, hloaded⟩)
      · cases hversion.mp hv
        rfl
      · rw [hwithout] at hloaded
        cases hloaded
    · cases hq
      exact herror p rfl hne
  | ok rest =>
    obtain ⟨hshort, hmem⟩ := hok rest rfl
    rcases ofFields_cases (if file.isEmpty then defaultFile else file) rest with
      ⟨p, hp, hpnamed, hrejection⟩ | ⟨⟨loaded, hloaded⟩, hunnamed, htext⟩
    · refine ⟨⟨fun h => ?_, fun htrips => ?_⟩, fun q hq _ => ?_⟩
      · cases hp.symm.trans h
        exact absurd hrejection not_rejection_wrongType
      · obtain ⟨-, loaded, hloaded⟩ := hnumber htrips rest rfl
        rw [hwithout] at hloaded
        exact absurd (hpnamed.symm.trans (Option.some.inj hloaded)) nofun
      · cases hp.symm.trans hq
        exact hrejection.mono fun hlong hfields => hlong (hshort hfields)
    · by_cases hall : ∀ f ∈ rest, f.1.isText = true
      · obtain ⟨found, hfound⟩ := htext hall
        refine ⟨⟨fun h => absurd (hfound.symm.trans h) nofun, fun htrips => ?_⟩, fun q hq => ?_⟩
        · obtain ⟨⟨f, hf, hkey⟩, -⟩ := hnumber htrips rest rfl
          rw [hall f hf] at hkey
          cases hkey
        · exact absurd (hfound.symm.trans hq) nofun
      · obtain ⟨f, hf, hkey⟩ : ∃ f ∈ rest, f.1.isText = false := by simpa using hall
        have hwrong := hunnamed ⟨f, hf, hkey⟩
        refine ⟨⟨fun _ => ?_, fun _ => hwrong⟩, fun q hq hne => ?_⟩
        · refine .key ⟨f, (hmem f hkey).mp hf, hkey⟩ ⟨loaded, ?_⟩
          rw [hwithout]
          exact congrArg some hloaded
        · exact absurd (Except.error.inj (hwrong.symm.trans hq)).symm hne

/-- A value that is no object is rejected with the name of the file it is from. -/
theorem ofValue?_of_not_object (file : String) {raw : Value} (h : ∀ fields, raw ≠ .object fields) :
    ∃ used, ofValue? {} file raw = some (.error (.ofSettings (.notObject used raw))) := by
  cases raw with
  | object fields => exact absurd rfl (h fields)
  | _ => exact ⟨_, rfl⟩

/-- Every stored value leads to settings or to a rejection, except for what loading does not expect;
this, and only this, ends in a wrong type. A rejection names what is wrong with the version or with
a setting, unless the value that it shows has too many digits. -/
theorem loading_outcome (file : String) (raw : Value) :
    ∃ result, ofValue? {} file raw = some result ∧
      (result = .error .wrongType ↔ ∃ fields, raw = .object fields ∧ Trips file fields) ∧
      (∀ p, result = .error p → p ≠ .wrongType →
        (∃ fault, p = .settings fault) ∨
        (p = .argument .overlongNumber ∧ raw.isOverlong = true)) := by
  have hshow : ∀ {p : Problem}, p.Rejection (raw.isOverlong = true) →
      (∃ fault, p = .settings fault) ∨
        (p = .argument .overlongNumber ∧ raw.isOverlong = true) := by
    rintro p (fault | hlong)
    · exact .inl ⟨fault, rfl⟩
    · exact .inr ⟨rfl, hlong⟩
  by_cases hobject : ∃ fields, raw = .object fields
  · obtain ⟨fields, rfl⟩ := hobject
    obtain ⟨result, hresult, hwrong, herror⟩ := object_outcome file fields
    refine ⟨result, hresult, by simpa using hwrong, fun p hp hne => hshow ?_⟩
    refine (herror p hp hne).mono fun hlong => ?_
    by_contra hraw
    rw [Bool.not_eq_true, Value.isOverlong] at hraw
    exact hlong (short_of_not_anyFieldOverlong hraw)
  · rw [not_exists] at hobject
    obtain ⟨used, hresult⟩ := ofValue?_of_not_object file hobject
    have hrejection :
        (Problem.ofSettings (.notObject used raw)).Rejection (raw.isOverlong = true) :=
      rejection_ofSettings (by simp [SettingsFault.shown, Value.anyOverlong])
    refine ⟨_, hresult, ⟨fun h => ?_, ?_⟩, fun p hp _ => hshow ?_⟩
    · cases Except.error.inj h ▸ hrejection
    · rintro ⟨fields, rfl, -⟩
      exact absurd rfl (hobject fields)
    · exact Except.error.inj hp ▸ hrejection

/-- A text may well hold a version that is no number, and an object a key that is no text. -/
theorem wrong_type_escapes :
    (Json.read "\x7b\"version\": null\x7d".toList).map (ofValue? {} "config.json") =
      .ok (some (.error .wrongType)) ∧
    ofValue? {} "config.yml" (.object [(.int 1, .str "x")]) = some (.error .wrongType) := by
  refine ⟨by cbv, ?_⟩
  rfl

end Settings

end TreeStore
