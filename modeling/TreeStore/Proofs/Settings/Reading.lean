import TreeStore.Proofs.Settings.Loading
import TreeStore.Proofs.Text.Order
import TreeStore.Proofs.Text.Overlong

/-!
# What stored settings mean

Which objects are read as settings, and as which: the version has to be the first or the current
one, and each setting, which the first version may hold under an older name, has to be absent,
nothing or of its own kind. Whatever else the object holds is listed in one warning. What is read is
stored in a form that is read as the same settings again.
-/

namespace TreeStore

/-- The text of a floating point number has a point or a letter in it. -/
theorem Double.exists_mem_toText (x : Double) : ∃ c ∈ x.toText, c = '.' ∨ c = 'e' ∨ c = 'n' := by
  unfold toText
  generalize (if x.isNegative then ['-'] else []) = sign
  split
  · exact ⟨'n', by simp, by simp⟩
  split
  · exact ⟨'n', by simp, by simp⟩
  split
  · exact ⟨'.', by simp, by simp⟩
  dsimp only
  split
  · refine ⟨'.', List.mem_append_right _ ?_, by simp⟩
    split <;> simp
  · exact ⟨'e', by simp, by simp⟩

/-- Whether a version is the integer one. -/
def Value.isFirstVersion : Value → Bool
  | int n => n == 1
  | _ => false

/-- Only the integer 1 counts as the first version. -/
theorem Value.isFirstVersion_iff {v : Value} : v.isFirstVersion = true ↔ v = .int 1 := by
  cases v <;> simp [isFirstVersion]

/-- Of all numbers only the integer one is written like it. -/
theorem Value.isFirstVersion_of_display {v : Value} (hv : v.number? ≠ none)
    (h : v.display = "1") : v.isFirstVersion = true := by
  cases v with
  | bool b => cases b <;> exact absurd h (by decide)
  | int n =>
    have hchars : Digits.signed n = ['1'] := by
      simpa [display, literal] using congrArg String.toList h
    cases n with
    | ofNat n =>
      have hn := congrArg Digits.ofDecimal hchars
      rw [Digits.signed, Digits.ofDecimal_decimal] at hn
      rw [hn]
      rfl
    | negSucc n => cases hchars
  | float x =>
    have hchars : x.toText = ['1'] := by simpa [display, literal] using congrArg String.toList h
    obtain ⟨c, hc, hne⟩ := x.exists_mem_toText
    rw [hchars, List.mem_singleton] at hc
    rw [hc] at hne
    exact absurd hne (by decide)
  | _ => exact absurd rfl hv

namespace Migration

open Fields

variable {raw : Fields} {old new s : String}

/-- Renaming a key leaves no key twice. -/
theorem keyed_rename (h : Keyed raw) (old new : String) : Keyed (rename raw old new) := by
  unfold rename
  split
  · exact (h.remove _).put new _
  · exact h

/-- The value of a renamed field replaces that of a field which has the new name already. -/
theorem get?_rename_new :
    (rename raw old new).get? (.str new) = (raw.get? (.str old)).or (raw.get? (.str new)) := by
  unfold rename
  split
  · rename_i hold
    rw [get?_put, hold, Option.some_or]
  · rename_i hold
    rw [hold, Option.none_or]

/-- The old name holds nothing after a key was renamed. -/
theorem get?_rename_old (hne : old ≠ new) : (rename raw old new).get? (.str old) = none := by
  unfold rename
  split
  · rw [get?_put_of_ne (Ne.symm hne), get?_remove]
  · assumption

/-- Any other key holds what it held. -/
theorem get?_rename_of_ne (hold : old ≠ s) (hnew : new ≠ s) :
    (rename raw old new).get? (.str s) = raw.get? (.str s) := by
  unfold rename
  split
  · rw [get?_put_of_ne hnew, get?_remove_of_ne hold]
  · rfl

/-- The fields of stored settings without their version, with the names of the current one. -/
def upgraded (fields : Fields) : Fields :=
  if (takeVersion fields).1.isFirstVersion then
    rename (takeVersion fields).2 "containers" "use_containers"
  else (takeVersion fields).2

/-- Upgraded fields hold no key twice. -/
theorem keyed_upgraded {fields : Fields} (h : Keyed fields) : Keyed (upgraded fields) := by
  have hrest : Keyed (takeVersion fields).2 := h.remove _
  unfold upgraded
  split
  · exact keyed_rename hrest _ _
  · exact hrest

end Migration

namespace Schema

open Migration Fields

variable {file : String} {v : Value} {fields : Fields}

/-- The versions that settings are read in: the first one, which is an integer, and the current one,
which may be any number of its worth. -/
def Readable (v : Value) : Prop := v.isFirstVersion = true ∨ v.same (.int 2) = true

instance (v : Value) : Decidable (Readable v) := inferInstanceAs (Decidable (_ ∨ _))

/-- The default schema has no step from any other version than the first. -/
theorem step?_default (hv : v.number? ≠ none) (hfirst : v.isFirstVersion = false) :
    Schema.step? {} v = none := by
  have hdisplay : v.display ≠ "1" := fun h => by
    rw [Value.isFirstVersion_of_display hv h] at hfirst
    cases hfirst
  simpa [step?, Migration.first] using Ne.symm hdisplay

/-- A number that is worth the current version is not older. -/
theorem isOlder?_of_same (h : v.same (.int 2) = true) : isOlder? {} v = some false := by
  have hequal : ∀ order : Option Ordering, (order == some .eq) = true →
      (order == some .lt) = false := by
    intro order he
    rw [beq_iff_eq] at he
    rw [he]
    rfl
  cases v with
  | bool b => exact congrArg some (hequal _ h)
  | int n => exact congrArg some (hequal _ h)
  | float x => exact congrArg some (hequal _ h)
  | _ => cases h

/-- The step from the first version renames a field and sets the current version. -/
theorem takeVersion_apply_first (h : fields.get? versionKey = none) :
    takeVersion (Migration.first.apply fields) =
      (.int 2, rename fields "containers" "use_containers") := by
  have hunset : (rename fields "containers" "use_containers").get? versionKey = none :=
    get?_rename (by decide) h
  have happly : Migration.first.apply fields =
      (rename fields "containers" "use_containers").put versionKey (.int 2) := rfl
  rw [takeVersion, happly, versionKey, get?_put, remove_put hunset]
  rfl

/-- Settings in a version that is read are brought up to the current one. -/
theorem migrate?_of_readable (h : Readable (takeVersion fields).1) :
    migrate? {} file fields = some (.ok (upgraded fields)) := by
  have hnone := get?_takeVersion fields
  have hsettled : ∀ v raw, Value.same v (.int 2) = true →
      advance {} file v raw = .settled (.ok raw) := by
    intro v raw hv
    simp [advance, isOlder?_of_same hv, accept, hv]
  rw [migrate?_eq_some_iff tidy_default, upgraded]
  cases hfirst : (takeVersion fields).1.isFirstVersion with
  | true =>
    rw [Value.isFirstVersion_iff.mp hfirst]
    have honwards : advance {} file (.int 1) (takeVersion fields).2 =
        .onwards (.int 2) (rename (takeVersion fields).2 "containers" "use_containers") := by
      have hfound : step? {} (.int 1) = some .first := rfl
      have holder : isOlder? {} (.int 1) = some true := rfl
      have hshort : (Value.int 1).isOverlong = false := rfl
      have hmoved : (Value.int 2).same (.int 1) = false := rfl
      simp [advance, holder, hshort, hfound, takeVersion_apply_first hnone, hmoved]
    refine ⟨2, ?_⟩
    rw [rounds, honwards]
    simp only [rounds, hsettled (.int 2) _ rfl, if_true]
  | false =>
    have hsame := h.resolve_left (by simp [hfirst])
    refine ⟨1, ?_⟩
    rw [rounds, hsettled _ _ hsame]
    rfl

/-- Any other number is refused as a version, whatever the fields are. -/
theorem migrate?_of_not_readable (hv : (takeVersion fields).1.number? ≠ none)
    (h : ¬ Readable (takeVersion fields).1) :
    migrate? {} file fields =
      some (.error (.ofSettings (.wrongVersion 2 (takeVersion fields).1))) := by
  rw [migrate?_eq_some_iff tidy_default]
  refine ⟨1, ?_⟩
  generalize (takeVersion fields).1 = v, (takeVersion fields).2 = rest at hv h ⊢
  rw [Readable, not_or, Bool.not_eq_true, Bool.not_eq_true] at h
  have haccept : accept {} v rest = .error (.ofSettings (.wrongVersion 2 v)) := by
    simp [accept, h.2]
  rw [rounds]
  rcases advance_cases {} file v rest with
    ⟨older, -⟩ | ha | ⟨-, long, ha⟩ | ⟨step, -, -, found, -⟩
  · exact absurd (isOlder?_eq_none_iff.mp older) hv
  · rw [ha]
    exact congrArg some haccept
  · have hrefused : Problem.ofSettings (.wrongVersion 2 v) = .argument .overlongNumber := by
      simp [Problem.ofSettings, Problem.showing, SettingsFault.shown, Value.anyOverlong, long]
    rw [ha, hrefused]
  · rw [step?_default hv h.1] at found
    cases found

end Schema

/-- The reports that begin with the name of a setting and show the value that it was given. -/
inductive SettingsFault.Names (name : String) (value : Value) : SettingsFault → Prop
  | wrongKind (kind : String) : Names name value (.wrongKind name kind value)
  | notPositive : Names name value (.notPositive name value)

namespace SettingsFault

variable {name : String} {value : Value} {fault : SettingsFault}

/-- A refusal is of the kind of its fault, unless what it shows has too many digits. -/
theorem kind_ofSettings (fault : SettingsFault) : (Problem.ofSettings fault).kind =
    if Value.anyOverlong fault.shown then "ValueError"
    else if fault.isVersion then "IllegalState" else "SerdeError" := by
  unfold Problem.ofSettings Problem.showing
  split <;> rfl

/-- A value that does not suit is reported as such, unless it is too long to be shown. -/
theorem Names.kind (h : fault.Names name value) : (Problem.ofSettings fault).kind =
    if value.isOverlong then "ValueError" else "SerdeError" := by
  have hshown : Value.anyOverlong fault.shown = value.isOverlong := by
    cases h <;> simp [shown, Value.anyOverlong]
  have hversion : fault.isVersion = false := by cases h <;> rfl
  rw [kind_ofSettings, hshown, hversion]
  rfl

/-- A version that is not the current one is reported as such, unless it is too long to be shown. -/
theorem kind_wrongVersion (value : Value) :
    (Problem.ofSettings (.wrongVersion 2 value)).kind =
      if value.isOverlong then "ValueError" else "IllegalState" := by
  have hshown : Value.anyOverlong (shown (.wrongVersion 2 value)) = value.isOverlong := by
    simp [shown, Value.anyOverlong, show (Value.int 2).isOverlong = false by decide]
  rw [kind_ofSettings, hshown]
  rfl

end SettingsFault

namespace Settings

open Migration Fields Schema

variable {fields : Fields} {s : Settings} {name file : String} {value : Value}

/-- The value that stored settings give to a setting. The first version has an older name for one of
them, which goes before the present one. -/
def given (fields : Fields) (name : String) : Option Value :=
  if (takeVersion fields).1.isFirstVersion ∧ name = "use_containers" then
    (fields.get? (.str "containers")).or (fields.get? (.str name))
  else fields.get? (.str name)

/-- Taking the version leaves the other fields. -/
theorem get?_takeVersion_of_ne (h : name ≠ "version") :
    (takeVersion fields).2.get? (.str name) = fields.get? (.str name) :=
  get?_remove_of_ne (Ne.symm h) fields

/-- Upgraded fields hold what is given for each setting. -/
theorem get?_upgraded (hname : name ∈ names) :
    (upgraded fields).get? (.str name) = given fields name := by
  have hversion : name ≠ "version" := by
    rintro rfl
    exact absurd hname (by decide)
  have holdName : "containers" ≠ name := by
    rintro rfl
    exact absurd hname (by decide)
  unfold upgraded given
  split
  · rename_i hfirst
    by_cases hnew : name = "use_containers"
    · rw [if_pos ⟨hfirst, hnew⟩, hnew, get?_rename_new, get?_takeVersion_of_ne (by decide),
        get?_takeVersion_of_ne (by decide)]
    · rw [if_neg (fun h => hnew h.2), get?_rename_of_ne holdName (Ne.symm hnew),
        get?_takeVersion_of_ne hversion]
  · rename_i hfirst
    rw [if_neg (fun h => hfirst h.1), get?_takeVersion_of_ne hversion]

/-- The keys that are left over, besides the settings. -/
theorem mem_keys_upgraded (hname : name ∉ names) :
    .str name ∈ (upgraded fields).map Prod.fst ↔
      .str name ∈ fields.map Prod.fst ∧ name ≠ "version" ∧
        ¬ ((takeVersion fields).1.isFirstVersion = true ∧ name = "containers") := by
  have hnew : "use_containers" ≠ name := by
    rintro rfl
    exact absurd (by decide) hname
  have hrest : (takeVersion fields).2.get? (.str name) ≠ none ↔
      fields.get? (.str name) ≠ none ∧ name ≠ "version" := by
    by_cases hversion : name = "version"
    · simp [hversion, takeVersion, versionKey, get?_remove]
    · rw [get?_takeVersion_of_ne hversion]
      simp [hversion]
  rw [mem_keys_iff, mem_keys_iff, ← and_assoc, ← hrest]
  unfold upgraded
  split
  · rename_i hfirst
    by_cases hold : "containers" = name
    · rw [← hold, get?_rename_old (by decide)]
      simp [hfirst]
    · rw [get?_rename_of_ne hold hnew]
      simp [Ne.symm hold]
  · rename_i hfirst
    simp [hfirst]

/-- What a setting may be given: nothing, or a value of its own kind. -/
inductive Suits : String → Option Value → Prop
  | absent {name : String} : Suits name none
  | null {name : String} : Suits name (some .null)
  | text (s : String) : Suits "namespace" (some (.str s))
  | truth (b : Bool) : Suits "use_containers" (some (.bool b))
  | count (n : Int) (positive : 1 ≤ n) : Suits "max_delete_attempts" (some (.int n))

/-- A given value, or the default if it is absent or nothing. -/
def chosen (default : Value) : Option Value → Value
  | none | some .null => default
  | some value => value

/-- A value that suits passes its check. -/
theorem check_of_suits (h : Suits name (some value)) (hne : value ≠ .null) :
    check name value = .ok value := by
  cases h with
  | null => exact absurd rfl hne
  | text s => rfl
  | truth b => rfl
  | count n positive => exact if_neg (by omega)

/-- A value that does not suit is reported with the name of the setting. -/
theorem check_of_not_suits (hname : name ∈ names) (h : ¬ Suits name (some value)) :
    ∃ fault, check name value = .error (.ofSettings fault) ∧ fault.Names name value := by
  have hkind : ∀ kind, check name value = .error (.ofSettings (.wrongKind name kind value)) →
      ∃ fault, check name value = .error (.ofSettings fault) ∧ fault.Names name value :=
    fun kind he => ⟨_, he, .wrongKind kind⟩
  simp only [names, List.mem_cons, List.not_mem_nil, or_false] at hname
  rcases hname with rfl | rfl | rfl
  · cases value with
    | str s => exact absurd (.text s) h
    | _ => exact hkind "str" rfl
  · cases value with
    | bool b => exact absurd (.truth b) h
    | _ => exact hkind "bool" rfl
  · cases value with
    | int n =>
      have hn : n < 1 := by
        by_contra hn
        exact h (.count n (by omega))
      exact ⟨_, if_pos hn, .notPositive⟩
    | _ => exact hkind "int" rfl

/-- The value of a setting. -/
def get (s : Settings) (name : String) : Value := (s.pairs.lookup name).getD .null

/-- A setting whose value suits is set to it, or keeps its default. -/
theorem take_of_suits (hname : name ∈ names) (h : Suits name (fields.get? (.str name))) :
    take fields s name = s.set name (chosen (s.get name) (fields.get? (.str name))) := by
  have hset : s.set name (s.get name) = .ok s := by
    simp only [names, List.mem_cons, List.not_mem_nil, or_false] at hname
    rcases hname with rfl | rfl | rfl <;> rfl
  unfold take
  split
  · rename_i hnone
    rw [hnone, chosen, hset]
  · rename_i hnull
    rw [hnull, chosen, hset]
  · rename_i value hne hsome
    have hvalue : value ≠ .null := by
      rintro rfl
      exact hne rfl
    have hchosen : chosen (s.get name) (some value) = value := by
      cases value with
      | null => exact absurd rfl hvalue
      | _ => rfl
    rw [hsome] at h ⊢
    rw [check_of_suits h hvalue, hchosen]
    rfl

/-- Each setting is taken from what is given, or left at its default. -/
def ofGiven (given : String → Option Value) : Settings where
  nameSpace := chosen .null (given "namespace")
  useContainers := chosen (.bool false) (given "use_containers")
  maxDeleteAttempts := chosen .null (given "max_delete_attempts")

/-- Only what is given for the settings matters. -/
theorem ofGiven_congr {given given' : String → Option Value}
    (h : ∀ name ∈ names, given name = given' name) : ofGiven given = ofGiven given' := by
  simp only [names, List.forall_mem_cons] at h
  obtain ⟨hnamespace, hcontainers, hattempts, -⟩ := h
  rw [ofGiven, ofGiven, hnamespace, hcontainers, hattempts]

/-- If all values suit, the settings are those that are given. -/
theorem foldlM_take_of_suits (h : ∀ name ∈ names, Suits name (fields.get? (.str name))) :
    names.foldlM (take fields) {} = .ok (ofGiven fun name => fields.get? (.str name)) := by
  have htake : ∀ s, ∀ name ∈ names,
      take fields s name = s.set name (chosen (s.get name) (fields.get? (.str name))) :=
    fun s name hname => take_of_suits hname (h name hname)
  rw [names, List.foldlM_cons, htake _ _ (by decide)]
  change List.foldlM (take fields) { nameSpace := _ } ["use_containers", "max_delete_attempts"] = _
  rw [List.foldlM_cons, htake _ _ (by decide)]
  change List.foldlM (take fields) { nameSpace := _, useContainers := _ }
    ["max_delete_attempts"] = _
  rw [List.foldlM_cons, htake _ _ (by decide)]
  rfl

/-- The first setting, in their order, whose value does not suit. -/
structure FirstMisfit (given : String → Option Value) (name : String) (value : Value) : Prop where
  /-- The value is the one that is given. -/
  found : given name = some value
  /-- The value does not suit. -/
  misfit : ¬ Suits name (some value)
  /-- The settings before suit. -/
  first : ∃ before after, names = before ++ name :: after ∧
    ∀ other ∈ before, Suits other (given other)

/-- The settings before another one are settings. -/
theorem mem_of_before {before after : List String} {other : String}
    (hnames : names = before ++ name :: after) (ho : other ∈ before) : other ∈ names := by
  rw [hnames]
  exact List.mem_append_left _ ho

namespace FirstMisfit

/-- What does not suit is a setting. -/
theorem mem {given : String → Option Value} (h : FirstMisfit given name value) : name ∈ names := by
  obtain ⟨before, after, hnames, -⟩ := h.first
  rw [hnames]
  exact List.mem_append_cons_self

/-- Whatever gives the same for all settings has the same first misfit. -/
theorem congr {given given' : String → Option Value} (h : FirstMisfit given name value)
    (hsame : ∀ name ∈ names, given name = given' name) : FirstMisfit given' name value := by
  obtain ⟨before, after, hnames, hbefore⟩ := h.first
  exact ⟨(hsame name h.mem).symm.trans h.found, h.misfit, before, after, hnames,
    fun other ho => hsame other (mem_of_before hnames ho) ▸ hbefore other ho⟩

end FirstMisfit

/-- Unless all settings suit, there is a first one that does not. -/
theorem exists_firstMisfit {given : String → Option Value}
    (h : ¬ ∀ name ∈ names, Suits name (given name)) :
    ∃ name value, FirstMisfit given name value := by
  classical
  obtain ⟨name, hfound⟩ :
      ∃ name, names.find? (fun name => ¬ Suits name (given name)) = some name := by
    rw [← Option.isSome_iff_exists, List.find?_isSome]
    simpa using h
  obtain ⟨hmisfit, before, after, hnames, hbefore⟩ := List.find?_eq_some_iff_append.mp hfound
  rw [decide_eq_true_eq] at hmisfit
  cases hgiven : given name with
  | none => exact absurd (hgiven ▸ .absent) hmisfit
  | some value =>
    exact ⟨name, value, hgiven, hgiven ▸ hmisfit, before, after, hnames, by simpa using hbefore⟩

/-- Settings that suit are taken one after the other. -/
theorem exists_foldlM_take {front : List String} (hfront : ∀ name ∈ front, name ∈ names)
    (h : ∀ name ∈ front, Suits name (fields.get? (.str name))) (s : Settings) :
    ∃ s', front.foldlM (take fields) s = .ok s' := by
  induction front generalizing s with
  | nil => exact ⟨s, rfl⟩
  | cons name rest ih =>
    rw [List.forall_mem_cons] at hfront h
    obtain ⟨s', hs'⟩ := exists_set hfront.1 s (chosen (s.get name) (fields.get? (.str name)))
    rw [List.foldlM_cons, take_of_suits hfront.1 h.1, hs']
    exact ih hfront.2 h.2 s'

/-- A value that does not suit is reported by name, whatever was set before. -/
theorem take_of_not_suits (hname : name ∈ names) (hvalue : fields.get? (.str name) = some value)
    (h : ¬ Suits name (some value)) :
    ∃ fault, (∀ s, take fields s name = .error (.ofSettings fault)) ∧ fault.Names name value := by
  obtain ⟨fault, hcheck, hfault⟩ := check_of_not_suits hname h
  refine ⟨fault, fun s => ?_, hfault⟩
  unfold take
  rw [hvalue]
  cases value with
  | null => exact absurd .null h
  | _ => simp only [hcheck]; rfl

/-- The first setting that does not suit is reported. -/
theorem foldlM_take_of_firstMisfit
    (h : FirstMisfit (fun name => fields.get? (.str name)) name value) :
    ∃ fault, names.foldlM (take fields) {} = .error (.ofSettings fault) ∧
      fault.Names name value := by
  obtain ⟨fault, htake, hfault⟩ := take_of_not_suits h.mem h.found h.misfit
  obtain ⟨before, after, hnames, hbefore⟩ := h.first
  obtain ⟨s, hs⟩ := exists_foldlM_take (fun _ ho => mem_of_before hnames ho) hbefore {}
  refine ⟨fault, ?_, hfault⟩
  rw [hnames, List.foldlM_append, hs]
  change List.foldlM (take fields) s (name :: after) = _
  rw [List.foldlM_cons, htake]
  rfl

/-- The keys that are no settings are texts, each of them once. -/
theorem exists_unknownKeys (h : Keyed fields) :
    ∃ found : List String, unknownKeys fields = found.map .str ∧ found.Nodup ∧
      ∀ key, key ∈ found ↔ .str key ∈ fields.map Prod.fst ∧ key ∉ names := by
  have htexts : ∀ k ∈ unknownKeys fields, k ∈ Set.range Value.str := by
    intro k hk
    have htext := h.isText k (List.mem_filter.mp hk).1
    cases k with
    | str key => exact ⟨key, rfl⟩
    | _ => cases htext
  obtain ⟨found, hfound⟩ : unknownKeys fields ∈ Set.range (List.map Value.str) := by
    rw [Set.range_list_map]
    exact htexts
  refine ⟨found, hfound.symm, ?_, fun key => ?_⟩
  · refine List.Nodup.of_map Value.str ?_
    rw [hfound]
    exact h.nodup.filter _
  · have hmem : key ∈ found ↔ .str key ∈ unknownKeys fields := by
      rw [← hfound, List.mem_map_of_injective fun _ _ => Value.str.inj]
    rw [hmem, unknownKeys, List.mem_filter]
    simp

/-- The keys that are left over are all listed in the warning, in order. -/
theorem exists_listed (h : Keyed fields) :
    ∃ listed : List String, listed.Pairwise (· < ·) ∧
      (∀ key, key ∈ listed ↔ .str key ∈ fields.map Prod.fst ∧ key ∉ names) ∧
      ∀ file, unknownWarning file (unknownKeys fields) = .ok (if listed = [] then none
        else some (file ++ ": ignoring unknown keys: " ++ ", ".intercalate listed)) := by
  obtain ⟨found, hunknown, hnodup, hfound⟩ := exists_unknownKeys h
  have hsorted : (Sorting.sortTexts found).Nodup := (Sorting.sortBy_perm _ _).nodup_iff.mpr hnodup
  have htexts : (found.map Value.str).mapM textKey = .ok found := by
    rw [List.mapM_map]
    exact (List.mapM_pure (m := Except Problem) (f := id)).trans (congrArg pure found.map_id)
  refine ⟨Sorting.sortTexts found,
    ((Sorting.sortedLE_sortTexts found).sortedLT_of_nodup hsorted).pairwise, fun key => ?_,
    fun file => ?_⟩
  · rw [Sorting.mem_sortTexts, hfound]
  · rw [unknownWarning, hunknown, htexts]
    cases found with
    | nil => rfl
    | cons key rest =>
      have hnonempty : Sorting.sortTexts (key :: rest) ≠ [] :=
        List.ne_nil_of_mem (Sorting.mem_sortTexts.mpr List.mem_cons_self)
      rw [if_neg hnonempty]
      rfl

/-- A key of stored settings that is neither a setting nor the version. The older name of a setting
counts as the setting in the first version. -/
def IsLeftOver (fields : Fields) (key : String) : Prop :=
  .str key ∈ fields.map Prod.fst ∧ key ∉ names ∧ key ≠ "version" ∧
    ¬ ((takeVersion fields).1.isFirstVersion = true ∧ key = "containers")

/-- The warning about keys that are ignored, if there are any. -/
def ignoring (context : Context) (file : String) (keys : List String) : List LogRecord :=
  if keys = [] then []
  else [⟨.warning, .settings, (if file.isEmpty then defaultFile else file) ++
    ": ignoring unknown keys: " ++ ", ".intercalate keys, context⟩]

/-- Of settings in a version that is read, the fields are brought up to date and looked at. -/
theorem ofValue?_of_readable (file : String) (h : Readable (takeVersion fields).1) :
    ofValue? {} file (.object fields) =
      some (ofFields (if file.isEmpty then defaultFile else file) (upgraded fields)) := by
  rw [ofValue?, migrate?_of_readable h]
  rfl

/-- Settings are read if their version is, and if all of them suit. -/
theorem ofValue_of_suits (context : Context) (file : String) (keyed : Keyed fields)
    (hreadable : Readable (takeVersion fields).1)
    (hsuits : ∀ name ∈ names, Suits name (given fields name)) :
    ∃ listed, listed.Pairwise (· < ·) ∧ (∀ key, key ∈ listed ↔ IsLeftOver fields key) ∧
      ofValue {} context file (.object fields) =
        (ignoring context file listed, .ok (ofGiven (given fields))) := by
  obtain ⟨listed, hsorted, hlisted, hwarning⟩ := exists_listed (keyed_upgraded keyed)
  have hgiven : ∀ name ∈ names, Suits name ((upgraded fields).get? (.str name)) := by
    intro name hname
    rw [get?_upgraded hname]
    exact hsuits name hname
  refine ⟨listed, hsorted, fun key => ?_, ?_⟩
  · rw [hlisted, IsLeftOver]
    by_cases hname : key ∈ names
    · simp [hname]
    · rw [mem_keys_upgraded hname]
      tauto
  · rw [ofValue, ofValue?_of_readable file hreadable, ofFields, foldlM_take_of_suits hgiven,
      ofGiven_congr fun name hname => get?_upgraded hname, hwarning, ignoring]
    by_cases hempty : listed = []
    · rw [if_pos hempty, if_pos hempty]
      rfl
    · rw [if_neg hempty, if_neg hempty]
      rfl

/-- A version that is not read is refused without a look at the settings. -/
theorem ofValue_of_not_readable (context : Context) (file : String)
    (hversion : (takeVersion fields).1.number? ≠ none) (h : ¬ Readable (takeVersion fields).1) :
    ofValue {} context file (.object fields) =
      ([], .error (.ofSettings (.wrongVersion 2 (takeVersion fields).1))) := by
  rw [ofValue, ofValue?, migrate?_of_not_readable hversion h]
  rfl

/-- Unless all settings suit, the first one that does not is refused. -/
theorem ofValue_of_not_suits (context : Context) (file : String)
    (hreadable : Readable (takeVersion fields).1)
    (h : ¬ ∀ name ∈ names, Suits name (given fields name)) :
    ∃ name value fault, FirstMisfit (given fields) name value ∧
      ofValue {} context file (.object fields) = ([], .error (.ofSettings fault)) ∧
      fault.Names name value := by
  obtain ⟨name, value, hfirst⟩ := exists_firstMisfit h
  obtain ⟨fault, hfold, hfault⟩ := foldlM_take_of_firstMisfit
    (hfirst.congr fun name hname => (get?_upgraded hname).symm)
  refine ⟨name, value, fault, hfirst, ?_, hfault⟩
  rw [ofValue, ofValue?_of_readable file hreadable, ofFields, hfold]
  rfl

/-- Nothing else than settings that suit, in a version that is read, are read. -/
theorem suits_of_ofValue {context : Context} {records : List LogRecord}
    (hversion : (takeVersion fields).1.number? ≠ none)
    (h : ofValue {} context file (.object fields) = (records, .ok s)) :
    Readable (takeVersion fields).1 ∧ ∀ name ∈ names, Suits name (given fields name) := by
  by_cases hreadable : Readable (takeVersion fields).1
  · refine ⟨hreadable, ?_⟩
    by_contra hsuits
    obtain ⟨name, value, fault, -, hvalue, -⟩ :=
      ofValue_of_not_suits context file hreadable hsuits
    cases hvalue.symm.trans h
  · cases (ofValue_of_not_readable context file hversion hreadable).symm.trans h

/-- Choosing a second time changes nothing. -/
theorem chosen_chosen (default : Value) (given : Option Value) :
    chosen default (some (chosen default given)) = chosen default given := by
  cases given with
  | none => cases default <;> rfl
  | some value => cases value <;> cases default <;> rfl

/-- Settings are stored in the current version, under their names and with nothing else. -/
theorem keyed_stored (s : Settings) : Keyed (s.stored 2) :=
  keyed_map (("version", .int 2) :: s.pairs) (by simp [pairs])

/-- The version of stored settings can be read. -/
theorem readable_stored (s : Settings) : Readable (takeVersion (s.stored 2)).1 := .inr rfl

/-- Stored settings give each setting its value. -/
theorem given_stored (s : Settings) (hname : name ∈ names) :
    given (s.stored 2) name = some (s.get name) := by
  simp only [names, List.mem_cons, List.not_mem_nil, or_false] at hname
  rcases hname with rfl | rfl | rfl <;> rfl

/-- Stored settings hold no other keys. -/
theorem not_isLeftOver_stored (s : Settings) (key : String) : ¬ IsLeftOver (s.stored 2) key := by
  rintro ⟨hkey, hname, hversion, -⟩
  simp [stored, pairs, names] at hkey hname
  tauto

/-- What is chosen suits if the default and the given value do. -/
theorem Suits.chosen {default : Value} {given : Option Value} (hdefault : Suits name (some default))
    (h : Suits name given) : Suits name (some (chosen default given)) := by
  cases given with
  | none => exact hdefault
  | some value =>
    cases value with
    | null => exact hdefault
    | _ => exact h

/-- What is chosen from values that suit, suits. -/
theorem suits_get_ofGiven {given : String → Option Value} (hname : name ∈ names)
    (h : Suits name (given name)) : Suits name (some ((ofGiven given).get name)) := by
  simp only [names, List.mem_cons, List.not_mem_nil, or_false] at hname
  rcases hname with rfl | rfl | rfl
  · exact Suits.null.chosen h
  · exact (Suits.truth false).chosen h
  · exact Suits.null.chosen h

/-- Settings that are given their own values stay as they are. -/
theorem ofGiven_get (given : String → Option Value) :
    ofGiven (fun name => some ((ofGiven given).get name)) = ofGiven given := by
  rw [ofGiven, ofGiven, Settings.mk.injEq]
  exact ⟨chosen_chosen _ _, chosen_chosen _ _, chosen_chosen _ _⟩

/-- Settings that were read are read from what is stored for them. -/
theorem ofValue_stored (context : Context) (file : String) {given : String → Option Value}
    (h : ∀ name ∈ names, Suits name (given name)) :
    ofValue {} context file (.object ((ofGiven given).stored 2)) = ([], .ok (ofGiven given)) := by
  obtain ⟨listed, -, hlisted, hvalue⟩ := ofValue_of_suits context file
    (keyed_stored (ofGiven given)) (readable_stored _) fun name hname =>
      (given_stored (ofGiven given) hname).symm ▸ suits_get_ofGiven hname (h name hname)
  have hempty : listed = [] := List.eq_nil_iff_forall_not_mem.mpr fun key hkey =>
    not_isLeftOver_stored _ key ((hlisted key).mp hkey)
  rw [hvalue, hempty, ofGiven_congr fun name hname => given_stored (ofGiven given) hname,
    ofGiven_get]
  rfl

/-- An object whose keys are texts and whose version is a number or a truth value is read exactly if
its version is read and each setting suits. What is read holds the given values, or the defaults for
those that are absent or nothing; all the other keys are listed, in order, in one warning, if there
are any; and what is stored for it is read as the same settings, without a warning. A version that
is not read is refused whatever the settings are, and else the first setting that does not suit: a
refusal tells which it is, unless the value at fault has too many digits to be shown. -/
theorem reading_exact (context : Context) (file : String) (keyed : Keyed fields)
    (hversion : (takeVersion fields).1.number? ≠ none) :
    ((∃ records s, ofValue {} context file (.object fields) = (records, .ok s)) ↔
      Readable (takeVersion fields).1 ∧ ∀ name ∈ names, Suits name (given fields name)) ∧
    (∀ records s, ofValue {} context file (.object fields) = (records, .ok s) →
      s = ofGiven (given fields) ∧
      (∃ listed, listed.Pairwise (· < ·) ∧ (∀ key, key ∈ listed ↔ IsLeftOver fields key) ∧
        records = ignoring context file listed) ∧
      ∀ context' file', ofValue {} context' file' (.object (s.stored 2)) = ([], .ok s)) ∧
    (¬ Readable (takeVersion fields).1 →
      ∃ problem, ofValue {} context file (.object fields) = ([], .error problem) ∧
        problem = .ofSettings (.wrongVersion 2 (takeVersion fields).1) ∧
        problem.kind =
          if (takeVersion fields).1.isOverlong then "ValueError" else "IllegalState") ∧
    (Readable (takeVersion fields).1 → (¬ ∀ name ∈ names, Suits name (given fields name)) →
      ∃ name value fault problem, FirstMisfit (given fields) name value ∧
        ofValue {} context file (.object fields) = ([], .error problem) ∧
        problem = .ofSettings fault ∧ fault.Names name value ∧
        problem.kind = if value.isOverlong then "ValueError" else "SerdeError") := by
  refine ⟨⟨?_, ?_⟩, ?_, fun h => ?_, fun hreadable h => ?_⟩
  · rintro ⟨records, s, h⟩
    exact suits_of_ofValue hversion h
  · rintro ⟨hreadable, hsuits⟩
    obtain ⟨listed, -, -, h⟩ := ofValue_of_suits context file keyed hreadable hsuits
    exact ⟨_, _, h⟩
  · intro records s h
    obtain ⟨hreadable, hsuits⟩ := suits_of_ofValue hversion h
    obtain ⟨listed, hsorted, hlisted, hvalue⟩ :=
      ofValue_of_suits context file keyed hreadable hsuits
    cases hvalue.symm.trans h
    exact ⟨rfl, ⟨listed, hsorted, hlisted, rfl⟩, fun context' file' =>
      ofValue_stored context' file' hsuits⟩
  · exact ⟨_, ofValue_of_not_readable context file hversion h, rfl,
      SettingsFault.kind_wrongVersion _⟩
  · obtain ⟨name, value, fault, hfirst, hvalue, hfault⟩ :=
      ofValue_of_not_suits context file hreadable h
    exact ⟨name, value, fault, _, hfirst, hvalue, rfl, hfault, hfault.kind⟩

/-- In the first version the older name of a setting goes before the present one. -/
theorem reading_exact_older_name :
    Keyed [(.str "zeta", .null), (.str "containers", .bool true), (.str "use_containers", .int 5)] ∧
    (takeVersion [(.str "zeta", .null), (.str "containers", .bool true),
      (.str "use_containers", .int 5)]).1.number? ≠ none ∧
    ∃ records, ofValue {} [] "" (.object [(.str "zeta", .null), (.str "containers", .bool true),
      (.str "use_containers", .int 5)]) = (records, .ok { useContainers := .bool true }) := by
  have keyed : Keyed [(.str "zeta", .null), (.str "containers", .bool true),
      (.str "use_containers", .int 5)] :=
    keyed_map [("zeta", .null), ("containers", .bool true), ("use_containers", .int 5)]
      (by decide)
  have hversion : (takeVersion [(.str "zeta", .null), (.str "containers", .bool true),
      (.str "use_containers", .int 5)]).1.number? ≠ none := Option.some_ne_none _
  obtain ⟨hiff, hread, -⟩ := reading_exact [] "" keyed hversion
  have hsuits : ∀ name ∈ names, Suits name (given [(.str "zeta", .null),
      (.str "containers", .bool true), (.str "use_containers", .int 5)] name) := by
    simp only [names, List.forall_mem_cons]
    exact ⟨.absent, .truth true, .absent, List.forall_mem_nil _⟩
  obtain ⟨records, s, h⟩ := hiff.mpr ⟨.inl rfl, hsuits⟩
  obtain ⟨rfl, -⟩ := hread records s h
  exact ⟨keyed, hversion, records, h⟩

example : ofValue {} [] "" (.object [(.str "zeta", .null), (.str "alpha", .int 5)]) =
    ([⟨.warning, .settings, "config.yml: ignoring unknown keys: alpha, zeta", []⟩], .ok {}) := by
  rfl

/-- A version with too many digits is refused as a value that cannot be shown. -/
theorem overlong_version_escapes :
    Keyed [(.str "version", .int (2 ^ 14400 : Nat))] ∧
    ¬ Readable (takeVersion [(.str "version", .int (2 ^ 14400 : Nat))]).1 ∧
    ∃ problem, ofValue {} [] "config.yml" (.object [(.str "version", .int (2 ^ 14400 : Nat))]) =
      ([], .error problem) ∧ problem.kind = "ValueError" := by
  have hlong := Digits.limit_le_two_pow
  generalize 2 ^ 14400 = n at hlong ⊢
  have hversion : takeVersion [(.str "version", .int n)] = (.int n, []) := rfl
  have hlarge : 2 < n := by
    calc 2 < 10 ^ 1 := by decide
      _ ≤ 10 ^ Digits.limit := Nat.pow_le_pow_right (by decide) (by decide)
      _ ≤ n := hlong
  have hreadable : ¬ Readable (.int n) := by
    rintro (h | h)
    · have hfirst : (n : Int) = 1 := Value.int.inj (Value.isFirstVersion_iff.mp h)
      omega
    · have hsame : (n : Int) = 2 := by
        simpa [Value.same, Value.sameNumber, Value.number?, Value.Number.compare?] using h
      omega
  refine ⟨keyed_map [("version", .int n)] (by simp), hreadable, _,
    ofValue_of_not_readable _ _ (Option.some_ne_none _) hreadable, ?_⟩
  have hoverlong : (Value.int n).isOverlong = true :=
    Value.isOverlong_int.trans (decide_eq_true hlong)
  rw [SettingsFault.kind_wrongVersion, hversion, hoverlong, if_pos rfl]

end Settings

end TreeStore
