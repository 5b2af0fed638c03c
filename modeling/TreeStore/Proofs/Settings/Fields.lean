import TreeStore.Value
import Mathlib.Data.List.Nodup

/-!
# Fields by name

Looking up, setting and removing fields whose keys are texts. What is done to one of them leaves the
others as they are, and an object whose keys are texts, each of them once, stays such an object.
-/

namespace TreeStore

namespace Fields

variable {fields : Fields} {s t : String} {value : Value}

/-- Only the same text names the field of a text. -/
theorem sameKey_str_iff {k : Value} {s : String} : k.sameKey (.str s) = true ↔ k = .str s := by
  cases k <;> simp [Value.sameKey, Value.same, Value.sameNumber, Value.number?]

theorem sameKey_str_eq_false_iff {k : Value} : k.sameKey (.str s) = false ↔ k ≠ .str s := by
  rw [← Bool.not_eq_true, sameKey_str_iff]

theorem get?_eq_none_iff {fields : Fields} {key : Value} :
    fields.get? key = none ↔ ∀ f ∈ fields, f.1.sameKey key = false := by
  simp [get?]

theorem get?_cons_str {k : Value} : get? ((k, value) :: fields) (.str s) =
    if k.sameKey (.str s) then some value else get? fields (.str s) := by
  rw [get?, List.find?_cons]
  cases k.sameKey (.str s) <;> rfl

theorem mem_keys_iff {s : String} : .str s ∈ fields.map Prod.fst ↔ fields.get? (.str s) ≠ none := by
  rw [Ne, get?_eq_none_iff, List.mem_map]
  constructor
  · rintro ⟨f, hf, he⟩ hnone
    have h := hnone f hf
    rw [sameKey_str_eq_false_iff] at h
    exact h he
  · intro h
    by_contra hnot
    exact h fun f hf => sameKey_str_eq_false_iff.mpr fun he => hnot ⟨f, hf, he⟩

/-- A field that was removed is not there. -/
theorem get?_remove (fields : Fields) (key : Value) : (remove key fields).get? key = none := by
  rw [get?_eq_none_iff]
  intro f hf
  simpa using (List.mem_filter.mp hf).2

/-- Removing a field brings no other one. -/
theorem get?_remove_of_none {fields : Fields} {key : Value} (h : fields.get? key = none)
    (other : Value) : (remove other fields).get? key = none := by
  rw [get?_eq_none_iff] at h ⊢
  intro f hf
  exact h f (List.mem_filter.mp hf).1

/-- Removing a field leaves the others as they are. -/
theorem get?_remove_of_ne (hst : s ≠ t) (fields : Fields) :
    (remove (.str s) fields).get? (.str t) = fields.get? (.str t) := by
  rw [get?, get?, remove, List.find?_filter]
  congr 2
  funext f
  cases ht : f.1.sameKey (.str t) with
  | false => simp
  | true =>
    have hs : f.1.sameKey (.str s) = false := by
      rw [sameKey_str_eq_false_iff, sameKey_str_iff.mp ht]
      simpa using Ne.symm hst
    simp [hs]

/-- A field that was set has the value that it was set to. -/
theorem get?_put (fields : Fields) (s : String) (value : Value) :
    (put (.str s) value fields).get? (.str s) = some value := by
  induction fields with
  | nil => simp [put, get?, sameKey_str_iff]
  | cons f rest ih =>
    by_cases hf : f.1.sameKey (.str s) = true
    · simp [put, get?, hf]
    · rw [get?] at ih
      simp [put, get?, hf, ih]

/-- Setting a field leaves the others as they are. -/
theorem get?_put_of_ne (hst : s ≠ t) (value : Value) (fields : Fields) :
    (put (.str s) value fields).get? (.str t) = fields.get? (.str t) := by
  induction fields with
  | nil => simpa [put, get?, sameKey_str_iff] using hst
  | cons f rest ih =>
    obtain ⟨k, v⟩ := f
    by_cases hk : k.sameKey (.str s) = true
    · have hkt : k.sameKey (.str t) = false := by
        rw [sameKey_str_eq_false_iff, sameKey_str_iff.mp hk]
        simpa using hst
      rw [put, if_pos hk, get?_cons_str, get?_cons_str, hkt]
      rfl
    · rw [put, if_neg hk, get?_cons_str, get?_cons_str, ih]

/-- A key that is there keeps its place, and a new one comes last. -/
theorem keys_put (s : String) (value : Value) (fields : Fields) :
    (put (.str s) value fields).map Prod.fst =
      if fields.get? (.str s) = none then fields.map Prod.fst ++ [.str s]
      else fields.map Prod.fst := by
  induction fields with
  | nil => rfl
  | cons f rest ih =>
    obtain ⟨k, v⟩ := f
    rw [get?_cons_str]
    by_cases hk : k.sameKey (.str s) = true
    · simp [put, hk]
    · rw [put, if_neg hk, if_neg hk, List.map_cons, ih]
      split <;> rfl

/-- A field that is not there is set behind the others. -/
theorem put_of_get?_eq_none (h : fields.get? (.str s) = none) (value : Value) :
    put (.str s) value fields = fields ++ [(.str s, value)] := by
  induction fields with
  | nil => rfl
  | cons f rest ih =>
    obtain ⟨k, v⟩ := f
    rw [get?_cons_str] at h
    split at h
    · cases h
    · rename_i hk
      rw [put, if_neg hk, ih h, List.cons_append]

/-- A field that is set and removed leaves nothing, if it was not there before. -/
theorem remove_put (h : fields.get? (.str s) = none) (value : Value) :
    remove (.str s) (put (.str s) value fields) = fields := by
  induction fields with
  | nil => simp [put, remove, sameKey_str_iff]
  | cons f rest ih =>
    obtain ⟨k, v⟩ := f
    rw [get?_cons_str] at h
    split at h
    · cases h
    · rename_i hk
      rw [put, if_neg hk, remove, List.filter_cons_of_pos (by simpa using hk)]
      exact congrArg _ (ih h)

end Fields

/-- Whether a value is a text. -/
def Value.isText : Value → Bool
  | str _ => true
  | _ => false

theorem Value.isText_of_sameKey {k : Value} {s : String} (h : k.sameKey (.str s) = true) :
    k.isText = true := by
  rw [Fields.sameKey_str_iff] at h
  rw [h, isText]

namespace Fields

variable {fields : Fields}

/-- Keys that are texts, each of them once. -/
structure Keyed (fields : Fields) : Prop where
  /-- Every key is a text. -/
  isText : ∀ k ∈ fields.map Prod.fst, k.isText = true
  /-- No key comes twice. -/
  nodup : (fields.map Prod.fst).Nodup

theorem Keyed.remove (h : Keyed fields) (key : Value) : Keyed (remove key fields) :=
  have hkeys := List.filter_sublist (l := fields) |>.map Prod.fst
  ⟨fun k hk => h.isText k (hkeys.subset hk), h.nodup.sublist hkeys⟩

theorem Keyed.put (h : Keyed fields) (s : String) (value : Value) :
    Keyed (put (.str s) value fields) := by
  have hkeys := keys_put s value fields
  split at hkeys
  · rename_i hnone
    constructor
    · rw [hkeys, List.forall_mem_append, List.forall_mem_singleton]
      exact ⟨h.isText, rfl⟩
    · rw [hkeys, List.nodup_append_comm, List.singleton_append, List.nodup_cons, mem_keys_iff]
      exact ⟨not_not_intro hnone, h.nodup⟩
  · exact ⟨hkeys ▸ h.isText, hkeys ▸ h.nodup⟩

/-- Fields from names and their values. -/
theorem keyed_map (pairs : List (String × Value)) (h : (pairs.map Prod.fst).Nodup) :
    Keyed (pairs.map fun pair => (.str pair.1, pair.2)) := by
  have hkeys : (pairs.map fun pair => ((.str pair.1, pair.2) : Value × Value)).map Prod.fst =
      (pairs.map Prod.fst).map Value.str := by
    simp [List.map_map, Function.comp_def]
  constructor
  · rw [hkeys, List.forall_mem_map]
    exact fun _ _ => rfl
  · rw [hkeys]
    exact h.map fun _ _ => Value.str.inj

/-- The keys are the names of the fields. -/
theorem Keyed.exists_pairs (h : Keyed fields) :
    ∃ pairs : List (String × Value), fields = pairs.map fun pair => (.str pair.1, pair.2) := by
  have htext := h.isText
  clear h
  induction fields with
  | nil => exact ⟨[], rfl⟩
  | cons f rest ih =>
    obtain ⟨k, v⟩ := f
    rw [List.map_cons, List.forall_mem_cons] at htext
    obtain ⟨pairs, rfl⟩ := ih htext.2
    cases k with
    | str s => exact ⟨(s, v) :: pairs, rfl⟩
    | _ => cases htext.1

/-- Fields whose keys come once are collected as they are. -/
theorem Keyed.ofPairs_eq (h : Keyed fields) : ofPairs fields = fields := by
  have hcollect : ∀ rest seen : Fields, Keyed (seen ++ rest) →
      rest.foldl (fun acc f => Fields.put f.1 f.2 acc) seen = seen ++ rest := by
    intro rest
    induction rest with
    | nil => exact fun seen _ => (List.append_nil seen).symm
    | cons f rest ih =>
      intro seen h
      obtain ⟨k, v⟩ := f
      have htext := h.isText k (by simp)
      cases k with
      | str s =>
        have hnew : seen.get? (.str s) = none := by
          by_contra hget
          have hnodup := h.nodup
          rw [List.map_append, List.map_cons, List.nodup_append] at hnodup
          exact hnodup.2.2 _ (mem_keys_iff.mpr hget) _ List.mem_cons_self rfl
        rw [List.foldl_cons, put_of_get?_eq_none hnew, ih, List.append_assoc]
        · rfl
        · rwa [List.append_assoc]
      | _ => cases htext
  exact hcollect fields [] h

end Fields

end TreeStore
