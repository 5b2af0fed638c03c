import TreeStore.Json.Reader
import TreeStore.Proofs.Path.Ancestry

/-!
# The grammar of paths

What a path looks like, said by rules that build it up: the root, or names with a separator in front
of each. The checks, which scan a text from several sides, accept what the rules build and nothing
else, and the position that they report is that of the first character to blame. Texts are lists of
code points here, among which half a surrogate pair may stand. It is no character: the library reads
it as the replacement character, which is refused as well.
-/

namespace TreeStore.Path

/-- A code point. Half a surrogate pair has one, too. -/
abbrev CodePoint := Fin 0x110000

namespace CodePoint

/-- The code point of a character. -/
def ofChar (c : Char) : CodePoint where
  val := c.toNat
  isLt := by
    have h := c.valid
    simp only [UInt32.isValidChar, Nat.isValidChar] at h
    change c.val.toNat < _
    omega

/-- The character that the library reads a code point as. -/
def toChar (n : CodePoint) : Char := Json.charOf n

/-- The code points that no path may hold: control characters, halves of surrogate pairs, private
use characters and specials. -/
def IsRefused (n : CodePoint) : Prop :=
  n.val ≤ 0x1f ∨ (0x7f ≤ n.val ∧ n.val ≤ 0x9f) ∨ (0xd800 ≤ n.val ∧ n.val ≤ 0xf8ff) ∨
    (0xfff0 ≤ n.val ∧ n.val ≤ 0xffff)

/-- A code point is that of its character, or half a surrogate pair. -/
theorem toChar_cases (n : CodePoint) :
    n.toChar.toNat = n.val ∨
      (0xd800 ≤ n.val ∧ n.val ≤ 0xdfff) ∧ n.toChar = Json.replacement := by
  rw [toChar, Json.charOf, Encoding.charOf?]
  by_cases h : n.val.isValidChar
  · rw [dif_pos h]
    exact .inl rfl
  · rw [dif_neg h]
    refine .inr ⟨?_, rfl⟩
    have hn := n.isLt
    simp only [Nat.isValidChar] at h
    omega

theorem toChar_ofChar (c : Char) : (ofChar c).toChar = c := by
  have hv : (ofChar c).val.isValidChar := c.valid
  rw [toChar, Json.charOf, Encoding.charOf?, dif_pos hv]
  rfl

/-- A character other than the replacement is read from its own code point only. -/
theorem toChar_eq_iff {n : CodePoint} {c : Char} (hc : c ≠ Json.replacement) :
    n.toChar = c ↔ n = ofChar c := by
  constructor
  · rintro rfl
    obtain hn | ⟨-, hn⟩ := n.toChar_cases
    · exact Fin.ext hn.symm
    · exact absurd hn hc
  · rintro rfl
    exact toChar_ofChar c

theorem toNat_toChar_eq_zero_iff {n : CodePoint} : n.toChar.toNat = 0 ↔ n.val = 0 := by
  obtain hn | ⟨hn, he⟩ := n.toChar_cases
  · rw [hn]
  · have hr : Json.replacement.toNat = 0xfffd := rfl
    rw [he, hr]
    omega

/-- The scans for the null character and for the other ones refuse what the grammar refuses. -/
theorem isRefused_iff {n : CodePoint} :
    n.IsRefused ↔ n.toChar.toNat = 0 ∨ isForbidden n.toChar = true := by
  obtain hn | ⟨hn, he⟩ := n.toChar_cases
  · simp only [IsRefused, isForbidden, hn, Bool.or_eq_true, Bool.and_eq_true, decide_eq_true_eq]
    omega
  · have hr : isForbidden Json.replacement = true := by decide
    rw [he]
    exact iff_of_true (.inr (.inr (.inl ⟨hn.1, by omega⟩))) (.inr hr)

end CodePoint

/-- The text that the library reads code points as. -/
def text (codes : List CodePoint) : String := String.ofList (codes.map CodePoint.toChar)

/-- Every text is read from the code points of its characters. -/
theorem text_ofChar (p : String) : text (p.toList.map CodePoint.ofChar) = p := by
  have hchars : (CodePoint.toChar ∘ CodePoint.ofChar) = id := funext CodePoint.toChar_ofChar
  rw [text, List.map_map, hchars, List.map_id, String.ofList_toList]

namespace Grammar

open CodePoint (ofChar toChar toChar_eq_iff)

/-- A name between separators. -/
structure Name (s : List CodePoint) : Prop where
  /-- It is not empty. -/
  ne_nil : s ≠ []
  /-- It holds no separator. -/
  not_mem : ofChar '/' ∉ s
  /-- It holds nothing that no path may hold. -/
  allowed : ∀ n ∈ s, ¬ n.IsRefused
  /-- It does not say "here". -/
  ne_here : s ≠ [ofChar '.']
  /-- It does not say "one up". -/
  ne_up : s ≠ [ofChar '.', ofChar '.']

/-- One name or more, with a separator in front of each. -/
inductive Names : List CodePoint → Prop
  | single {s : List CodePoint} (name : Name s) : Names (ofChar '/' :: s)
  | cons {s rest : List CodePoint} (name : Name s) (more : Names rest) :
      Names (ofChar '/' :: (s ++ rest))

/-- A path: the root, or names. -/
inductive Canonical : List CodePoint → Prop
  | root : Canonical [ofChar '/']
  | below {codes : List CodePoint} (names : Names codes) : Canonical codes

variable {s codes : List CodePoint}

/-- A name is read as a segment, and nothing else is. -/
theorem isSegment_map_iff : IsSegment (s.map toChar) ↔ Name s := by
  have hslash : separator ∈ s.map toChar ↔ ofChar '/' ∈ s := by
    rw [List.mem_map]
    constructor
    · rintro ⟨n, hn, he⟩
      rwa [← (toChar_eq_iff (c := '/') (by decide)).mp he]
    · exact fun h => ⟨_, h, CodePoint.toChar_ofChar _⟩
  have hallowed : (∀ c ∈ s.map toChar, c.toNat ≠ 0 ∧ isForbidden c = false) ↔
      ∀ n ∈ s, ¬ n.IsRefused := by
    rw [List.forall_mem_map]
    refine forall₂_congr fun n _ => ?_
    rw [CodePoint.isRefused_iff, not_or, Bool.not_eq_true]
  have hhere : s.map toChar = ['.'] ↔ s = [ofChar '.'] := by
    simp [List.map_eq_cons_iff, toChar_eq_iff (c := '.') (by decide)]
  have hup : s.map toChar = ['.', '.'] ↔ s = [ofChar '.', ofChar '.'] := by
    simp [List.map_eq_cons_iff, toChar_eq_iff (c := '.') (by decide)]
  constructor
  · rintro ⟨h1, h2, h3, h4, h5⟩
    exact ⟨by simpa using h1, mt hslash.mpr h2, hallowed.mp h3, mt hhere.mpr h4, mt hup.mpr h5⟩
  · rintro ⟨h1, h2, h3, h4, h5⟩
    exact ⟨by simpa using h1, mt hslash.mp h2, hallowed.mpr h3, mt hhere.mp h4, mt hup.mp h5⟩

/-- The rules build what is read as a chain of segments. -/
theorem names_iff : Names codes ↔
    ∃ segs, segs ≠ [] ∧ (∀ t ∈ segs, IsSegment t) ∧ codes.map toChar = chain segs := by
  constructor
  · intro h
    induction h with
    | @single s name =>
      refine ⟨[s.map toChar], by simp, by simpa using isSegment_map_iff.mpr name, ?_⟩
      simp [CodePoint.toChar_ofChar, separator]
    | @cons s rest name more ih =>
      obtain ⟨segs, -, hsegs, he⟩ := ih
      refine ⟨s.map toChar :: segs, by simp, ?_, ?_⟩
      · exact List.forall_mem_cons.mpr ⟨isSegment_map_iff.mpr name, hsegs⟩
      · simp [CodePoint.toChar_ofChar, separator, he]
  · rintro ⟨segs, hne, hsegs, he⟩
    induction segs generalizing codes with
    | nil => exact absurd rfl hne
    | cons t segs ih =>
      rw [chain_cons, List.map_eq_cons_iff] at he
      obtain ⟨n, tail, rfl, hn, htail⟩ := he
      obtain rfl := (toChar_eq_iff (by decide)).mp hn
      obtain ⟨s, rest, rfl, rfl, hrest⟩ := List.map_eq_append_iff.mp htail
      obtain ⟨hs, hmore⟩ := List.forall_mem_cons.mp hsegs
      have hname := isSegment_map_iff.mp hs
      by_cases hlast : segs = []
      · rw [hlast, chain_nil, List.map_eq_nil_iff] at hrest
        rw [hrest, List.append_nil]
        exact .single hname
      · exact .cons hname (ih hlast hmore hrest)

theorem canonical_iff : Canonical codes ↔
    ∃ segs, (∀ t ∈ segs, IsSegment t) ∧ codes.map toChar = spell segs := by
  constructor
  · rintro (_ | names)
    · exact ⟨[], by simp, by simp [CodePoint.toChar_ofChar, separator]⟩
    · obtain ⟨segs, hne, hsegs, he⟩ := names_iff.mp names
      exact ⟨segs, hsegs, by rw [he, spell_of_ne_nil hne]⟩
  · rintro ⟨segs, hsegs, he⟩
    by_cases hne : segs = []
    · rw [hne, spell_nil, List.map_eq_singleton_iff] at he
      obtain ⟨n, rfl, hn⟩ := he
      obtain rfl := (toChar_eq_iff (by decide)).mp hn
      exact .root
    · rw [spell_of_ne_nil hne] at he
      exact .below (names_iff.mpr ⟨segs, hne, hsegs, he⟩)

/-- The rules accept the same code points with a separator behind them, where one may stand open. -/
theorem open_iff : (Canonical codes ∨
      ∃ q, Canonical q ∧ q ≠ [ofChar '/'] ∧ codes = q ++ [ofChar '/']) ↔
    ∃ segs, (∀ t ∈ segs, IsSegment t) ∧ (codes.map toChar = spell segs ∨
      segs ≠ [] ∧ codes.map toChar = spell segs ++ [separator]) := by
  constructor
  · rintro (h | ⟨q, hq, hne, rfl⟩)
    · obtain ⟨segs, hsegs, he⟩ := canonical_iff.mp h
      exact ⟨segs, hsegs, .inl he⟩
    · obtain _ | names := hq
      · exact absurd rfl hne
      · obtain ⟨segs, hsome, hsegs, he⟩ := names_iff.mp names
        refine ⟨segs, hsegs, .inr ⟨hsome, ?_⟩⟩
        simp [he, spell_of_ne_nil hsome, CodePoint.toChar_ofChar, separator]
  · rintro ⟨segs, hsegs, he | ⟨hne, he⟩⟩
    · exact .inl (canonical_iff.mpr ⟨segs, hsegs, he⟩)
    · obtain ⟨q, last, rfl, hq, hlast⟩ := List.map_eq_append_iff.mp he
      obtain ⟨n, rfl, hn⟩ := List.map_eq_singleton_iff.mp hlast
      obtain rfl := (toChar_eq_iff (by decide)).mp hn
      refine .inr ⟨q, canonical_iff.mpr ⟨segs, hsegs, hq⟩, ?_, rfl⟩
      rintro rfl
      obtain ⟨t, segs, rfl⟩ := List.exists_cons_of_ne_nil hne
      have ht := (hsegs t List.mem_cons_self).ne_nil
      simp [spell, CodePoint.toChar_ofChar, separator, ht] at hq

end Grammar

/-- The position that a fault reports. -/
def Fault.position? : Fault → Option Nat
  | null i | forbidden i => some i
  | _ => none

/-- The first position in a list where something holds. -/
def IsFirst {α : Type} (P : α → Prop) (xs : List α) (i : Nat) : Prop :=
  ∃ h : i < xs.length, P xs[i] ∧ ∀ j (hj : j < i), ¬ P xs[j]

/-- A position is shown at the end of the reason. -/
theorem Fault.reason_of_position? {f : Fault} {i : Nat} (h : f.position? = some i) :
    ∃ words, f.reason = words ++ "@" ++ toString i := by
  cases f with
  | null j =>
    obtain rfl := Option.some.inj h
    exact ⟨"null character not allowed ", rfl⟩
  | forbidden j =>
    obtain rfl := Option.some.inj h
    exact ⟨"invalid character ", rfl⟩
  | _ => cases h

private theorem position?_segmentFault? {s : List Char} {f : Fault}
    (h : segmentFault? s = some f) : f.position? = none := by
  unfold segmentFault? at h
  split at h
  · obtain rfl := Option.some.inj h
    rfl
  · split at h
    · obtain rfl := Option.some.inj h
      rfl
    · cases h

/-- A reported position is where the scan for the null character stopped, or the one for the others
if there is no null character. -/
private theorem tailFault?_position {p : List Char} {segs : List (List Char)} {f : Fault}
    (h : tailFault? p segs = some f) {i : Nat} (hi : f.position? = some i) :
    p.findIdx? (·.toNat = 0) = some i ∨
      p.findIdx? (·.toNat = 0) = none ∧ p.findIdx? isForbidden = some i := by
  unfold tailFault? at h
  split at h
  · rename_i j hnull
    obtain rfl := Option.some.inj h
    exact .inl (hnull.trans hi)
  · rename_i hnone
    split at h
    · rename_i j hforbidden
      obtain rfl := Option.some.inj h
      exact .inr ⟨hnone, hforbidden.trans hi⟩
    · obtain ⟨s, -, hs⟩ := List.exists_of_findSome?_eq_some h
      rw [position?_segmentFault? hs] at hi
      cases hi

private theorem fault?_position {isOpen : Bool} {p : List Char} {f : Fault}
    (h : fault? isOpen p = some f) {i : Nat} (hi : f.position? = some i) :
    p.findIdx? (·.toNat = 0) = some i ∨
      p.findIdx? (·.toNat = 0) = none ∧ p.findIdx? isForbidden = some i := by
  cases p with
  | nil =>
    obtain rfl := Option.some.inj h
    cases hi
  | cons c cs =>
    simp only [fault?] at h
    split at h
    · obtain rfl := Option.some.inj h
      cases hi
    split at h
    · cases h
    split at h
    · split at h
      · exact tailFault?_position h hi
      · obtain rfl := Option.some.inj h
        cases hi
    · exact tailFault?_position h hi

/-- A reported position is that of the first null character, or of the first refused one if there is
none. -/
theorem isFirst_of_position? {isOpen : Bool} {codes : List CodePoint} {f : Fault}
    (h : fault (text codes) isOpen = some f) {i : Nat} (hi : f.position? = some i) :
    ((∃ n ∈ codes, n.val = 0) → IsFirst (fun n : CodePoint => n.val = 0) codes i) ∧
      ((∀ n ∈ codes, n.val ≠ 0) → IsFirst CodePoint.IsRefused codes i) := by
  rw [fault, text, String.toList_ofList] at h
  obtain hnull | ⟨hnone, hforbidden⟩ := fault?_position h hi
  · rw [List.findIdx?_map, List.findIdx?_eq_some_iff_getElem] at hnull
    obtain ⟨hlt, hat, hbefore⟩ := hnull
    simp only [Function.comp_apply, decide_eq_true_eq, CodePoint.toNat_toChar_eq_zero_iff]
      at hat hbefore
    exact ⟨fun _ => ⟨hlt, hat, hbefore⟩, fun hno => absurd hat (hno _ (List.getElem_mem hlt))⟩
  · rw [List.findIdx?_map, List.findIdx?_eq_none_iff] at hnone
    rw [List.findIdx?_map, List.findIdx?_eq_some_iff_getElem] at hforbidden
    obtain ⟨hlt, hat, hbefore⟩ := hforbidden
    simp only [Function.comp_apply, decide_eq_false_iff_not,
      CodePoint.toNat_toChar_eq_zero_iff] at hnone
    refine ⟨fun ⟨n, hn, hz⟩ => absurd hz (hnone n hn), fun _ => ⟨hlt, ?_, fun j hj hr => ?_⟩⟩
    · exact CodePoint.isRefused_iff.mpr (.inr hat)
    · obtain hz | hf := CodePoint.isRefused_iff.mp hr
      · exact hnone _ (List.getElem_mem _) (CodePoint.toNat_toChar_eq_zero_iff.mp hz)
      · exact hbefore j hj hf

/-- Every text is read from code points. Whatever these are, the text is accepted exactly if the
rules build them or, where a separator may stand open at the end, if they are a path other than the
root with a separator behind it; otherwise it is refused as a malformed path, and a position that is
reported is that of the first null character or, if there is none, of the first other character that
no path may hold. -/
theorem validate_canonical :
    (∀ p : String, ∃ codes, text codes = p) ∧ ∀ codes : List CodePoint,
      let p := text codes
      (validate p false = .ok p ↔ Grammar.Canonical codes) ∧
      (validate p true = .ok p ↔ Grammar.Canonical codes ∨
        ∃ q, Grammar.Canonical q ∧ q ≠ [CodePoint.ofChar '/'] ∧
          codes = q ++ [CodePoint.ofChar '/']) ∧
      ∀ isOpen, validate p isOpen = .ok p ∨
        ∃ f, validate p isOpen = .error (.invalidPath (.str p) f) ∧
          ∀ i, f.position? = some i → (∃ words, f.reason = words ++ "@" ++ toString i) ∧
            ((∃ n ∈ codes, n.val = 0) → IsFirst (fun n : CodePoint => n.val = 0) codes i) ∧
            ((∀ n ∈ codes, n.val ≠ 0) → IsFirst CodePoint.IsRefused codes i) := by
  refine ⟨fun p => ⟨_, text_ofChar p⟩, fun codes => ?_⟩
  intro p
  have htoList : p.toList = codes.map CodePoint.toChar := String.toList_ofList
  refine ⟨?_, ?_, fun isOpen => ?_⟩
  · rw [validate_eq_ok_iff, and_iff_left rfl, fault, htoList, fault?_eq_none_iff,
      Grammar.canonical_iff]
  · rw [validate_eq_ok_iff, and_iff_left rfl, fault, htoList, fault?_open_eq_none_iff,
      Grammar.open_iff]
  · cases hf : fault p isOpen with
    | none => exact .inl (validate_eq_ok_iff.mpr ⟨hf, rfl⟩)
    | some f =>
      refine .inr ⟨f, validate_eq_error_iff.mpr ⟨f, hf, rfl⟩, fun i hi => ?_⟩
      exact ⟨Fault.reason_of_position? hi, isFirst_of_position? hf hi⟩

example : fault "/\x01/\x00" false = some (.null 3) ∧ fault "/a/" true = none := by decide

end TreeStore.Path
