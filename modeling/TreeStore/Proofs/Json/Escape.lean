import TreeStore.Json.Reader
import TreeStore.Json.Writer
import Mathlib

/-!
# Quoted texts in JSON

What is read back from a quoted text. Each character is written as itself or as an escape, and is
read as its 16-bit units: one unit, or a surrogate pair for a character beyond sixteen bits. As no
character is a surrogate itself, the units of a text are paired up to just its characters.
-/

namespace TreeStore

namespace Digits

/-- A hexadecimal digit has the value that it was written for. -/
theorem hexValue?_digitChar {d : Nat} (h : d < 16) : hexValue? (Nat.digitChar d) = some d := by
  decide +revert

/-- Each digit counts sixteen times less than the one before. -/
theorem ofHex?_concat (ds : List Char) (c : Char) :
    ofHex? (ds ++ [c]) = (ofHex? ds).bind fun n => (hexValue? c).map fun d => 16 * n + d := by
  rw [ofHex?, List.foldl_append, ofHex?]
  generalize List.foldl _ (some 0) ds = n
  cases n with
  | none => rfl
  | some n => cases h : hexValue? c <;> simp [h]

/-- A number is read back from its hexadecimal digits. -/
theorem ofHex?_toDigits (n : Nat) : ofHex? (Nat.toDigits 16 n) = some n := by
  induction n using Nat.strongRecOn with
  | ind n ih =>
    rw [Nat.toDigits_eq_if (by decide)]
    split
    · rename_i hlt
      simp [ofHex?, hexValue?_digitChar hlt]
    · rw [ofHex?_concat, ih (n / 16) (by omega), hexValue?_digitChar (Nat.mod_lt n (by decide))]
      exact congrArg some (Nat.div_add_mod n 16)

/-- Each of them stands for a value below sixteen. -/
theorem exists_digitChar_of_mem {c : Char} {n : Nat} (h : c ∈ Nat.toDigits 16 n) :
    ∃ d < 16, c = Nat.digitChar d := by
  induction n using Nat.strongRecOn with
  | ind n ih =>
    rw [Nat.toDigits_eq_if (by decide)] at h
    split at h
    · rename_i hlt
      exact ⟨n, hlt, List.mem_singleton.mp h⟩
    · rcases List.mem_append.mp h with h | h
      · exact ih (n / 16) (by omega) h
      · exact ⟨n % 16, Nat.mod_lt n (by decide), List.mem_singleton.mp h⟩

/-- Reading the hexadecimal digits of a number gives the number, however wide they are. -/
theorem ofHex?_hex (width n : Nat) : ofHex? (hex .lower width n) = some n := by
  have hzeros (k : Nat) (ds : List Char) : ofHex? (List.replicate k '0' ++ ds) = ofHex? ds := by
    induction k with
    | zero => rfl
    | succ k ih => exact ih
  rw [hex, fill, hzeros, ofHex?_toDigits]

/-- A number that fits is written with just as many digits as asked. -/
theorem length_hex {width n : Nat} (hwidth : 0 < width) (h : n < 16 ^ width) :
    (hex .lower width n).length = width := by
  have hle := (Nat.length_toDigits_le_iff (by decide) hwidth).mpr h
  rw [hex, length_fill]
  exact max_eq_left hle

end Digits

namespace Encoding

/-- A character is found by its number. -/
theorem charOf?_toNat (c : Char) : charOf? c.toNat = some c := by
  rw [charOf?, dif_pos (show c.toNat.isValidChar from c.valid)]
  rfl

/-- The 16-bit units of a character. -/
def units (c : Char) : List Nat :=
  if c.toNat < 0x10000 then [c.toNat]
  else [0xD800 + (c.toNat - 0x10000) / 0x400, 0xDC00 + (c.toNat - 0x10000) % 0x400]

/-- Characters are below the surrogates or above them. -/
theorem toNat_cases (c : Char) : c.toNat < 0xD800 ∨ 0xDFFF < c.toNat ∧ c.toNat < 0x110000 :=
  c.valid

/-- The number of a character is no half of a pair. -/
theorem isHigh_toNat (c : Char) : isHigh c.toNat = false := by
  have hcases := toNat_cases c
  simp [isHigh]
  omega

/-- A unit takes no more than four hexadecimal digits. -/
theorem lt_of_mem_units {c : Char} {u : Nat} (h : u ∈ units c) : u < 0x10000 := by
  have hcases := toNat_cases c
  unfold units at h
  split at h
  · rw [List.mem_singleton] at h
    omega
  · simp only [List.mem_cons, List.not_mem_nil, or_false] at h
    omega

/-- The units of a surrogate pair stand for the code point that it was made from. -/
theorem joined_halves {n : Nat} (h : 0x10000 ≤ n) :
    joined (0xD800 + (n - 0x10000) / 0x400) (0xDC00 + (n - 0x10000) % 0x400) = n := by
  unfold joined
  omega

end Encoding

namespace Json

open Digits Encoding

/-- A character is what its number stands for. -/
theorem charOf_toNat (c : Char) : charOf c.toNat = c := by
  rw [charOf, charOf?_toNat]
  rfl

/-- A unit that begins no pair stands for itself. -/
theorem pairUp_cons {u : Nat} (h : isHigh u = false) (us : List Nat) :
    pairUp (u :: us) = charOf u :: pairUp us := by
  cases us with
  | nil => rfl
  | cons v rest => simp [pairUp, h]

/-- Two halves stand for one character. -/
theorem pairUp_pair {u v : Nat} (hu : isHigh u = true) (hv : isLow v = true) (us : List Nat) :
    pairUp (u :: v :: us) = charOf (joined u v) :: pairUp us := by
  simp [pairUp, hu, hv]

/-- The units of a text are paired up to its characters. -/
theorem pairUp_units (cs : List Char) : pairUp (cs.flatMap units) = cs := by
  induction cs with
  | nil => rfl
  | cons c cs ih =>
    rw [List.flatMap_cons, units]
    split
    · rw [List.singleton_append, pairUp_cons (isHigh_toNat c), charOf_toNat, ih]
    · rename_i hlarge
      have hcases := toNat_cases c
      rw [List.cons_append, List.singleton_append, pairUp_pair, joined_halves (by omega),
        charOf_toNat, ih]
      · simp [isHigh]
        omega
      · simp [isLow]
        omega

/-- Whether a character is in ASCII and does not stand for zero. -/
def isPlain (c : Char) : Bool := 0 < c.toNat && c.toNat < 0x80

/-- The plain characters are those below the first that takes two bytes, but for the null. -/
theorem isPlain_iff {c : Char} : isPlain c = true ↔ 0 < c.toNat ∧ c.toNat < 0x80 := by
  rw [isPlain, Bool.and_eq_true, decide_eq_true_eq, decide_eq_true_eq]

/-- A character that is written as itself is read as itself. -/
theorem stringTail_cons {c : Char} (hquote : c ≠ '"') (hescape : c ≠ '\\')
    (h : 0x20 ≤ c.toNat) (seen : List Nat) (rest : List Char) :
    stringTail seen (c :: rest) = stringTail (c.toNat :: seen) rest := by
  rw [stringTail, if_neg (Nat.not_lt.mpr h)]
  · exact hquote
  · exact fun _ _ _ _ _ he _ => hescape he
  · exact fun _ _ he _ => hescape he

/-- An escape for a unit is read as the unit. -/
theorem stringTail_unitEscape {n : Nat} (h : n < 0x10000) (seen : List Nat) (rest : List Char) :
    stringTail seen (unitEscape n ++ rest) = stringTail (n :: seen) rest := by
  obtain ⟨a, b, c, d, hdigits⟩ := List.length_eq_four.mp (length_hex (show 0 < 4 by decide) h)
  have hread := ofHex?_hex 4 n
  rw [hdigits] at hread
  simp [unitEscape, hdigits, stringTail, hread]

/-- Escaped units are read one by one. -/
theorem stringTail_units {us : List Nat} (h : ∀ u ∈ us, u < 0x10000) (seen : List Nat)
    (rest : List Char) :
    stringTail seen (us.flatMap unitEscape ++ rest) = stringTail (us.reverse ++ seen) rest := by
  induction us generalizing seen with
  | nil => rfl
  | cons u us ih =>
    rw [List.forall_mem_cons] at h
    rw [List.flatMap_cons, List.append_assoc, stringTail_unitEscape h.1, ih h.2]
    simp

/-- The short escapes are plain, as are the characters that they stand for. -/
theorem plain_of_simpleEscape? {letter c : Char} (h : simpleEscape? letter = some c) :
    isPlain letter = true ∧ c.toNat < 0x80 := by
  unfold simpleEscape? at h
  split at h <;> cases h <;> decide

/-- An escape with one letter is read as the character that it stands for. -/
theorem stringTail_letter {letter c : Char} (h : simpleEscape? letter = some c) (seen : List Nat)
    (rest : List Char) :
    stringTail seen ('\\' :: letter :: rest) = stringTail (c.toNat :: seen) rest := by
  have hletter : letter ≠ 'u' := by
    rintro rfl
    cases h
  rw [stringTail, h]
  exact fun _ _ _ _ _ he _ => hletter he

/-- What a character is written as: an escape with one letter, itself, or escapes for its units. -/
theorem escapeChar_cases (c : Char) :
    (∃ letter, simpleEscape? letter = some c ∧ escapeChar c = ['\\', letter]) ∨
    (c ≠ '"' ∧ c ≠ '\\' ∧ 0x20 ≤ c.toNat ∧ c.toNat < 0x7F ∧ escapeChar c = [c]) ∨
    escapeChar c = (units c).flatMap unitEscape := by
  unfold escapeChar
  split
  · rename_i h
    rw [Bool.or_eq_true, decide_eq_true_eq, decide_eq_true_eq] at h
    refine .inl ⟨c, ?_, rfl⟩
    rcases h with rfl | rfl <;> rfl
  rename_i hquote
  rw [Bool.or_eq_true, decide_eq_true_eq, decide_eq_true_eq, not_or] at hquote
  split
  · subst c
    exact .inl ⟨'n', rfl, rfl⟩
  split
  · subst c
    exact .inl ⟨'r', rfl, rfl⟩
  split
  · subst c
    exact .inl ⟨'t', rfl, rfl⟩
  split
  · subst c
    exact .inl ⟨'b', rfl, rfl⟩
  split
  · subst c
    exact .inl ⟨'f', rfl, rfl⟩
  split
  · rename_i hplain
    obtain ⟨hlow, hhigh⟩ : 0x20 ≤ c.toNat ∧ c.toNat ≤ 0x7E := hplain
    exact .inr (.inl ⟨hquote.1, hquote.2, hlow, by omega, rfl⟩)
  · rw [units]
    split <;> simp

/-- What a character is written as is read as its units. -/
theorem stringTail_escapeChar (c : Char) (seen : List Nat) (rest : List Char) :
    stringTail seen (escapeChar c ++ rest) = stringTail ((units c).reverse ++ seen) rest := by
  rcases escapeChar_cases c with ⟨letter, hletter, htext⟩ | ⟨hquote, hescape, hlow, hhigh, htext⟩ |
    htext
  · have hlow := (plain_of_simpleEscape? hletter).2
    have hunits : units c = [c.toNat] := if_pos (by omega)
    rw [htext, hunits]
    exact stringTail_letter hletter seen rest
  · have hunits : units c = [c.toNat] := if_pos (by omega)
    rw [htext, hunits]
    exact stringTail_cons hquote hescape hlow seen rest
  · rw [htext, stringTail_units fun u => lt_of_mem_units]

/-- Escaped characters are read as far as the closing quotation mark. -/
theorem stringTail_flatMap (cs : List Char) (seen : List Nat) (rest : List Char) :
    stringTail seen (cs.flatMap escapeChar ++ '"' :: rest) =
      some (seen.reverse ++ cs.flatMap units, rest) := by
  induction cs generalizing seen with
  | nil => simp [stringTail]
  | cons c cs ih =>
    rw [List.flatMap_cons, List.append_assoc, stringTail_escapeChar, ih, List.flatMap_cons]
    simp

/-- What is between the quotes of a quoted text is read as the text. -/
theorem string_escaped (s : String) (rest : List Char) :
    string (s.toList.flatMap escapeChar ++ '"' :: rest) = .ok (s, rest) := by
  rw [string, stringTail_flatMap, List.reverse_nil, List.nil_append]
  simp [pairUp_units]

/-- Digits are plain. -/
theorem plain_of_isDigit {c : Char} (h : c.isDigit = true) : isPlain c = true := by
  simp only [Char.isDigit, Bool.and_eq_true, decide_eq_true_eq, UInt32.le_iff_toNat_le] at h
  rw [isPlain_iff]
  exact ⟨Nat.lt_of_lt_of_le (by decide) h.1, Nat.lt_of_le_of_lt h.2 (by decide)⟩

/-- Hexadecimal digits are plain. -/
theorem plain_digitChar {d : Nat} (h : d < 16) : isPlain (Nat.digitChar d) = true := by
  decide +revert

/-- A number that is written with hexadecimal digits is plain. -/
theorem plain_hex (width n : Nat) : (hex .lower width n).all isPlain = true := by
  have hdigits : (Nat.toDigits 16 n).all isPlain = true := by
    rw [List.all_eq_true]
    intro c hc
    obtain ⟨d, hd, rfl⟩ := exists_digitChar_of_mem hc
    exact plain_digitChar hd
  simp [hex, fill, hdigits, isPlain]

/-- Every character is escaped by plain ones. -/
theorem plain_escapeChar (c : Char) : (escapeChar c).all isPlain = true := by
  rcases escapeChar_cases c with ⟨letter, hletter, htext⟩ | ⟨-, -, hlow, hhigh, htext⟩ | htext
  · rw [htext, List.all_cons, List.all_cons, (plain_of_simpleEscape? hletter).1]
    rfl
  · have hplain : isPlain c = true := isPlain_iff.mpr (by omega)
    rw [htext, List.all_cons, hplain]
    rfl
  · rw [htext, List.all_flatMap, List.all_eq_true]
    intro u _
    rw [unitEscape, List.all_cons, List.all_cons, plain_hex]
    rfl

/-- Whatever a text holds, what it is written as is plain. -/
theorem plain_quoted (s : String) : (quoted s).all isPlain = true := by
  have hescaped : (s.toList.flatMap escapeChar).all isPlain = true := by
    rw [List.all_flatMap, List.all_eq_true]
    exact fun c _ => plain_escapeChar c
  rw [quoted, List.all_cons, List.all_append, hescaped]
  rfl

end Json

end TreeStore
