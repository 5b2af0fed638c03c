import TreeStore.Proofs.Json.Escape
import TreeStore.Proofs.Settings.Fields

/-!
# Reading what was written in JSON

A value that is written is read back, in any layout: the reader gives the value and leaves what
follows its text. This holds of values without floating point numbers whose integers are not too
long to be read and whose objects have texts as keys, each of them once.
-/

namespace TreeStore

namespace Digits

variable {n : Nat} {c : Char}

/-- The decimal digits of a number are digits. -/
theorem isDigit_of_mem_decimal (h : c ∈ decimal n) : c.isDigit = true :=
  Nat.isDigit_of_mem_toDigits (by decide) (by decide) h

/-- The digits of a number begin with one, and with no zero unless the number is zero. -/
theorem exists_decimal_eq_cons (n : Nat) :
    ∃ d ds, decimal n = d :: ds ∧ d.isDigit = true ∧ (n ≠ 0 → d ≠ '0') := by
  induction n using Nat.strongRecOn with
  | ind n ih =>
    rw [decimal, Nat.toDigits_eq_if (by decide)]
    split
    · rename_i hlt
      have hdigit : ∀ d < 10,
          (Nat.digitChar d).isDigit = true ∧ (d ≠ 0 → Nat.digitChar d ≠ '0') := by
        decide
      exact ⟨_, _, rfl, hdigit n hlt⟩
    · obtain ⟨d, ds, hds, hd, hzero⟩ := ih (n / 10) (by omega)
      rw [decimal] at hds
      rw [hds]
      exact ⟨d, _, rfl, hd, fun _ => hzero (by omega)⟩

end Digits

namespace Json

open Digits Encoding

variable {rest : List Char}

/-- What may follow a value: nothing, a comma, a new line or a closing bracket, none of which
continues a number. -/
inductive Ends : List Char → Prop
  | nil : Ends []
  | comma (rest : List Char) : Ends (',' :: rest)
  | newline (rest : List Char) : Ends ('\n' :: rest)
  | bracket (rest : List Char) : Ends (']' :: rest)
  | brace (rest : List Char) : Ends ('\x7d' :: rest)

/-- No digit follows where a number may end. -/
theorem takeWhile_isDigit_of_ends (h : Ends rest) :
    rest.takeWhile Char.isDigit = [] ∧ rest.dropWhile Char.isDigit = rest := by
  cases h <;> exact ⟨rfl, rfl⟩

/-- No fraction follows there. -/
theorem fraction_of_ends (h : Ends rest) : fraction rest = ([], rest) := by
  cases h <;> rfl

/-- No exponent follows where a number may end. -/
theorem exponent?_of_ends (h : Ends rest) : exponent? rest = (none, rest) := by
  cases h <;> rfl

/-- The digits of a number are read up to what follows it. -/
theorem whole_decimal (n : Nat) (h : Ends rest) :
    whole (decimal n ++ rest) = (decimal n, rest) := by
  by_cases hn : n = 0
  · subst n
    rfl
  · obtain ⟨d, ds, hds, -, hzero⟩ := exists_decimal_eq_cons n
    have hdigits : ∀ c ∈ decimal n, c.isDigit = true := fun c => isDigit_of_mem_decimal
    obtain ⟨htake, hdrop⟩ := takeWhile_isDigit_of_ends h
    rw [whole, List.takeWhile_append_of_pos hdigits, List.dropWhile_append_of_pos hdigits, htake,
      hdrop, List.append_nil]
    intro _ he
    rw [hds] at he
    exact hzero hn (List.cons.inj he).1

/-- The digits that are not too many are read as their number, behind a sign or without one. -/
theorem number_decimal (n : Nat) (hshort : (decimal n).length ≤ limit) (h : Ends rest) :
    number (decimal n ++ rest) = .ok (.int n, rest) ∧
      number ('-' :: (decimal n ++ rest)) = .ok (.int (-n), rest) := by
  have hne : decimal n ≠ [] := Nat.toDigits_ne_nil
  have hinteger : integer (decimal n) = .ok n := by
    rw [integer, if_neg (Nat.not_lt.mpr hshort), ofDecimal_decimal]
  constructor
  · have hsign : ∀ more, decimal n ++ rest ≠ '-' :: more := by
      intro more he
      obtain ⟨d, ds, hds, hd, -⟩ := exists_decimal_eq_cons n
      rw [hds] at he
      cases he
      cases hd
    unfold number
    split
    rename_i hsplit
    split at hsplit
    · rename_i he
      exact absurd he (hsign _)
    · cases hsplit
      simp [whole_decimal n h, hne, fraction_of_ends h, exponent?_of_ends h, hinteger]
  · simp [number, whole_decimal n h, hne, fraction_of_ends h, exponent?_of_ends h, hinteger]

/-- An integer that is short enough is read back from its digits and its sign. -/
theorem number_signed {n : Int} (hshort : (Value.int n).isOverlong = false) (h : Ends rest) :
    number (signed n ++ rest) = .ok (.int n, rest) := by
  rw [Value.isOverlong, decide_eq_false_iff_not, Nat.not_lt] at hshort
  cases n with
  | ofNat n => exact (number_decimal n hshort h).1
  | negSucc n => exact (number_decimal (n + 1) hshort h).2

variable {layout : Layout} {depth : Nat}

/-- Blanks in front are skipped. -/
theorem skip_append {blanks : List Char} (h : ∀ c ∈ blanks, isBlank c = true) (rest : List Char) :
    skip (blanks ++ rest) = skip rest :=
  List.dropWhile_append_of_pos h

/-- Nothing is skipped in front of another character. -/
theorem skip_cons {c : Char} (h : isBlank c = false) (rest : List Char) :
    skip (c :: rest) = c :: rest :=
  List.dropWhile_cons_of_neg (by simp [h])

/-- A digit is no blank. -/
theorem isBlank_of_isDigit {c : Char} (h : c.isDigit = true) : isBlank c = false := by
  by_contra hblank
  simp only [isBlank, Bool.not_eq_false, Bool.or_eq_true, decide_eq_true_eq] at hblank
  rcases hblank with ((rfl | rfl) | rfl) | rfl <;> cases h

/-- A gap of a layout holds blanks only. -/
theorem isBlank_of_mem_gap {c : Char} (h : c ∈ layout.gap depth) : isBlank c = true := by
  cases layout with
  | line => cases h
  | lines width =>
    rcases List.mem_cons.mp h with rfl | h
    · rfl
    · rw [List.eq_of_mem_replicate h]
      rfl

/-- Between two members there is a comma and then only blanks. -/
theorem exists_comma (layout : Layout) (depth : Nat) :
    ∃ blanks, layout.comma depth = ',' :: blanks ∧ ∀ c ∈ blanks, isBlank c = true := by
  cases layout with
  | line => exact ⟨[' '], rfl, List.forall_mem_singleton.mpr rfl⟩
  | lines width => exact ⟨(Layout.lines width).gap depth, rfl, fun _ => isBlank_of_mem_gap⟩

/-- The gap in front of a closing bracket ends a value. -/
theorem ends_gap (layout : Layout) (depth : Nat) {rest : List Char} (h : Ends rest) :
    Ends (layout.gap depth ++ rest) := by
  cases layout with
  | line => exact h
  | lines width => exact .newline _

/-- Values that are written in a form that is read back. -/
inductive Writable : Value → Prop
  | null : Writable .null
  | bool (b : Bool) : Writable (.bool b)
  | int (n : Int) (short : (Value.int n).isOverlong = false) : Writable (.int n)
  | str (s : String) : Writable (.str s)
  | list (xs : List Value) (all : ∀ x ∈ xs, Writable x) : Writable (.list xs)
  | object (fields : Fields) (keyed : fields.Keyed) (all : ∀ f ∈ fields, Writable f.2) :
      Writable (.object fields)

/-- Texts with something between them, as the first text and the others. -/
theorem intercalate_cons (between text : List Char) (texts : List (List Char)) :
    between.intercalate (text :: texts) = text ++ texts.flatMap fun other => between ++ other := by
  induction texts generalizing text with
  | nil => simp
  | cons next texts ih =>
    rw [List.intercalate_cons_cons, ih, List.flatMap_cons]
    simp

/-- The text of a field. -/
def fieldText (layout : Layout) (depth : Nat) (f : Value × Value) : List Char :=
  keyText f.1 ++ ':' :: ' ' :: render layout depth f.2

/-- The values of a list are written one by one. -/
theorem renderAll_eq (xs : List Value) :
    renderAll layout depth xs = xs.map (render layout depth) := by
  induction xs with
  | nil => rfl
  | cons x xs ih => rw [renderAll, ih, List.map_cons]

/-- The fields of an object are written one by one. -/
theorem renderFields_eq (fields : Fields) :
    renderFields layout depth fields = fields.map (fieldText layout depth) := by
  induction fields with
  | nil => rfl
  | cons f fields ih => rw [renderFields, ih, List.map_cons, fieldText]

/-- The text of an array that has members, in front of another text. -/
theorem render_list_append (layout : Layout) (depth : Nat) (x : Value) (xs : List Value)
    (rest : List Char) : render layout depth (.list (x :: xs)) ++ rest =
      '[' :: (layout.gap (depth + 1) ++ (render layout (depth + 1) x ++
        ((xs.flatMap fun y => layout.comma (depth + 1) ++ render layout (depth + 1) y) ++
          (layout.gap depth ++ ']' :: rest)))) := by
  simp [render, renderAll, renderAll_eq, intercalate_cons, List.flatMap_map]

/-- The text of an object that has fields, in front of another text. -/
theorem render_object_append (layout : Layout) (depth : Nat) (f : Value × Value) (fields : Fields)
    (rest : List Char) : render layout depth (.object (f :: fields)) ++ rest =
      '\x7b' :: (layout.gap (depth + 1) ++ (fieldText layout (depth + 1) f ++
        ((fields.flatMap fun g => layout.comma (depth + 1) ++ fieldText layout (depth + 1) g) ++
          (layout.gap depth ++ '\x7d' :: rest)))) := by
  simp [render, renderFields_eq, intercalate_cons, List.flatMap_map]

/-- A written integer begins with a digit, or with a sign and a digit. -/
theorem exists_signed (n : Int) : ∃ d ds, d.isDigit = true ∧
    (signed n = d :: ds ∨ signed n = '-' :: d :: ds) := by
  cases n with
  | ofNat n =>
    obtain ⟨d, ds, hds, hd, -⟩ := exists_decimal_eq_cons n
    exact ⟨d, ds, hd, .inl hds⟩
  | negSucc n =>
    obtain ⟨d, ds, hds, hd, -⟩ := exists_decimal_eq_cons (n + 1)
    exact ⟨d, ds, hd, .inr (congrArg _ hds)⟩

/-- What begins with a digit, or with a sign and a digit, is read as a number. -/
theorem value_of_isDigit {d : Char} (hd : d.isDigit = true) (fuel : Nat) (cs : List Char) :
    value (fuel + 1) (d :: cs) = number (d :: cs) ∧
      value (fuel + 1) ('-' :: d :: cs) = number ('-' :: d :: cs) := by
  constructor
  all_goals
    rw [value]
    all_goals
      intro _ he
      cases he <;> cases hd

/-- A value starts with a character that is no blank and no closing bracket. -/
theorem exists_render {v : Value} (h : Writable v) (layout : Layout) (depth : Nat) :
    ∃ c cs, render layout depth v = c :: cs ∧ isBlank c = false ∧ c ≠ ']' := by
  cases h with
  | null => exact ⟨_, _, rfl, by decide, by decide⟩
  | bool b => cases b <;> exact ⟨_, _, rfl, by decide, by decide⟩
  | int n =>
    obtain ⟨d, ds, hd, htext | htext⟩ := exists_signed n
    · refine ⟨d, ds, htext, isBlank_of_isDigit hd, ?_⟩
      rintro rfl
      cases hd
    · exact ⟨'-', d :: ds, htext, by decide, by decide⟩
  | str s => exact ⟨_, _, rfl, by decide, by decide⟩
  | list xs => cases xs <;> exact ⟨_, _, rfl, by decide, by decide⟩
  | object fields => cases fields <;> exact ⟨_, _, rfl, by decide, by decide⟩

section Step

variable {fuel : Nat} {cs after rest : List Char} {v : Value} {name : String}

/-- An array with a member is read from its first member on. -/
theorem value_list {c : Char} (hskip : skip cs = c :: rest) (hc : c ≠ ']') :
    value (fuel + 1) ('[' :: cs) =
      (elements fuel [] (c :: rest)).map fun (xs, rest) => (.list xs, rest) := by
  rw [value, hskip]
  split
  · rename_i he
    cases he
    exact absurd rfl hc
  · rfl

/-- An object with a field is read from its first name on. -/
theorem value_object (hskip : skip cs = '"' :: rest) :
    value (fuel + 1) ('\x7b' :: cs) = (members fuel [] ('"' :: rest)).map
      fun (fields, rest) => (.object (Fields.ofPairs fields), rest) := by
  rw [value, hskip]
  rfl

/-- Behind a comma there is one more member of an array. -/
theorem elements_comma (hv : value fuel cs = .ok (v, after)) (hafter : skip after = ',' :: rest)
    (seen : List Value) :
    elements (fuel + 1) seen cs = elements fuel (v :: seen) (skip rest) := by
  simp [elements, hv, hafter, bind, Except.bind]

/-- A closing bracket ends an array. -/
theorem elements_bracket (hv : value fuel cs = .ok (v, after)) (hafter : skip after = ']' :: rest)
    (seen : List Value) : elements (fuel + 1) seen cs = .ok ((v :: seen).reverse, rest) := by
  simp [elements, hv, hafter, bind, Except.bind, pure, Except.pure]

/-- A quoted text begins and ends with a quotation mark. -/
theorem quoted_append (s : String) (rest : List Char) :
    quoted s ++ rest = '"' :: (s.toList.flatMap escapeChar ++ '"' :: rest) := by
  simp [quoted]

/-- Behind a comma there is one more field of an object. -/
theorem members_comma (hv : value fuel cs = .ok (v, after)) (hafter : skip after = ',' :: rest)
    (hcs : skip cs = cs) (seen : List (Value × Value)) :
    members (fuel + 1) seen (quoted name ++ ':' :: ' ' :: cs) =
      members fuel ((.str name, v) :: seen) (skip rest) := by
  have hcolon (more : List Char) : skip (':' :: more) = ':' :: more := skip_cons rfl more
  have hblank : skip (' ' :: cs) = cs := hcs
  rw [quoted_append]
  simp [members, string_escaped, hcolon, hblank, hv, hafter, bind, Except.bind]

/-- A closing brace ends an object. -/
theorem members_brace (hv : value fuel cs = .ok (v, after)) (hafter : skip after = '\x7d' :: rest)
    (hcs : skip cs = cs) (seen : List (Value × Value)) :
    members (fuel + 1) seen (quoted name ++ ':' :: ' ' :: cs) =
      .ok (((.str name, v) :: seen).reverse, rest) := by
  have hcolon (more : List Char) : skip (':' :: more) = ':' :: more := skip_cons rfl more
  have hblank : skip (' ' :: cs) = cs := hcs
  rw [quoted_append]
  simp [members, string_escaped, hcolon, hblank, hv, hafter, bind, Except.bind, pure, Except.pure]

end Step

/-- Whether a value is read back from what it is written as, given as much fuel as the text is long.
-/
def ReadsBack (layout : Layout) (v : Value) : Prop :=
  ∀ (fuel depth : Nat) (rest : List Char), (render layout depth v).length ≤ fuel → Ends rest →
    value fuel (render layout depth v ++ rest) = .ok (v, rest)

/-- A gap is skipped as far as the next character that is no blank. -/
theorem skip_gap_cons (layout : Layout) (depth : Nat) {c : Char} (h : isBlank c = false)
    (rest : List Char) : skip (layout.gap depth ++ c :: rest) = c :: rest := by
  rw [skip_append fun c => isBlank_of_mem_gap, skip_cons h]

/-- A written value begins with no blank. -/
theorem skip_render {v : Value} (h : Writable v) (layout : Layout) (depth : Nat)
    (rest : List Char) : skip (render layout depth v ++ rest) = render layout depth v ++ rest := by
  obtain ⟨c, cs, htext, hblank, -⟩ := exists_render h layout depth
  rw [htext, List.cons_append, skip_cons hblank]

/-- The members of an array are read one after the other, up to its closing bracket. -/
theorem elements_render (fuel inner outer : Nat) {x : Value} {xs : List Value}
    (hwritable : ∀ y ∈ x :: xs, Writable y) (hreads : ∀ y ∈ x :: xs, ReadsBack layout y)
    (hfuel : (render layout inner x).length +
      (xs.flatMap fun y => layout.comma inner ++ render layout inner y).length < fuel)
    (seen : List Value) (rest : List Char) :
    elements fuel seen (render layout inner x ++
        ((xs.flatMap fun y => layout.comma inner ++ render layout inner y) ++
          (layout.gap outer ++ ']' :: rest))) =
      .ok (seen.reverse ++ x :: xs, rest) := by
  obtain ⟨blanks, hcomma, hblanks⟩ := exists_comma layout inner
  rw [hcomma] at hfuel ⊢
  obtain ⟨fuel, rfl⟩ : ∃ k, fuel = k + 1 := ⟨fuel - 1, by omega⟩
  induction xs generalizing x seen fuel with
  | nil =>
    have hx := hreads x List.mem_cons_self fuel inner (layout.gap outer ++ ']' :: rest) (by omega)
      (ends_gap layout outer (.bracket rest))
    rw [List.flatMap_nil, List.nil_append,
      elements_bracket hx (skip_gap_cons layout outer rfl rest), List.reverse_cons]
  | cons y ys ih =>
    rw [List.forall_mem_cons] at hwritable hreads
    simp only [List.flatMap_cons, List.length_append, List.length_cons] at hfuel
    obtain ⟨fuel, rfl⟩ : ∃ k, fuel = k + 1 := ⟨fuel - 1, by omega⟩
    have hx (more : List Char) := hreads.1 (fuel + 1) inner (',' :: more) (by omega) (.comma more)
    rw [List.flatMap_cons, List.append_assoc, List.append_assoc, List.cons_append,
      elements_comma (hx _) (skip_cons rfl _), skip_append hblanks,
      skip_render (hwritable.2 y List.mem_cons_self),
      ih hwritable.2 hreads.2 (x :: seen) fuel (by omega), List.reverse_cons, List.append_assoc]
    rfl

/-- A written field is its name, a colon and its value. -/
theorem fieldText_append (name : String) (v : Value) (rest : List Char) :
    fieldText layout depth (.str name, v) ++ rest =
      quoted name ++ ':' :: ' ' :: (render layout depth v ++ rest) := by
  simp [fieldText, keyText]

/-- A written field is longer than its value, so that its fuel is enough for that. -/
theorem length_lt_fieldText (layout : Layout) (depth : Nat) (name : String) (v : Value) :
    (render layout depth v).length < (fieldText layout depth (.str name, v)).length := by
  simp only [fieldText, List.length_append, List.length_cons]
  omega

/-- A written field begins with no blank. -/
theorem skip_fieldText (name : String) (v : Value) (rest : List Char) :
    skip (fieldText layout depth (.str name, v) ++ rest) =
      fieldText layout depth (.str name, v) ++ rest := by
  rw [fieldText_append, quoted_append, skip_cons rfl]

/-- The fields of an object are read one after the other, up to its closing brace. -/
theorem members_render (fuel inner outer : Nat) {name : String} {v : Value}
    {pairs : List (String × Value)} (hwritable : ∀ pair ∈ (name, v) :: pairs, Writable pair.2)
    (hreads : ∀ pair ∈ (name, v) :: pairs, ReadsBack layout pair.2)
    (hfuel : (fieldText layout inner (.str name, v)).length + (pairs.flatMap fun pair =>
      layout.comma inner ++ fieldText layout inner (.str pair.1, pair.2)).length < fuel)
    (seen : List (Value × Value)) (rest : List Char) :
    members fuel seen (fieldText layout inner (.str name, v) ++
        ((pairs.flatMap fun pair =>
          layout.comma inner ++ fieldText layout inner (.str pair.1, pair.2)) ++
          (layout.gap outer ++ '\x7d' :: rest))) =
      .ok (seen.reverse ++ (.str name, v) :: pairs.map fun pair => (.str pair.1, pair.2),
        rest) := by
  obtain ⟨blanks, hcomma, hblanks⟩ := exists_comma layout inner
  rw [hcomma] at hfuel ⊢
  obtain ⟨fuel, rfl⟩ : ∃ k, fuel = k + 1 := ⟨fuel - 1, by omega⟩
  induction pairs generalizing name v seen fuel with
  | nil =>
    obtain ⟨hwritable, -⟩ := List.forall_mem_cons.mp hwritable
    obtain ⟨hv : ReadsBack layout v, -⟩ := List.forall_mem_cons.mp hreads
    have hlength := length_lt_fieldText layout inner name v
    rw [List.flatMap_nil, List.nil_append, fieldText_append,
      members_brace (hv fuel inner _ (by omega) (ends_gap layout outer (.brace rest)))
        (skip_gap_cons layout outer rfl rest) (skip_render hwritable layout inner _),
      List.reverse_cons]
    rfl
  | cons pair pairs ih =>
    obtain ⟨hwritable, hothers⟩ := List.forall_mem_cons.mp hwritable
    obtain ⟨hv : ReadsBack layout v, hreads⟩ := List.forall_mem_cons.mp hreads
    have hlength := length_lt_fieldText layout inner name v
    simp only [List.flatMap_cons, List.length_append, List.length_cons] at hfuel
    obtain ⟨fuel, rfl⟩ : ∃ k, fuel = k + 1 := ⟨fuel - 1, by omega⟩
    rw [List.flatMap_cons, List.append_assoc, List.append_assoc, List.cons_append,
      fieldText_append,
      members_comma (hv _ inner _ (by omega) (.comma _)) (skip_cons rfl _)
        (skip_render hwritable layout inner _),
      skip_append hblanks, skip_fieldText, ih hothers hreads ((.str name, v) :: seen) fuel
        (by omega), List.reverse_cons, List.append_assoc]
    rfl

/-- As nothing is written with no character, there always is some fuel. -/
theorem readsBack_of_succ {v : Value} (h : Writable v)
    (hsucc : ∀ (fuel depth : Nat) (rest : List Char), (render layout depth v).length ≤ fuel + 1 →
      Ends rest → value (fuel + 1) (render layout depth v ++ rest) = .ok (v, rest)) :
    ReadsBack layout v := by
  intro fuel depth rest hfuel hends
  obtain ⟨c, cs, htext, -⟩ := exists_render h layout depth
  obtain ⟨fuel, rfl⟩ : ∃ k, fuel = k + 1 := by
    rw [htext, List.length_cons] at hfuel
    exact ⟨fuel - 1, by omega⟩
  exact hsucc fuel depth rest hfuel hends

/-- Integers are read back. -/
theorem readsBack_int {n : Int} (short : (Value.int n).isOverlong = false) :
    ReadsBack layout (.int n) := by
  refine readsBack_of_succ (.int n short) fun fuel depth rest _ hends => ?_
  have hnumber := number_signed short hends
  obtain ⟨d, ds, hd, htext | htext⟩ := exists_signed n
  · have hvalue := (value_of_isDigit hd fuel (ds ++ rest)).1
    rw [← List.cons_append, ← htext] at hvalue
    exact hvalue.trans hnumber
  · have hvalue := (value_of_isDigit hd fuel (ds ++ rest)).2
    rw [← List.cons_append, ← List.cons_append, ← htext] at hvalue
    exact hvalue.trans hnumber

/-- Texts are read back. -/
theorem readsBack_str (s : String) : ReadsBack layout (.str s) := by
  refine readsBack_of_succ (.str s) fun fuel depth rest _ _ => ?_
  rw [render, quoted_append, value, string_escaped]
  rfl

/-- A list is read back if its values are. -/
theorem readsBack_list {xs : List Value} (all : ∀ x ∈ xs, Writable x)
    (hreads : ∀ x ∈ xs, ReadsBack layout x) : ReadsBack layout (.list xs) := by
  refine readsBack_of_succ (.list xs all) fun fuel depth rest hfuel _ => ?_
  cases xs with
  | nil => rfl
  | cons x xs =>
    obtain ⟨c, cs, hx, hblank, hclosing⟩ :=
      exists_render (all x List.mem_cons_self) layout (depth + 1)
    rw [← List.append_nil (render layout depth _), render_list_append] at hfuel
    simp only [List.length_cons, List.length_append] at hfuel
    have helements := elements_render fuel (depth + 1) depth all hreads (by omega) [] rest
    rw [hx, List.cons_append] at helements
    rw [render_list_append, hx, List.cons_append,
      value_list (skip_gap_cons layout (depth + 1) hblank _) hclosing, helements]
    rfl

/-- An object is read back if its values are. -/
theorem readsBack_object {fields : Fields} (keyed : fields.Keyed)
    (all : ∀ f ∈ fields, Writable f.2) (hreads : ∀ f ∈ fields, ReadsBack layout f.2) :
    ReadsBack layout (.object fields) := by
  refine readsBack_of_succ (.object fields keyed all) fun fuel depth rest hfuel _ => ?_
  have hcollect := keyed.ofPairs_eq
  obtain ⟨pairs, rfl⟩ := keyed.exists_pairs
  cases pairs with
  | nil => rfl
  | cons pair pairs =>
    rw [List.forall_mem_map] at all hreads
    rw [← List.append_nil (render layout depth _), List.map_cons, render_object_append,
      List.flatMap_map] at hfuel
    simp only [List.length_cons, List.length_append] at hfuel
    have hmembers := members_render fuel (depth + 1) depth all hreads (by omega) [] rest
    rw [List.map_cons, render_object_append, List.flatMap_map]
    rw [fieldText_append, quoted_append] at hmembers ⊢
    rw [value_object (skip_gap_cons layout (depth + 1) rfl _), hmembers]
    exact congrArg (fun fields => Except.ok (Value.object fields, rest)) hcollect

/-- What is written for a value is read as the value. -/
theorem readsBack_of_writable {v : Value} (h : Writable v) (layout : Layout) :
    ReadsBack layout v := by
  induction h with
  | null => exact readsBack_of_succ .null fun _ _ _ _ _ => rfl
  | bool b =>
    refine readsBack_of_succ (.bool b) fun _ _ _ _ _ => ?_
    cases b <;> rfl
  | int n short => exact readsBack_int short
  | str s => exact readsBack_str s
  | list xs all ih => exact readsBack_list all ih
  | object fields keyed all ih => exact readsBack_object keyed all ih

/-- A text that was written for a value is read as the value. -/
theorem read_render {v : Value} (h : Writable v) (layout : Layout) :
    read (render layout 0 v) = .ok v := by
  have hstart := skip_render h layout 0 []
  have hvalue := readsBack_of_writable h layout ((render layout 0 v).length + 1) 0 []
    (Nat.le_succ _) .nil
  rw [List.append_nil] at hstart hvalue
  rw [read, hstart, hvalue]
  rfl

/-- A written integer is plain. -/
theorem plain_signed (n : Int) : (signed n).all isPlain = true := by
  have hdecimal (m : Nat) : (decimal m).all isPlain = true := by
    rw [List.all_eq_true]
    exact fun c hc => plain_of_isDigit (isDigit_of_mem_decimal hc)
  cases n with
  | ofNat n => exact hdecimal n
  | negSucc n => exact hdecimal (n + 1)

/-- The gaps of a layout are plain. -/
theorem plain_gap (layout : Layout) (depth : Nat) : (layout.gap depth).all isPlain = true := by
  cases layout with
  | line => rfl
  | lines width => simp [Layout.gap, isPlain]

/-- The commas of a layout are plain. -/
theorem plain_comma (layout : Layout) (depth : Nat) : (layout.comma depth).all isPlain = true := by
  cases layout with
  | line => rfl
  | lines width => exact plain_gap (.lines width) depth

/-- What is written for a value is plain. -/
theorem plain_render {v : Value} (h : Writable v) (layout : Layout) (depth : Nat) :
    (render layout depth v).all isPlain = true := by
  induction h generalizing depth with
  | null => rfl
  | bool b => cases b <;> rfl
  | int n => exact plain_signed n
  | str s => exact plain_quoted s
  | list xs all ih =>
    cases xs with
    | nil => rfl
    | cons x xs =>
      rw [List.forall_mem_cons] at ih
      have hothers : (xs.flatMap fun y =>
          layout.comma (depth + 1) ++ render layout (depth + 1) y).all isPlain = true := by
        rw [List.all_flatMap, List.all_eq_true]
        intro y hy
        rw [List.all_append, plain_comma, ih.2 y hy]
        rfl
      rw [← List.append_nil (render layout depth _), render_list_append]
      simp [plain_gap, hothers, ih.1, isPlain]
  | object fields keyed all ih =>
    have hfield : ∀ f ∈ fields, (fieldText layout (depth + 1) f).all isPlain = true := by
      intro f hf
      have htext := keyed.isText f.1 (List.mem_map_of_mem hf)
      cases hkey : f.1 with
      | str s => simp [fieldText, hkey, keyText, plain_quoted, ih f hf, isPlain]
      | _ =>
        rw [hkey] at htext
        cases htext
    cases fields with
    | nil => rfl
    | cons f fields =>
      rw [List.forall_mem_cons] at hfield
      have hothers : (fields.flatMap fun g =>
          layout.comma (depth + 1) ++ fieldText layout (depth + 1) g).all isPlain = true := by
        rw [List.all_flatMap, List.all_eq_true]
        intro g hg
        rw [List.all_append, plain_comma, hfield.2 g hg]
        rfl
      rw [← List.append_nil (render layout depth _), render_object_append]
      simp [plain_gap, hothers, hfield.1, isPlain]

/-- A plain character is encoded by its own number. -/
theorem encodeChar_of_plain {c : Char} (h : isPlain c = true) :
    encodeChar c = [c.toNat.toUInt8] ∧ c.toNat.toUInt8.toNat = c.toNat := by
  rw [isPlain_iff] at h
  have hbyte : c.toNat.toUInt8.toNat = c.toNat := Nat.mod_eq_of_lt (by omega)
  exact ⟨if_pos h.2, hbyte⟩

/-- Plain texts are their own bytes. -/
theorem decodeUtf8?_encode (half : Option Char) {cs : List Char} (h : cs.all isPlain = true) :
    decodeUtf8? half (encode cs) = some cs := by
  induction cs with
  | nil => rfl
  | cons c cs ih =>
    rw [List.all_cons, Bool.and_eq_true] at h
    obtain ⟨hc, hcs⟩ := h
    obtain ⟨hchar, hbyte⟩ := encodeChar_of_plain hc
    rw [isPlain_iff] at hc
    rw [encode, List.flatMap_cons, hchar, ← encode, List.singleton_append, decodeUtf8?.eq_def]
    simp [hbyte, hc.2, charOf?_toNat, ih hcs]

/-- Bytes that are plain have no mark of an encoding and no zeros, and are UTF-8. -/
theorem decode?_of_plain {bytes : Bytes} (h : ∀ b ∈ bytes, 0 < b.toNat ∧ b.toNat < 0x80) :
    decode? bytes = decodeUtf8? (some replacement) bytes := by
  have hmark (b : UInt8) (bs : Bytes) (hb : b.toNat = 0 ∨ 0x80 ≤ b.toNat) :
      ¬ (b :: bs).isPrefixOf bytes = true := by
    rw [List.isPrefixOf_iff_prefix]
    intro hstarts
    have hplain := h b (hstarts.subset List.mem_cons_self)
    omega
  have hzero : ∀ b ∈ bytes, b ≠ 0 := by
    rintro b hb rfl
    exact absurd (h 0 hb).1 (by decide)
  unfold decode?
  rw [if_neg (hmark _ _ (by decide)), if_neg (hmark _ _ (by decide)),
    if_neg (hmark _ _ (by decide)), if_neg (hmark _ _ (by decide)),
    if_neg (hmark _ _ (by decide))]
  split
  · rw [if_neg (hzero _ (by simp)), if_neg (hzero _ (by simp))]
  · rw [if_neg (hzero _ (by simp)), if_neg (hzero _ (by simp))]
  · rfl

/-- Plain texts are read from their bytes. -/
theorem decode?_encode {cs : List Char} (h : cs.all isPlain = true) :
    decode? (encode cs) = some cs := by
  have hbytes : ∀ b ∈ encode cs, 0 < b.toNat ∧ b.toNat < 0x80 := by
    intro b hb
    obtain ⟨c, hc, hb⟩ := List.mem_flatMap.mp hb
    have hplain := List.all_eq_true.mp h c hc
    obtain ⟨hchar, hbyte⟩ := encodeChar_of_plain hplain
    rw [hchar, List.mem_singleton] at hb
    rw [hb, hbyte]
    exact isPlain_iff.mp hplain
  rw [decode?_of_plain hbytes, decodeUtf8?_encode _ h]

/-- The bytes that were written for a value are read as the value. -/
theorem readBytes_indented {v : Value} (h : Writable v) :
    readBytes (encode (indented v).toList) = .ok v := by
  rw [indented, String.toList_ofList, readBytes, decode?_encode (plain_render h _ _)]
  exact read_render h _

end Json

end TreeStore
