import TreeStore.Value

/-!
# Logging contexts

The arguments of the operations under way, by name. Log records show the context they are made in,
and a failure that leaves an operation is annotated with the operation's context.
-/

namespace TreeStore

/-- Named values, in order of insertion. -/
abbrev Context := List (String × Value)

namespace Context

/-- Set a name: a known name keeps its place, a new one comes last. -/
def put (key : String) (value : Value) : Context → Context
  | [] => [(key, value)]
  | (k, v) :: rest => if k = key then (k, value) :: rest else (k, v) :: put key value rest

/-- The context inside of an operation with the given arguments. -/
def extend (ctx : Context) (pairs : List (String × Value)) : Context :=
  pairs.foldl (fun acc (k, v) => put k v acc) ctx

/-- The value of a name. -/
def get? (ctx : Context) (key : String) : Option Value := ctx.lookup key

/-- The text of a context: names and literals. -/
def display (ctx : Context) : String :=
  ", ".intercalate (ctx.map fun (k, v) => k ++ "=" ++ v.literal)

/-- The text that is added to log records, empty for the empty context. -/
def label (ctx : Context) : String := if ctx.isEmpty then "" else "(" ++ ctx.display ++ ")"

/-- Whether a value of the context holds an integer that is too long to be written. -/
def isOverlong (ctx : Context) : Bool := Value.anyOverlong (ctx.map Prod.snd)

/-- The note that a failure gets when it leaves an operation; none if the context cannot be written.
-/
def note? (ctx : Context) : Option String :=
  if ctx.isOverlong then none else some ("Context: " ++ ctx.display)

/-- A name that was just set has its new value. -/
theorem get?_put (ctx : Context) (key : String) (value : Value) :
    (ctx.put key value).get? key = some value := by
  induction ctx with
  | nil => simp [put, get?]
  | cons f rest ih =>
    obtain ⟨k, v⟩ := f
    by_cases h : k = key
    · simp [put, get?, h]
    · have hb : (key == k) = false := by simpa using fun e => h e.symm
      simpa [put, get?, h, List.lookup_cons, hb] using ih

/-- Setting one name leaves the others alone. -/
theorem get?_put_of_ne (ctx : Context) {key other : String} (value : Value) (h : other ≠ key) :
    (ctx.put key value).get? other = ctx.get? other := by
  have hb : (other == key) = false := by simpa using h
  induction ctx with
  | nil => simp [put, get?, List.lookup_cons, hb]
  | cons f rest ih =>
    obtain ⟨k, v⟩ := f
    by_cases hk : k = key
    · subst hk
      simp [put, get?, List.lookup_cons, hb]
    · simp only [get?] at ih
      simp [put, get?, hk, List.lookup_cons, ih]

end Context

end TreeStore
