import TreeStore.Proofs.Json.Roundtrip
import TreeStore.Proofs.Settings.Reading
import TreeStore.Settings.File

/-!
# Settings that are saved and loaded

Settings whose values are of their own kinds are saved to a JSON file in a form that is loaded as
the same settings, without a warning, whatever the texts hold and however large the numbers are that
can be written at all.
-/

namespace TreeStore.Settings

variable {s : Settings} {file : String}

/-- Values of their own kinds, as far as they can be written and read. -/
structure Storable (s : Settings) : Prop where
  /-- The path is a text, if there is one. -/
  nameSpace : s.nameSpace = .null ∨ ∃ text, s.nameSpace = .str text
  /-- Whether to use containers is a truth value. -/
  useContainers : ∃ b, s.useContainers = .bool b
  /-- The number of attempts is positive, if there is one, and has not too many digits. -/
  maxDeleteAttempts : s.maxDeleteAttempts = .null ∨
    ∃ n : Int, s.maxDeleteAttempts = .int n ∧ 1 ≤ n ∧ (Value.int n).isOverlong = false

/-- Settings of their own kinds are given as they are. -/
theorem Storable.ofGiven_get (h : s.Storable) : ofGiven (fun name => some (s.get name)) = s := by
  obtain ⟨nameSpace, useContainers, maxDeleteAttempts⟩ := s
  obtain ⟨rfl | ⟨text, rfl⟩, ⟨b, rfl⟩, rfl | ⟨n, rfl, -⟩⟩ := h <;> rfl

theorem Storable.suits (h : s.Storable) : ∀ name ∈ names, Suits name (some (s.get name)) := by
  obtain ⟨nameSpace, useContainers, maxDeleteAttempts⟩ := s
  obtain ⟨hnameSpace, ⟨b, rfl⟩, hattempts⟩ := h
  simp only [names, List.forall_mem_cons]
  refine ⟨?_, .truth b, ?_, List.forall_mem_nil _⟩
  · rcases hnameSpace with rfl | ⟨text, rfl⟩
    · exact .null
    · exact .text text
  · rcases hattempts with rfl | ⟨n, rfl, hpositive, -⟩
    · exact .null
    · exact .count n hpositive

/-- What is stored for such settings is written in a form that is read back. -/
theorem Storable.writable (h : s.Storable) : Json.Writable (.object (s.stored 2)) := by
  refine .object _ (keyed_stored s) ?_
  obtain ⟨nameSpace, useContainers, maxDeleteAttempts⟩ := s
  obtain ⟨hnameSpace, ⟨b, rfl⟩, hattempts⟩ := h
  simp only [stored, pairs, List.map_cons, List.map_nil, List.forall_mem_cons]
  refine ⟨.int 2 (by decide), ?_, .bool b, ?_, List.forall_mem_nil _⟩
  · rcases hnameSpace with rfl | ⟨text, rfl⟩
    · exact .null
    · exact .str text
  · rcases hattempts with rfl | ⟨n, rfl, hpositive, hshort⟩
    · exact .null
    · exact .int n hshort

/-- What is stored for such settings is not too long to be written. -/
theorem Storable.isOverlong_stored (h : s.Storable) :
    (Value.object (s.stored 2)).isOverlong = false := by
  obtain ⟨nameSpace, useContainers, maxDeleteAttempts⟩ := s
  obtain ⟨hnameSpace, ⟨b, rfl⟩, hattempts⟩ := h
  have htext : nameSpace.isOverlong = false := by
    rcases hnameSpace with rfl | ⟨text, rfl⟩ <;> rfl
  have hcount : maxDeleteAttempts.isOverlong = false := by
    rcases hattempts with rfl | ⟨n, rfl, -, hshort⟩
    · rfl
    · exact hshort
  have hversion : (Value.int 2).isOverlong = false := by decide
  simp [stored, pairs, Value.isOverlong_object, Value.anyFieldOverlong, htext, hcount, hversion]

/-- A file is a JSON file if its name is the extension or ends with a dot and the extension. -/
theorem format?_of_json (h : file = "json" ∨ ∃ stem, file = stem ++ ".json") :
    format? file = .ok .json := by
  have hextension : extension file = "json" := by
    rcases h with rfl | ⟨stem, rfl⟩
    · rfl
    · simp [extension]
  rw [format?, hextension]
  rfl

/-- Settings whose values are of their own kinds are loaded, without a warning, from a JSON file
that they were saved to. -/
theorem load_save (yaml : Option Codec) (context : Context) (h : s.Storable)
    (hfile : file = "json" ∨ ∃ stem, file = stem ++ ".json") :
    ∃ text, save {} yaml file s = .ok text ∧
      load {} yaml context file (some (Encoding.encode text.toList)) = ([], .ok s) := by
  have hformat := format?_of_json hfile
  have hread := Json.readBytes_indented h.writable
  have hvalue := ofValue_stored context file h.suits
  rw [h.ofGiven_get] at hvalue
  refine ⟨Json.indented (.object (s.stored 2)), ?_, ?_⟩
  · simp only [save, hformat, writeJson, h.isOverlong_stored]
    rfl
  · simp only [load, readFile, hformat, hread]
    exact congrArg (fun r => (r.1, Failure.ofResult r.2)) hvalue

/-- Settings with a path that holds quotes, control characters and characters of any width. -/
def wide : Settings := { nameSpace := .str "/\"\\\n\x01é中😀", maxDeleteAttempts := .int 3 }

/-- Such characters are written as escapes, and come back. -/
theorem load_save_wide :
    wide.Storable ∧ ("tree.json" = "json" ∨ ∃ stem, "tree.json" = stem ++ ".json") ∧
    ∃ text, save {} none "tree.json" wide = .ok text ∧
      load {} none [] "tree.json" (some (Encoding.encode text.toList)) = ([], .ok wide) := by
  have hstorable : wide.Storable :=
    ⟨.inr ⟨_, rfl⟩, ⟨false, rfl⟩, .inr ⟨3, rfl, by decide, rfl⟩⟩
  have hfile : "tree.json" = "json" ∨ ∃ stem, "tree.json" = stem ++ ".json" := .inr ⟨"tree", rfl⟩
  exact ⟨hstorable, hfile, load_save none [] hstorable hfile⟩

end TreeStore.Settings
