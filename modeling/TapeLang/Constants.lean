import TapeLang.Error
import TapeLang.Text.Classes

/-!
# Constants

A table of named values that every text sees.  It keeps its names in the order of their first
definition, each once; defining a name again replaces its value in place (`keys_setIn`).

A table is read from lines `name=value`, each trimmed of blanks.  Blank lines and lines that start
with `#` bind nothing, and any other line is an error for the whole table.
-/

namespace TapeLang

/-- A table of constants. -/
structure Constants where
  /-- Names and values, in the order in which the names were first defined. -/
  entries : List (String × String) := []
  /-- No name stands there twice. -/
  nodup : (entries.map Prod.fst).Nodup := by simp
  deriving DecidableEq

namespace Constants

/-! ### Binding and look-up -/

/-- The entries with `name` bound to `value`: in place if the name is there, else at the end. -/
def setIn (name value : String) : List (String × String) → List (String × String)
  | [] => [(name, value)]
  | entry :: rest =>
    if entry.1 = name then (name, value) :: rest else entry :: setIn name value rest

/-- Binding keeps the names in place and puts a new one at the end. -/
theorem keys_setIn (name value : String) (entries : List (String × String)) :
    (setIn name value entries).map Prod.fst =
      if name ∈ entries.map Prod.fst then entries.map Prod.fst
      else entries.map Prod.fst ++ [name] := by
  induction entries with
  | nil => simp [setIn]
  | cons entry rest ih =>
    by_cases h : entry.1 = name
    · simp [setIn, h]
    · have h' : name ≠ entry.1 := fun e => h e.symm
      by_cases hmem : name ∈ rest.map Prod.fst <;> simp_all [setIn]

theorem nodup_setIn {name value : String} {entries : List (String × String)}
    (h : (entries.map Prod.fst).Nodup) : ((setIn name value entries).map Prod.fst).Nodup := by
  rw [keys_setIn]
  split
  · exact h
  · next hmem =>
    rw [List.nodup_append]
    exact ⟨h, by simp, fun a ha b hb e => hmem (by simp_all)⟩

def set (table : Constants) (name value : String) : Constants :=
  ⟨setIn name value table.entries, nodup_setIn table.nodup⟩

def get? (table : Constants) (name : String) : Option String := table.entries.lookup name

def size (table : Constants) : Nat := table.entries.length

/-- The table that binds the pairs one after another. -/
def ofList (pairs : List (String × String)) : Constants :=
  pairs.foldl (fun table pair => table.set pair.1 pair.2) {}

/-- Two tables are the same if they bind the same names to the same values, in whatever
order. -/
def same (a b : Constants) : Bool :=
  a.size == b.size && a.entries.all fun entry => b.get? entry.1 == some entry.2

theorem lookup_setIn_self (name value : String) (entries : List (String × String)) :
    (setIn name value entries).lookup name = some value := by
  induction entries with
  | nil => simp [setIn]
  | cons entry rest ih =>
    obtain ⟨key, old⟩ := entry
    by_cases h : key = name
    · simp [setIn, h]
    · have h' : (name == key) = false := beq_false_of_ne fun e => h e.symm
      simp [setIn, h, List.lookup_cons, h', ih]

theorem lookup_setIn_ne {name other : String} (hne : other ≠ name) (value : String)
    (entries : List (String × String)) :
    (setIn name value entries).lookup other = entries.lookup other := by
  have hfalse : (other == name) = false := beq_false_of_ne hne
  induction entries with
  | nil => simp [setIn, List.lookup_cons, hfalse]
  | cons entry rest ih =>
    obtain ⟨key, old⟩ := entry
    by_cases h : key = name
    · simp [setIn, h, List.lookup_cons, hfalse]
    · simp [setIn, h, List.lookup_cons, ih]

/-- A bound name has the value it was last given. -/
theorem get?_set_self (table : Constants) (name value : String) :
    (table.set name value).get? name = some value :=
  lookup_setIn_self name value table.entries

/-- Binding one name leaves the others alone. -/
theorem get?_set_ne (table : Constants) {name other : String} (hne : other ≠ name)
    (value : String) : (table.set name value).get? other = table.get? other :=
  lookup_setIn_ne hne value table.entries

/-! ### Reading a table -/

inductive Line
  | empty
  /-- The line binds a name to a value, which may be empty. -/
  | binding (name value : List Char)
  | other
  deriving DecidableEq, Repr

/-- What a line without blanks at its ends says. -/
def Line.read (line : List Char) : Line :=
  match line with
  | [] => .empty
  | '#' :: _ => .empty
  | _ =>
    match line.takeWhile Text.isWordChar, line.dropWhile Text.isWordChar with
    | name, '=' :: value =>
      if name ≠ [] && value.all Text.isWordChar then .binding name value else .other
    | _, _ => .other

/-- The table after more lines, of which the first has the given number. -/
def readLines (table : Constants) (number : Nat) : List (List Char) → Except Error Constants
  | [] => .ok table
  | line :: rest =>
    match Line.read (Text.trim line) with
    | .empty => readLines table (number + 1) rest
    | .binding name value =>
      readLines (table.set (String.ofList name) (String.ofList value)) (number + 1) rest
    | .other => .error (.badConstant number (String.ofList (Text.trim line)))

/-- **The table that a text of lines describes.** -/
def parse (text : String) : Except Error Constants :=
  readLines {} 1 (text.toList.splitOn '\n')

end Constants
end TapeLang
