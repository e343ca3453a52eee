import Std.Data.HashMap

/-!
# Macros

A macro is a named text of the language.  A set of macros keeps them in the order in which their
names were first defined; defining a name again replaces its text in place.

The set is a list of macros and an index from names to positions in it, so that a look-up does not
search.  Both are kept in step by `insert`, the one operation that builds a set.
-/

namespace TapeLang

/-- A macro: a named text. -/
structure Macro where
  /-- The name it is called by. -/
  name : String
  /-- Its text, with holes for arguments and constants. -/
  content : String
  deriving DecidableEq, Repr

/-- A **set of macros**, each name once. -/
structure MacroSet where
  /-- The macros, in the order in which their names were first defined. -/
  listing : Array Macro := #[]
  /-- The position of each name in the listing. -/
  index : Std.HashMap String Nat := {}

namespace MacroSet

/-- Define a macro.  The answer is the macro of that name that it replaces, if there is one. -/
def insert (set : MacroSet) (m : Macro) : Option Macro × MacroSet :=
  match set.index[m.name]? with
  -- A macro that is defined anew keeps its place.
  | some i => (set.listing[i]?, { set with listing := set.listing.setIfInBounds i m })
  | none =>
    (none,
      { listing := set.listing.push m, index := set.index.insert m.name set.listing.size })

/-- Define a macro by name and text. -/
def define (set : MacroSet) (name content : String) : MacroSet := (set.insert ⟨name, content⟩).2

def get? (set : MacroSet) (name : String) : Option Macro :=
  set.index[name]?.bind fun i => set.listing[i]?

def contains (set : MacroSet) (name : String) : Bool := set.index.contains name

/-- The macros, in the order in which their names were first defined. -/
def toList (set : MacroSet) : List Macro := set.listing.toList

def size (set : MacroSet) : Nat := set.listing.size

/-- The set that defines the macros one after another. -/
def ofList (macros : List Macro) : MacroSet :=
  macros.foldl (fun set m => (set.insert m).2) {}

theorem get?_empty (name : String) : ({} : MacroSet).get? name = none := by
  simp [get?]

/-- A new name goes to the end of the listing. -/
theorem toList_insert_of_new {set : MacroSet} {m : Macro} (h : set.index[m.name]? = none) :
    (set.insert m).2.toList = set.toList ++ [m] := by
  simp [insert, h, toList]

end MacroSet
end TapeLang
