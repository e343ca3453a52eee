import TapeLang.Constants
import TapeLang.Decimal

/-!
# Templates

A scope gives values to the names in one text: the arguments of the call by position, `0`, `1`, …,
and the constants by name.  A constant hides the argument of the same name, and an empty value
counts as none, so that an empty constant hides an argument for good.

The text of a macro is a template: plain characters and holes.  A hole is a word between two
slashes.  Holes are found from left to right, and the search goes on behind the closing slash, so
that one slash never belongs to two holes.

Filling a template puts the value of its name in the place of each hole.  A value is copied as it
is and never searched for holes.
-/

namespace TapeLang

/-! ### Scopes -/

/-- The values in sight of one call. -/
structure Scope where
  args : List String
  constants : Constants

namespace Scope

/-- The argument whose position the name spells without leading zeros. -/
def positional? (scope : Scope) (name : String) : Option String :=
  (Decimal.canonical? name).bind fun i => scope.args[i]?

/-- What the name is bound to, empty or not: its constant if there is one, else an argument. -/
def binding? (scope : Scope) (name : String) : Option String :=
  (scope.constants.get? name).or (scope.positional? name)

/-- The value of a name: what it is bound to, unless that is empty. -/
def get? (scope : Scope) (name : String) : Option String :=
  (scope.binding? name).filter fun value => !value.isEmpty

end Scope

/-! ### Holes -/

/-- A piece of a template. -/
inductive Piece
  | char (c : Char)
  /-- A hole, to be filled with the value of the name. -/
  | hole (name : List Char)
  deriving DecidableEq, Repr

namespace Template

/-- The hole that a text starts with, and the text behind it. -/
def hole? : List Char → Option (List Char × List Char)
  | '/' :: rest =>
    match rest.takeWhile Text.isWordChar, rest.dropWhile Text.isWordChar with
    | c :: cs, '/' :: after => some (c :: cs, after)
    | _, _ => none
  | _ => none

theorem length_of_hole? {cs name after : List Char} (h : hole? cs = some (name, after)) :
    after.length < cs.length := by
  unfold hole? at h
  split at h
  · next rest =>
    split at h
    · next c cs' after' htake hdrop =>
      have hlen := (List.dropWhile_sublist (l := rest) Text.isWordChar).length_le
      rw [hdrop] at hlen
      simp only [Option.some.injEq, Prod.mk.injEq] at h
      obtain ⟨_, rfl⟩ := h
      simp only [List.length_cons] at hlen ⊢
      omega
    · simp at h
  · simp at h

/-- The pieces of a text, from left to right. -/
def pieces : List Char → List Piece
  | [] => []
  | c :: cs =>
    match _found : hole? (c :: cs) with
    | some (name, after) => .hole name :: pieces after
    | none => .char c :: pieces cs
termination_by cs => cs.length
decreasing_by
  · exact length_of_hole? _found
  · simp

/-- The characters that a piece contributes in a scope. -/
def fillPiece (scope : Scope) (site : String) : Piece → Except Error (List Char)
  | .char c => .ok [c]
  | .hole name =>
    match scope.get? (String.ofList name) with
    | some value => .ok value.toList
    | none => .error (.unboundVariable site (String.ofList name))

/-- **The text with its holes filled**, or the first hole without a value. -/
def fill (scope : Scope) (site text : String) : Except Error String := do
  let parts ← (pieces text.toList).mapM (fillPiece scope site)
  return String.ofList parts.flatten

end Template
end TapeLang
