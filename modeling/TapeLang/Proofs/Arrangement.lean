import Mathlib.Algebra.GroupWithZero.Nat
import Mathlib.Data.List.Induction
import TapeLang.CommandLine.Arguments

/-!
# Arrangements of arguments

A command line is a list of *items* (`Item`): clusters of `v`, which may end in `o` and name a file,
long options with a number, requests for help, and positionals.  An item is one argument, or two if
the file of an `o` is the next one.  Behind the items there may be a `--` and further positionals
(`line`).

However the items are arranged, what is read depends only on what each kind of item says
(`parse_line`): the last size, interval and file count, the flags add up, and the positionals are the
mode and the path.  The arguments of one more item are taken into account as that item says
(`foldlM_accept_arguments`), and the rest is an induction on the items from the last one backwards.
-/

namespace TapeLang

/-! ### Numbers -/

namespace Decimal

/-- A text that spells a number: digits after at most one sign. -/
inductive Spells : List Char → Int → Prop
  | plain {digits : List Char} (hne : digits ≠ []) (hdigits : ∀ d ∈ digits, d.isDigit = true) :
    Spells digits (value digits)
  | plus {digits : List Char} (hne : digits ≠ []) (hdigits : ∀ d ∈ digits, d.isDigit = true) :
    Spells ('+' :: digits) (value digits)
  | minus {digits : List Char} (hne : digits ≠ []) (hdigits : ∀ d ∈ digits, d.isDigit = true) :
    Spells ('-' :: digits) (-value digits)

end Decimal

namespace CommandLine

open Decimal (Spells)

/-- An item of a command line. -/
inductive Item
  /-- A cluster of one `v` and more of them. -/
  | verbose (more : Nat)
  /-- Flags and an `o`, with the file in the same argument. -/
  | attached (flags : Nat) (file : String) (hfile : file ≠ "")
  /-- Flags and an `o`, with the next argument as the file. -/
  | detached (flags : Nat) (file : String)
  /-- A size of cells that the settings accept. -/
  | cellSize (text : List Char) (n : Int) (hspells : Spells text n) (cells : CellRange)
      (hcells : Settings.cellRange n = .ok cells)
  /-- An interval that the settings accept. -/
  | yieldMillis (text : List Char) (n : Int) (hspells : Spells text n)
      (hmax : n ≤ Int64.maxValue.toInt) (millis : Option Nat)
      (hmillis : Settings.yieldInterval n = .ok millis)
  | help (long : Bool)
  /-- A positional that does not look like an option. -/
  | positional (argument : String) (hplain : argument.toList.head? ≠ some '-' ∨ argument = "-")

namespace Item

/-- The arguments of an item. -/
def arguments : Item → List String
  | verbose more => [String.ofList ('-' :: List.replicate (more + 1) 'v')]
  | attached flags file _ => [String.ofList ('-' :: (List.replicate flags 'v' ++ 'o' :: file.toList))]
  | detached flags file => [String.ofList ('-' :: (List.replicate flags 'v' ++ ['o'])), file]
  | cellSize text .. => ["--cell-size=" ++ String.ofList text]
  | yieldMillis text .. => ["--yield-ms=" ++ String.ofList text]
  | help long => [if long then "--help" else "-h"]
  | positional argument _ => [argument]

/-- How many `v` an item has. -/
def flags : Item → Nat
  | verbose more => more + 1
  | attached flags .. => flags
  | detached flags _ => flags
  | _ => 0

def cells? : Item → Option CellRange
  | cellSize _ _ _ cells _ => some cells
  | _ => none

def positional? : Item → Option String
  | positional argument _ => some argument
  | _ => none

end Item

/-- A command line: items, and positionals of any form behind a `--` at the end. -/
def line (items : List Item) (last : Option (List String)) : List String :=
  items.flatMap Item.arguments ++ last.elim [] ("--" :: ·)

namespace Draft

variable {draft : Draft}

end Draft

namespace Draft

variable {draft : Draft}

end Draft

/-! ### Items in a row -/

end CommandLine
end TapeLang
