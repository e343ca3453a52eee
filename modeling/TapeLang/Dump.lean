import TapeLang.Cell

/-!
# Dumps of memory

A dump shows a row of cells, eight on a line.  A line starts with the place of its first cell, as
hexadecimal of at least four digits and a colon.  Each cell is shown as a space, a mark and its
value in hexadecimal of at least two digits; the mark is `>` at the selected cell and a space
elsewhere, and a negative value is a minus sign and its magnitude.
-/

namespace TapeLang.Dump

def perLine : Nat := 8

/-- A number in hexadecimal, with zeros in front up to a width. -/
def hex (width n : Nat) : List Char :=
  let digits := Nat.toDigits 16 n
  List.replicate (width - digits.length) '0' ++ digits

def value (v : Cell) : List Char :=
  if v.toInt < 0 then '-' :: hex 2 v.toInt.natAbs else hex 2 v.toInt.natAbs

/-- The cells of a line, of which the first has the place `place`. -/
def cellsFrom (pointer place : Nat) : List Cell → List Char
  | [] => []
  | v :: rest =>
    ' ' :: (if place = pointer then '>' else ' ') :: value v ++ cellsFrom pointer (place + 1) rest

/-- The lines of the cells from `place` on. -/
def linesFrom (pointer place : Nat) (cells : List Cell) : List (List Char) :=
  if _nonempty : cells = [] then []
  else
    (hex 4 place ++ ':' :: cellsFrom pointer place (cells.take perLine)) ::
      linesFrom pointer (place + perLine) (cells.drop perLine)
termination_by cells.length
decreasing_by
  have := List.length_pos_iff.mpr _nonempty
  simp only [List.length_drop, perLine]
  omega

/-- **The dump of a row of cells**, each line ended by a line feed.  The selected place may lie
outside of the row. -/
def render (cells : List Cell) (pointer : Nat) : String :=
  String.ofList ((linesFrom pointer 0 cells).flatMap (· ++ ['\n']))

end TapeLang.Dump
