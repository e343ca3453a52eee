/-!
# Cells

A cell holds a signed number of 64 bits.  A machine keeps its cells in a *range*: either in
`[0, n)`, into which every value is reduced modulo `n`, or the whole of 64 bits.
-/

namespace TapeLang

/-- The content of a cell. -/
abbrev Cell := Int64

/-- The values a cell may keep. -/
inductive CellRange
  /-- The numbers below a bound of at most 32 bits. -/
  | below (bound : Nat) (pos : 0 < bound) (le : bound ≤ 4294967295)
  /-- Every number of 64 bits. -/
  | all
  deriving DecidableEq, Repr

namespace CellRange

def bound? : CellRange → Option Nat
  | below n _ _ => some n
  | all => none

/-- A value reduced into the range. -/
def wrap (range : CellRange) (v : Cell) : Cell :=
  match range with
  | below n _ _ => Int64.ofInt (v.toInt % n)
  | all => v

def bytes : CellRange := below 256 (by decide) (by decide)

/-- A reduced value lies in the range and keeps its remainder. -/
theorem toInt_wrap_below (n : Nat) (pos : 0 < n) (le : n ≤ 4294967295) (v : Cell) :
    ((below n pos le).wrap v).toInt = v.toInt % n := by
  have hlo : 0 ≤ v.toInt % (n : Int) := Int.emod_nonneg _ (by omega)
  have hhi : v.toInt % (n : Int) < n := Int.emod_lt_of_pos _ (by omega)
  exact Int64.toInt_ofInt_of_le (by omega) (by omega)

@[simp]
theorem wrap_all (v : Cell) : all.wrap v = v := rfl

end CellRange
end TapeLang
