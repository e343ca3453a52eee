import TapeLang.Cell

/-!
# Settings of a machine

A machine is set up by the range of its cells and by how often it lets its host work in between.
Both are given as numbers, with `-1` for "without bound" and "never"; numbers that mean nothing are
refused.
-/

namespace TapeLang

/-- The settings of a machine. -/
structure Settings where
  /-- The values that cells keep. -/
  cells : CellRange := .bytes
  /-- After how many milliseconds the host gets its turn; `none` for never. -/
  yieldMillis : Option Nat := none
  deriving DecidableEq, Repr

namespace Settings

/-- A number that no setting has. -/
inductive Invalid
  | cellSize (n : Int)
  | yieldInterval (n : Int)
  deriving DecidableEq, Repr

def Invalid.message : Invalid → String
  | cellSize n => "invalid cell size " ++ toString n ++ " (expected 1..=4294967295 or -1)"
  | yieldInterval n =>
    "invalid yield interval " ++ toString n ++ " (expected milliseconds or -1)"

/-- The range of a size: all values for `-1`, the numbers below a size of 1 to 4294967295. -/
def cellRange (size : Int) : Except Invalid CellRange :=
  if size = -1 then .ok .all
  else if h : 0 < size ∧ size ≤ 4294967295 then
    .ok (.below size.toNat (by omega) (by omega))
  else .error (.cellSize size)

/-- The interval of a number of milliseconds: none for `-1`. -/
def yieldInterval (millis : Int) : Except Invalid (Option Nat) :=
  if millis = -1 then .ok none
  else if 0 ≤ millis then .ok (some millis.toNat)
  else .error (.yieldInterval millis)

def ofNumbers (size millis : Int) : Except Invalid Settings := do
  let cells ← cellRange size
  let yieldMillis ← yieldInterval millis
  return { cells, yieldMillis }

end Settings
end TapeLang
