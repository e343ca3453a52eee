import TapeLang.Cell

/-!
# The tape

A tape is a nonempty row of cells of which one is selected.  It is kept as the cells before the
selected one, nearest first, the selected cell, and the cells behind it; `cells` and `pointer` are
the row and the place of the selected cell in it.

Going left from the first cell stays there.  Going right from the last cell adds a zero cell.
-/

namespace TapeLang

/-- A **tape** with a selected cell. -/
structure Tape where
  /-- The cells before the selected one, nearest first. -/
  before : List Cell := []
  here : Cell := 0
  /-- The cells behind the selected one. -/
  after : List Cell := []
  deriving DecidableEq, Repr

namespace Tape

def fresh : Tape := {}

def cells (t : Tape) : List Cell := t.before.reverse ++ t.here :: t.after

/-- The place of the selected cell, counted from zero. -/
def pointer (t : Tape) : Nat := t.before.length

def size (t : Tape) : Nat := t.before.length + t.after.length + 1

def write (t : Tape) (v : Cell) : Tape := { t with here := v }

def moveLeft (t : Tape) : Tape :=
  match t.before with
  | [] => t
  | c :: before => ⟨before, c, t.here :: t.after⟩

def moveRight (t : Tape) : Tape :=
  match t.after with
  | [] => ⟨t.here :: t.before, 0, []⟩
  | c :: after => ⟨t.here :: t.before, c, after⟩

/-! ### The row and the pointer under each operation -/

theorem length_cells (t : Tape) : t.cells.length = t.size := by
  simp only [cells, size, List.length_append, List.length_reverse, List.length_cons]
  omega

/-- The selected cell is in the row. -/
theorem pointer_lt_size (t : Tape) : t.pointer < t.size := by
  simp only [pointer, size]
  omega

theorem getElem?_cells_pointer (t : Tape) : t.cells[t.pointer]? = some t.here := by
  simp [cells, pointer]

/-- Writing changes the selected cell only. -/
theorem cells_write (t : Tape) (v : Cell) : (t.write v).cells = t.cells.set t.pointer v := by
  simp [cells, pointer, write]

@[simp]
theorem pointer_write (t : Tape) (v : Cell) : (t.write v).pointer = t.pointer := rfl

@[simp]
theorem pointer_moveLeft (t : Tape) : t.moveLeft.pointer = t.pointer - 1 := by
  obtain ⟨before, here, after⟩ := t
  cases before <;> simp [moveLeft, pointer]

@[simp]
theorem pointer_moveRight (t : Tape) : t.moveRight.pointer = t.pointer + 1 := by
  obtain ⟨before, here, after⟩ := t
  cases after <;> simp [moveRight, pointer]

@[simp]
theorem cells_moveLeft (t : Tape) : t.moveLeft.cells = t.cells := by
  obtain ⟨before, here, after⟩ := t
  cases before <;> simp [moveLeft, cells]

/-- Going right changes no cell, and adds one only from the last place. -/
theorem cells_moveRight (t : Tape) :
    t.moveRight.cells = if t.after = [] then t.cells ++ [0] else t.cells := by
  obtain ⟨before, here, after⟩ := t
  cases after <;> simp [moveRight, cells]

end Tape
end TapeLang
