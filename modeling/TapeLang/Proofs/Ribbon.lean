import Mathlib.Data.List.Basic
import TapeLang.Tape

/-!
# The ribbon

A ribbon is a tape without an end on the right: it has a cell for every number, and all of them are
zero at first.  It remembers the furthest cell that was ever selected; the cells up to there are
those that a dump shows.

`Ribbon.Shows` relates a tape that grows to a ribbon, and each operation keeps it.
-/

namespace TapeLang

/-- A ribbon: cells without end, one of them selected. -/
structure Ribbon where
  cells : Nat → Cell
  pointer : Nat
  /-- The furthest place that was ever selected. -/
  furthest : Nat

namespace Ribbon

/-- All cells are zero, and the first one is selected. -/
def blank : Ribbon := ⟨fun _ => 0, 0, 0⟩

def here (r : Ribbon) : Cell := r.cells r.pointer

def write (r : Ribbon) (v : Cell) : Ribbon :=
  { r with cells := fun i => if i = r.pointer then v else r.cells i }

def moveLeft (r : Ribbon) : Ribbon := { r with pointer := r.pointer - 1 }

def moveRight (r : Ribbon) : Ribbon :=
  { r with pointer := r.pointer + 1, furthest := max r.furthest (r.pointer + 1) }

/-- The cells up to the furthest one that was ever selected. -/
def visited (r : Ribbon) : List Cell := (List.range (r.furthest + 1)).map r.cells

/-- A tape and a ribbon have the same contents. -/
structure Shows (t : Tape) (r : Ribbon) : Prop where
  /-- The same cell is selected. -/
  pointer_eq : t.pointer = r.pointer
  /-- The tape is as long as the part of the ribbon that was visited. -/
  cells_eq : t.cells = r.visited
  /-- The other cells of the ribbon are zero. -/
  blank : ∀ i, r.furthest < i → r.cells i = 0

namespace Shows

variable {t : Tape} {r : Ribbon}

theorem fresh : Shows .fresh Ribbon.blank := ⟨rfl, rfl, fun _ _ => rfl⟩

/-- The length of the tape. -/
theorem size_eq (h : Shows t r) : t.size = r.furthest + 1 := by
  rw [← t.length_cells, h.cells_eq]
  simp [visited]

theorem pointer_le (h : Shows t r) : r.pointer ≤ r.furthest := by
  have hlt := t.pointer_lt_size
  rw [h.size_eq, h.pointer_eq] at hlt
  omega

theorem here_eq (h : Shows t r) : t.here = r.here := by
  have hget := t.getElem?_cells_pointer
  rw [h.cells_eq, h.pointer_eq, visited, List.getElem?_map,
    List.getElem?_range (by have := h.pointer_le; omega)] at hget
  simpa [here] using hget.symm

theorem write (h : Shows t r) (v : Cell) : Shows (t.write v) (r.write v) where
  pointer_eq := h.pointer_eq
  cells_eq := by
    rw [t.cells_write, h.cells_eq, h.pointer_eq]
    refine List.ext_getElem (by simp [visited, Ribbon.write]) fun i hi₁ hi₂ => ?_
    by_cases hi : i = r.pointer
    · subst hi
      simp [visited, Ribbon.write]
    · rw [List.getElem_set_ne (Ne.symm hi)]
      simp [visited, Ribbon.write, hi]
  blank i hi := by
    have hle := h.pointer_le
    have hne : i ≠ r.pointer := by
      rintro rfl
      exact absurd hi (by simpa [Ribbon.write] using hle)
    simpa [Ribbon.write, hne] using h.blank i hi

theorem moveLeft (h : Shows t r) : Shows t.moveLeft r.moveLeft where
  pointer_eq := by rw [t.pointer_moveLeft, h.pointer_eq]; rfl
  cells_eq := by rw [t.cells_moveLeft, h.cells_eq]; rfl
  blank := h.blank

theorem moveRight (h : Shows t r) : Shows t.moveRight r.moveRight where
  pointer_eq := by rw [t.pointer_moveRight, h.pointer_eq]; rfl
  cells_eq := by
    have hsize := h.size_eq
    have hle := h.pointer_le
    simp only [Tape.size, ← h.pointer_eq, Tape.pointer] at hsize hle
    rw [t.cells_moveRight, h.cells_eq]
    -- Behind the last cell of the tape there is none, while the ribbon has one at every place.
    by_cases hend : t.after = []
    · -- The tape grows by a zero, and the ribbon has one there.
      have hlast : r.pointer = r.furthest := by
        rw [← h.pointer_eq, Tape.pointer]
        simp only [hend, List.length_nil] at hsize
        omega
      have hmax : r.moveRight.furthest = r.furthest + 1 := by
        simp [Ribbon.moveRight, hlast]
      have hzero : r.moveRight.cells (r.furthest + 1) = 0 := h.blank _ (Nat.lt_succ_self _)
      rw [if_pos hend, visited, visited, hmax, List.range_succ (n := r.furthest + 1),
        List.map_append, List.map_singleton, hzero]
      rfl
    · have hpos : 0 < t.after.length := List.length_pos_iff.mpr hend
      have hmax : r.moveRight.furthest = r.furthest := by
        simp only [Ribbon.moveRight, ← h.pointer_eq, Tape.pointer]
        omega
      rw [if_neg hend, visited, visited, hmax]
      rfl
  blank i hi := h.blank i (Nat.lt_of_le_of_lt (Nat.le_max_left _ _) hi)

end Shows
end Ribbon
end TapeLang
