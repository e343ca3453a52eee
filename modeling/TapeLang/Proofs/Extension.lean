import TapeLang.Tape

/-!
# Tapes up to zeros at the end

A tape grows when it is walked along, so a detour to the right may leave zeros behind that a shorter
way does not.  `t.Extends t'` says that this is the only difference between two tapes.  Every
operation keeps it.

A detour is a move and the one that undoes it.  Going right and back extends the tape at most
(`extends_moveLeft_moveRight`), going left and back changes nothing, but only where there is a cell
to the left (`moveRight_moveLeft`).  A value that is raised and lowered again comes back under every
range, if it was in the range (`CellRange.wrap_sub_one`, `CellRange.wrap_add_one`).
-/

namespace TapeLang

namespace CellRange

/-- A value of the range is not changed by reducing it. -/
def Contains (range : CellRange) (v : Cell) : Prop := range.wrap v = v

theorem contains_zero (range : CellRange) : range.Contains 0 := by
  cases range with
  | below n pos le =>
    apply Int64.toInt_inj.mp
    rw [toInt_wrap_below]
    simp
  | all => rfl

theorem contains_wrap (range : CellRange) (v : Cell) : range.Contains (range.wrap v) := by
  cases range with
  | below n pos le =>
    apply Int64.toInt_inj.mp
    rw [toInt_wrap_below, toInt_wrap_below, Int.emod_emod]
  | all => rfl

theorem contains_below {n : Nat} {pos : 0 < n} {le : n ≤ 4294967295} {v : Cell}
    (h : (below n pos le).Contains v) : 0 ≤ v.toInt ∧ v.toInt < n := by
  have hv := toInt_wrap_below n pos le v
  rw [h] at hv
  have hlo : 0 ≤ v.toInt % (n : Int) := Int.emod_nonneg _ (by omega)
  have hhi : v.toInt % (n : Int) < n := Int.emod_lt_of_pos _ (by omega)
  omega

/-- No bounded value overflows when it is raised. -/
theorem toInt_add_one {v : Cell} (hlo : 0 ≤ v.toInt) (hhi : v.toInt ≤ 4294967295) :
    (v + 1).toInt = v.toInt + 1 := by
  rw [Int64.toInt_add, show (1 : Cell).toInt = 1 from rfl, Int.bmod_eq_of_le] <;> omega

theorem toInt_sub_one {v : Cell} (hlo : 0 ≤ v.toInt) (hhi : v.toInt ≤ 4294967295) :
    (v - 1).toInt = v.toInt - 1 := by
  rw [Int64.toInt_sub, show (1 : Cell).toInt = 1 from rfl, Int.bmod_eq_of_le] <;> omega

/-- Raised and lowered, a value of the range comes back. -/
theorem wrap_sub_one {range : CellRange} {v : Cell} (h : range.Contains v) :
    range.wrap (range.wrap (v + 1) - 1) = v := by
  cases range with
  | all => simp
  | below n pos le =>
    obtain ⟨hlo, hhi⟩ := contains_below h
    obtain ⟨hlo', hhi'⟩ := contains_below (contains_wrap (below n pos le) (v + 1))
    apply Int64.toInt_inj.mp
    rw [toInt_wrap_below, toInt_sub_one hlo' (by omega), toInt_wrap_below,
      toInt_add_one hlo (by omega), Int.emod_sub_emod, Int.add_sub_cancel,
      Int.emod_eq_of_lt hlo hhi]

/-- Lowered and raised, a value of the range comes back. -/
theorem wrap_add_one {range : CellRange} {v : Cell} (h : range.Contains v) :
    range.wrap (range.wrap (v - 1) + 1) = v := by
  cases range with
  | all => simp
  | below n pos le =>
    obtain ⟨hlo, hhi⟩ := contains_below h
    obtain ⟨hlo', hhi'⟩ := contains_below (contains_wrap (below n pos le) (v - 1))
    apply Int64.toInt_inj.mp
    rw [toInt_wrap_below, toInt_add_one hlo' (by omega), toInt_wrap_below,
      toInt_sub_one hlo (by omega), Int.emod_add_emod, Int.sub_add_cancel,
      Int.emod_eq_of_lt hlo hhi]

/-- A value that is raised changes, unless there is only one value. -/
theorem wrap_add_one_ne {range : CellRange} {v : Cell} (h : range.Contains v)
    (hbound : range.bound? ≠ some 1) : range.wrap (v + 1) ≠ v := by
  -- Without a bound the values go round too, but only after more than one.
  cases range with
  | all =>
    intro heq
    rw [wrap_all] at heq
    have hone : (1 : Cell) = 0 := by grind
    simp at hone
  | below n pos le =>
    obtain ⟨hlo, hhi⟩ := contains_below h
    have hn : n ≠ 1 := by simpa [bound?] using hbound
    intro heq
    have hmod := toInt_wrap_below n pos le (v + 1)
    rw [heq, toInt_add_one hlo (by omega)] at hmod
    -- Only the greatest value comes round, and it comes round to zero.
    rcases Int.lt_or_le (v.toInt + 1) n with hlt | hge
    · rw [Int.emod_eq_of_lt (by omega) hlt] at hmod
      omega
    · rw [show v.toInt + 1 = n by omega, Int.emod_self] at hmod
      omega

end CellRange

/-- The first row of cells is the second one with zeros behind it. -/
def Padded (cells cells' : List Cell) : Prop := ∃ k, cells = cells' ++ List.replicate k 0

theorem Padded.refl (cells : List Cell) : Padded cells cells := ⟨0, by simp⟩

theorem Padded.trans {cells cells' cells'' : List Cell} (h : Padded cells cells')
    (h' : Padded cells' cells'') : Padded cells cells'' := by
  obtain ⟨k, rfl⟩ := h
  obtain ⟨k', rfl⟩ := h'
  exact ⟨k' + k, by rw [List.append_assoc, List.replicate_append_replicate]⟩

namespace Tape

/-- The tapes have the same selected cell and the same cells, but the first one may have more zeros
at its end. -/
def Extends (t t' : Tape) : Prop := t.pointer = t'.pointer ∧ Padded t.cells t'.cells

/-- The zeros stand behind the selected cell. -/
theorem extends_iff {t t' : Tape} :
    t.Extends t' ↔ t.before = t'.before ∧ t.here = t'.here ∧
      ∃ k, t.after = t'.after ++ List.replicate k 0 := by
  constructor
  · rintro ⟨hpointer, k, hcells⟩
    simp only [cells, List.append_assoc, List.cons_append] at hcells
    obtain ⟨hbefore, hrest⟩ := List.append_inj hcells (by simpa [pointer] using hpointer)
    obtain ⟨hhere, hafter⟩ := List.cons.inj hrest
    exact ⟨List.reverse_inj.mp hbefore, hhere, k, hafter⟩
  · rintro ⟨hbefore, hhere, k, hafter⟩
    exact ⟨by simp [pointer, hbefore], k, by simp [cells, hbefore, hhere, hafter]⟩

theorem Extends.refl (t : Tape) : t.Extends t := ⟨rfl, .refl t.cells⟩

theorem Extends.trans {t t' t'' : Tape} (h : t.Extends t') (h' : t'.Extends t'') : t.Extends t'' :=
  ⟨h.1.trans h'.1, h.2.trans h'.2⟩

theorem Extends.here_eq {t t' : Tape} (h : t.Extends t') : t.here = t'.here :=
  (extends_iff.mp h).2.1

theorem Extends.write {t t' : Tape} (h : t.Extends t') (v : Cell) :
    (t.write v).Extends (t'.write v) := by
  obtain ⟨hbefore, -, hafter⟩ := extends_iff.mp h
  exact extends_iff.mpr ⟨hbefore, rfl, hafter⟩

theorem Extends.moveLeft {t t' : Tape} (h : t.Extends t') : t.moveLeft.Extends t'.moveLeft := by
  refine ⟨by simp [h.1], ?_⟩
  simpa using h.2

theorem Extends.moveRight {t t' : Tape} (h : t.Extends t') :
    t.moveRight.Extends t'.moveRight := by
  obtain ⟨before, here, after⟩ := t
  obtain ⟨before', here', after'⟩ := t'
  obtain ⟨hbefore, hhere, k, hafter⟩ := extends_iff.mp h
  dsimp only at hbefore hhere hafter
  subst hbefore hhere hafter
  cases after' with
  | cons c after' => exact extends_iff.mpr ⟨rfl, rfl, k, rfl⟩
  | nil =>
    -- One of the zeros that only the first tape has may become the selected cell.
    cases k with
    | zero => exact .refl _
    | succ k => exact extends_iff.mpr ⟨rfl, rfl, k, by simp [List.replicate_succ, Tape.moveRight]⟩

/-- **Right and back** leaves a zero behind at most. -/
theorem extends_moveLeft_moveRight (t : Tape) : t.moveRight.moveLeft.Extends t := by
  obtain ⟨before, here, after⟩ := t
  cases after with
  | nil => exact extends_iff.mpr ⟨rfl, rfl, 1, rfl⟩
  | cons c after => exact .refl _

/-- Left and back changes nothing, unless there is no cell to the left. -/
theorem moveRight_moveLeft {t : Tape} (h : t.pointer ≠ 0) : t.moveLeft.moveRight = t := by
  obtain ⟨before, here, after⟩ := t
  cases before with
  | nil => simp [pointer] at h
  | cons c before => rfl

/-! ### Tapes with all cells in a range -/

/-- Every cell holds a value of the range. -/
def InRange (range : CellRange) (t : Tape) : Prop := ∀ c ∈ t.cells, range.Contains c

variable {range : CellRange} {t t' : Tape}

theorem inRange_fresh : InRange range .fresh := by
  intro c hc
  obtain rfl : c = 0 := by simpa [cells, fresh] using hc
  exact range.contains_zero

theorem InRange.here (h : t.InRange range) : range.Contains t.here :=
  h _ (List.mem_of_getElem? t.getElem?_cells_pointer)

theorem InRange.write (h : t.InRange range) (v : Cell) :
    (t.write (range.wrap v)).InRange range := by
  intro c hc
  rw [t.cells_write] at hc
  rcases List.mem_or_eq_of_mem_set hc with hc | rfl
  · exact h c hc
  · exact range.contains_wrap v

theorem InRange.moveLeft (h : t.InRange range) : t.moveLeft.InRange range := by
  rwa [InRange, t.cells_moveLeft]

theorem InRange.moveRight (h : t.InRange range) : t.moveRight.InRange range := by
  intro c hc
  rw [t.cells_moveRight] at hc
  split at hc
  · rcases List.mem_append.mp hc with hc | hc
    · exact h c hc
    · obtain rfl : c = 0 := by simpa using hc
      exact range.contains_zero
  · exact h c hc

/-- The shorter tape has no other cells. -/
theorem InRange.of_extends (h : t.InRange range) (ht : t.Extends t') : t'.InRange range := by
  intro c hc
  obtain ⟨-, k, hcells⟩ := ht
  exact h c (by rw [hcells]; exact List.mem_append_left _ hc)

end Tape
end TapeLang
