import Mathlib.Order.Bounds.Basic
import TapeLang.Proofs.Addressed

/-!
# States that a run comes to

A run keeps within its bounds.  Its cells stay in their range, and so do the values that it hands
out (`inRange_recorded`).  Its tape grows only as far as the selected cell goes, and then by exactly
that (`isGreatest_recorded`).  Its frames stay nested, so that it never reaches for a cell or an
instruction that is not there.

Main statement: all of this at all times (`recorded_inBounds`).
-/

namespace TapeLang

variable {σ : Type}

/-- The tape of a run, or the one that it has left behind. -/
def Progress.tape : Progress σ State Tape → Tape
  | running s _ => s.tape
  | ended _ tape _ => tape

/-! ### What a step keeps -/

variable {range : CellRange} {o : Op} {call : Option Event} {t t' : Tape} {s s' : State}

theorem Op.Does.inRange (h : o.Does range t call t') (ht : t.InRange range) : t'.InRange range := by
  cases h with
  | increment => exact ht.write _
  | decrement => exact ht.write _
  | left => exact ht.moveLeft
  | right => exact ht.moveRight
  | output => exact ht
  | input b => exact ht.write _
  | dump => exact ht

/-- The tape grows to the selected cell and no further. -/
theorem Op.Does.size_eq (h : o.Does range t call t') : t'.size = max t.size (t'.pointer + 1) := by
  have hlt := t.pointer_lt_size
  have hwrite (v : Cell) : (t.write v).size = t.size := rfl
  -- Only a move to the right may make the tape longer, and only from its last cell.
  cases h with
  | increment => rw [hwrite, t.pointer_write]; omega
  | decrement => rw [hwrite, t.pointer_write]; omega
  | left =>
    rw [← t.moveLeft.length_cells, t.cells_moveLeft, t.length_cells, t.pointer_moveLeft]
    omega
  | right =>
    have hend : t.after = [] ↔ t.size = t.pointer + 1 := by
      rw [← List.length_eq_zero_iff]
      simp only [Tape.size, Tape.pointer]
      omega
    rw [← t.moveRight.length_cells, t.cells_moveRight, t.pointer_moveRight]
    split
    · next hafter =>
      rw [List.length_append, t.length_cells, List.length_singleton, hend.mp hafter]
      omega
    · next hafter =>
      have hne := mt hend.mpr hafter
      rw [t.length_cells]
      omega
  | output => omega
  | input b => rw [hwrite, t.pointer_write]; omega
  | dump => omega

theorem Goes.inRange (h : Goes range s call s') (hs : s.tape.InRange range) :
    s'.tape.InRange range := by
  cases h with
  | op hdoes => exact hdoes.inRange hs
  | skip _ => exact hs
  | enter _ => exact hs
  | again _ => exact hs
  | leave _ => exact hs

theorem Goes.size_eq (h : Goes range s call s') :
    s'.tape.size = max s.tape.size (s'.tape.pointer + 1) := by
  have hlt := s.tape.pointer_lt_size
  cases h with
  | op hdoes => exact hdoes.size_eq
  | skip _ => dsimp only at hlt ⊢; omega
  | enter _ => dsimp only at hlt ⊢; omega
  | again _ => dsimp only at hlt ⊢; omega
  | leave _ => dsimp only at hlt ⊢; omega

/-- A value that is handed out is that of the selected cell. -/
theorem Goes.eq_here_of_output {v : Cell} (h : Goes range s (some (.output v)) s') :
    v = s.tape.here := by
  cases h with
  | op hdoes => cases hdoes; rfl

namespace Machine

open Progress

variable {host : Host σ} {program : Block} {h : σ}

/-! ### What a run keeps -/

/-- Cells and values handed out are in the range. -/
theorem inRange_recorded (range : CellRange) (host : Host σ) (program : Block) (h : σ) (n : Nat) :
    (recorded range host program h n).tape.InRange range ∧
      ∀ v, .output v ∈ (recorded range host program h n).calls → range.Contains v := by
  refine recorded_induction
    (P := fun _ p => p.tape.InRange range ∧ ∀ v, .output v ∈ p.calls → range.Contains v) ?_ ?_ n
  · exact ⟨Tape.inRange_fresh, fun v hv => by simp [calls, Progress.host] at hv⟩
  -- The induction is on the run. A value that is handed out is that of the selected cell.
  rintro n p p' _ _ ⟨hrange, houtput⟩ hturn
  cases hturn with
  | @goes s s' t t' call hgoes hcalls =>
    refine ⟨hgoes.inRange hrange, fun v hv => ?_⟩
    rw [calls, Progress.host, hcalls, List.mem_append] at hv
    rcases hv with hv | hv
    · exact houtput v hv
    · obtain rfl : call = some (.output v) := by simpa using hv
      rw [hgoes.eq_here_of_output]
      exact hrange.here
  | @stops s t t' call o hstops hcalls =>
    -- The last step of a run hands out nothing.
    refine ⟨hrange, fun v hv => houtput v ?_⟩
    rw [calls, Progress.host, hcalls, List.mem_append] at hv
    exact hv.resolve_right fun hv => by cases hstops <;> simp at hv
  | rests => exact ⟨hrange, houtput⟩

/-- **The last cell is the furthest one that was ever selected.** -/
theorem isGreatest_recorded (n : Nat) :
    IsGreatest {i | ∃ m ≤ n, (recorded range host program h m).tape.pointer = i}
      ((recorded range host program h n).tape.size - 1) := by
  refine recorded_induction
    (P := fun n p => IsGreatest {i | ∃ m ≤ n, (recorded range host program h m).tape.pointer = i}
      (p.tape.size - 1)) ?_ ?_ n
  · refine ⟨⟨0, Nat.le_refl 0, rfl⟩, ?_⟩
    rintro i ⟨m, hm, rfl⟩
    obtain rfl := Nat.le_zero.mp hm
    exact Nat.le_refl 0
  intro n p p' hp hp' hgreatest hturn
  -- One more step adds one pointer to those that were reached.
  have hinsert : {i | ∃ m ≤ n + 1, (recorded range host program h m).tape.pointer = i} =
      insert p'.tape.pointer
        {i | ∃ m ≤ n, (recorded range host program h m).tape.pointer = i} := by
    ext i
    simp only [Set.mem_ofPred_eq, Set.mem_insert_iff, ← hp', Nat.le_add_one_iff]
    grind
  have hsize : p'.tape.size = max p.tape.size (p'.tape.pointer + 1) := by
    cases hturn with
    | goes hgoes _ => exact hgoes.size_eq
    | stops _ _ => exact (max_eq_left (Tape.pointer_lt_size _)).symm
    | rests => exact (max_eq_left (Tape.pointer_lt_size _)).symm
  have hlast : p'.tape.size - 1 = max p'.tape.pointer (p.tape.size - 1) := by omega
  rw [hinsert, hlast]
  exact hgreatest.insert _

/-- **A run keeps within its bounds.**  At all times the selected cell is there, the last cell is
the furthest one that was ever selected, and cells and values handed out are below the bound of the
range.  Each frame stands at a place of its block and is left with what stands from there on; the
outermost block is the program, and each other one is the body of the loop right before the place of
the frame around it.  So the machine by addresses finds every cell and every instruction that it
reaches for. -/
theorem recorded_inBounds (range : CellRange) (host : Host σ) (program : Block) (h : σ) (n : Nat) :
    let run := recorded range host program h
    (run n).tape.pointer < (run n).tape.cells.length ∧
    (∃ furthest, (run n).tape.cells.length = furthest + 1 ∧
      IsGreatest {i | ∃ m ≤ n, (run m).tape.pointer = i} furthest) ∧
    (∀ bound, range.bound? = some bound →
      (∀ c ∈ (run n).tape.cells, 0 ≤ c.toInt ∧ c.toInt < bound) ∧
      ∀ v : Cell, .output v ∈ (run n).calls → 0 ≤ v.toInt ∧ v.toInt < bound) ∧
    ∀ s t, run n = .running s t →
      (∀ frame ∈ s.frames, frame.place ≤ frame.block.length ∧
        frame.rest.instructions = frame.block.instructions.drop frame.place) ∧
      (∀ frame, s.frames.getLast? = some frame → frame.block = program) ∧
      s.frames.IsChain (fun inner outer => ∃ i, outer.place = i + 1 ∧
        outer.block.instructions[i]? = some (.loop inner.block)) ∧
      s.addressed.advance? range host.traced t =
        some ((run (n + 1)).map State.addressed Tape.row) := by
  intro run
  have hlt := (run n).tape.pointer_lt_size
  rw [← Tape.length_cells] at hlt
  obtain ⟨hcells, houtput⟩ := inRange_recorded range host program h n
  refine ⟨hlt, ⟨(run n).tape.size - 1, ?_, isGreatest_recorded n⟩, fun bound hbound => ?_,
    fun s t hrun => ?_⟩
  · rw [← Tape.length_cells]
    omega
  · cases range with
    | all => cases hbound
    | below n pos le =>
      obtain rfl := Option.some.inj hbound
      exact ⟨fun c hc => CellRange.contains_below (hcells c hc),
        fun v hv => CellRange.contains_below (houtput v hv)⟩
  · have hnested := nested_recorded hrun
    refine ⟨fun frame hframe => ?_, hnested.bottom, ?_, ?_⟩
    · have hfits := hnested.fits frame hframe
      exact ⟨hfits.place_le, hfits.drop_place.symm⟩
    · exact hnested.behind.imp fun inner outer hbehind => hbehind.exists_place
    · have hnext : run (n + 1) = advance range host.traced s t := by
        rw [show run (n + 1) = _ from recorded_succ n,
          show recorded range host program h n = .running s t from hrun, andThen]
      rw [hnext]
      exact Addressed.advance?_addressed hnested.fits t

end Machine
end TapeLang
