import TapeLang.Proofs.Agreement
import TapeLang.Proofs.Peephole.Edge

/-!
# Runs of a text and of the reduced text

A program that never slips is executed like the reduced one, tape for tape and call for call
(`agree_of_reduces`).  It does not slip if it executes no `<` on the first cell at all.

Main statement: for a text with balanced brackets the run of its program and the run of the program
of the reduced text agree in this case (`recorded_reduce_agrees`).  They make the same calls in the
same order, those that show the tape included, and they end together.  The only difference is in the
tapes: the first one may have been walked along further to the right and have more zeros at its end.
-/

namespace TapeLang

open Progress

variable {σ : Type}

namespace Block

variable {range : CellRange} {host : Host σ} {h : σ} {program reduced : Block}

/-- The execution of a program and that of the reduced one, but for the poll at the end. -/
theorem execute_related_of_never_slips (answers : host.AnswersBy (!·.isDump) h)
    (hreduces : Reduces Op.Undoes program reduced)
    (hnever : Always (¬ ·.Slips) (Machine.recorded range host program h)) (limit : Nat) :
    Result.Related (Tracks range host h)
      (program.execute range host.traced limit .fresh { host := h })
      (reduced.execute range host.traced limit .fresh { host := h }) := by
  rw [Machine.recorded_eq_iterate] at hnever
  exact execute_related_of_reduces (congruence_tracks answers) Tracks.trans droppable_undoes
    hreduces (Tracks.start range host h) hnever limit

/-- **A program that never slips agrees with the reduced one.** -/
theorem agree_of_reduces (answers : host.AnswersBy (!·.isDump) h)
    (hreduces : Reduces Op.Undoes program reduced)
    (hnever : Always (¬ ·.Slips) (Machine.recorded range host program h)) :
    Agree Event.Similar Tape.Extends (Machine.recorded range host program h)
      (Machine.recorded range host reduced h) :=
  Machine.agree_of_execute_related (execute_related_of_never_slips answers hreduces hnever)
    (congruence_tracks answers).poll (fun hR => hR.events) (fun hR => hR.tape)

end Block

namespace Peephole

/-- **The reduction keeps behaviour** on every run that executes no `<` on the first cell: the run
of the reduced program makes the same calls, those that show the tape included, and ends if and only
if the first one does, with the same outcome.  The tapes shown and left behind are the same, but for
zeros at the end of the first ones. -/
theorem recorded_reduce_agrees (range : CellRange) (host : Host σ) {h : σ}
    (answers : host.AnswersBy (!·.isDump) h) {text : String} (balanced : Block.Balanced text.toList)
    (hnever : ∀ program, Block.parse text = .ok program →
      Always (¬ ·.AtEdge) (Machine.recorded range host program h)) :
    ∃ program reduced, Block.parse text = .ok program ∧ Block.parse (reduce text) = .ok reduced ∧
      Agree Event.Similar Tape.Extends (Machine.recorded range host program h)
        (Machine.recorded range host reduced h) := by
  obtain ⟨program, hp⟩ := Block.exists_parse_of_balanced balanced
  obtain ⟨reduced, hp', hreduces⟩ := Block.exists_parse_reduce hp
  -- A slip starts with a `<` on the first cell, and the run executes none.
  have hslips : Always (¬ ·.Slips) (Machine.recorded range host program h) :=
    (hnever program hp).imp fun s hs hslips => hs hslips.atEdge
  exact ⟨program, reduced, hp, hp', Block.agree_of_reduces answers hreduces hslips⟩

/-- A loop that moves a value to the right, a dead loop behind it and a pair. -/
theorem recorded_reduce_agrees_moving :
    Bare.host.AnswersBy (!·.isDump) { input := [1] } ∧
      Block.Balanced ",[->+<][.]+-.".toList ∧
      (∀ program, Block.parse ",[->+<][.]+-." = .ok program →
        Always (¬ ·.AtEdge) (Machine.recorded .bytes Bare.host program { input := [1] })) ∧
      ∃ program reduced, Block.parse ",[->+<][.]+-." = .ok program ∧
        Block.parse (reduce ",[->+<][.]+-.") = .ok reduced ∧
        Agree Event.Similar Tape.Extends
          (Machine.recorded .bytes Bare.host program { input := [1] })
          (Machine.recorded .bytes Bare.host reduced { input := [1] }) := by
  have answers := Bare.answersBy_host { input := [1] }
  have balanced : Block.Balanced ",[->+<][.]+-.".toList := by decide
  have hnever (program : Block) (hp : Block.parse ",[->+<][.]+-." = .ok program) :
      Always (¬ ·.AtEdge) (Machine.recorded .bytes Bare.host program { input := [1] }) := by
    obtain rfl : Block.op .input
        (.loop (.op .decrement (.op .right (.op .increment (.op .left .done))))
          (.loop (.op .output .done) (.op .increment (.op .decrement (.op .output .done))))) =
        program := Except.ok.inj hp
    -- The run ends after 13 steps, and so it has only these states.
    rw [Machine.recorded_eq_iterate]
    exact always_of_ended (m := 13) rfl (by decide)
  exact ⟨answers, balanced, hnever,
    recorded_reduce_agrees .bytes Bare.host answers balanced hnever⟩

end Peephole
end TapeLang
