import TapeLang.Host.Basic
import TapeLang.Proofs.Agreement
import TapeLang.Proofs.Extension
import TapeLang.Proofs.Peephole.Simulation

/-!
# Rewritings that change nothing

Going left from the first cell may not be undone by going right.  All other rules of the reduction
change nothing at all, on no run and for no host: to drop `+-` or `-+`, or a loop without brackets
inside behind a `]`.  The tapes stay the same to the last cell, since the operations that are
dropped do not move.

What carries this is that every cell is in the range of the machine (`SameInRange`), so that a value
that is raised and lowered comes back, and that a loop leaves a zero behind.

Main statement: one such rewriting anywhere in a text with balanced brackets leaves a text whose run
agrees with the run of the first one in everything (`recorded_agrees_of_rewrites_opposite`).
-/

namespace TapeLang

open Result Progress

/-- The operations raise and lower the selected cell, or lower and raise it. -/
def Op.Opposite (o o' : Op) : Prop :=
  (o = increment ∧ o' = decrement) ∨ (o = decrement ∧ o' = increment)

/-- The symbols are `+` and `-`, in either order. -/
def Peephole.OppositeSymbols (first second : Char) : Prop :=
  (first = '+' ∧ second = '-') ∨ (first = '-' ∧ second = '+')

theorem Peephole.OppositeSymbols.cancelSymbols {first second : Char}
    (h : OppositeSymbols first second) : Block.CancelSymbols Op.Opposite first second := by
  rcases h with ⟨rfl, rfl⟩ | ⟨rfl, rfl⟩
  · exact ⟨.increment, .decrement, rfl, rfl, .inl ⟨rfl, rfl⟩⟩
  · exact ⟨.decrement, .increment, rfl, rfl, .inr ⟨rfl, rfl⟩⟩

/-- Both executions are at the same place, with every cell in the range. -/
structure SameInRange {σ : Type} (range : CellRange) (t : Tape) (h : σ) (t' : Tape) (h' : σ) :
    Prop where
  tape : t = t'
  host : h = h'
  inRange : t.InRange range

namespace SameInRange

variable {σ : Type} {range : CellRange} {host : Host σ} {t t' t'' : Tape} {h h' h'' : σ}

theorem start (h : σ) : SameInRange range .fresh h .fresh h := ⟨rfl, rfl, Tape.inRange_fresh⟩

theorem trans (hR : SameInRange range t h t' h') (hR' : SameInRange range t' h' t'' h'') :
    SameInRange range t h t'' h'' :=
  ⟨hR.tape.trans hR'.tape, hR.host.trans hR'.host, hR.inRange⟩

/-- Every instruction keeps the cells in the range. -/
theorem congruence : Congruence range range host host (SameInRange range) where
  here := by
    -- Both executions are one and the same, so all that is left to show is that the range is kept.
    rintro t h _ _ ⟨rfl, rfl, -⟩
    exact Iff.rfl
  op := by
    rintro o t h _ _ ⟨rfl, rfl, hrange⟩
    cases o with
    | increment => exact .finished ⟨rfl, rfl, hrange.write _⟩
    | decrement => exact .finished ⟨rfl, rfl, hrange.write _⟩
    | left => exact .finished ⟨rfl, rfl, hrange.moveLeft⟩
    | right => exact .finished ⟨rfl, rfl, hrange.moveRight⟩
    | output => exact .finished ⟨rfl, rfl, hrange⟩
    | dump => exact .finished ⟨rfl, rfl, hrange⟩
    | input =>
      unfold Op.execute
      rcases host.input h with ⟨_ | b, h'⟩
      · exact .cancelled ⟨rfl, rfl, hrange⟩
      · exact .finished ⟨rfl, rfl, hrange.write _⟩
  poll := by
    rintro t h _ _ ⟨rfl, rfl, hrange⟩
    unfold Host.polled
    rcases host.poll h with ⟨_ | _, h'⟩
    · exact .finished ⟨rfl, rfl, hrange⟩
    · exact .cancelled ⟨rfl, rfl, hrange⟩

end SameInRange

section

variable {σ : Type} {range : CellRange} {host : Host σ}

/-- A value that is raised and lowered comes back, and so nothing is left to see of it. -/
theorem droppable_opposite :
    Block.Droppable range host Op.Opposite (fun _ => True) (SameInRange range) := by
  rintro o o' next next' ho _ block outer t h _ _ _ ⟨rfl, rfl, hrange⟩
  rcases ho with ⟨rfl, rfl⟩ | ⟨rfl, rfl⟩
  · -- Either way the wrapped value is the one that was there, for it lies in the range.
    refine ⟨_, _, rfl, rfl, ?_⟩
    show SameInRange range (t.write (range.wrap (range.wrap (t.here + 1) - 1))) h t h
    rw [CellRange.wrap_sub_one hrange.here]
    exact ⟨rfl, rfl, hrange⟩
  · refine ⟨_, _, rfl, rfl, ?_⟩
    show SameInRange range (t.write (range.wrap (range.wrap (t.here - 1) + 1))) h t h
    rw [CellRange.wrap_add_one hrange.here]
    exact ⟨rfl, rfl, hrange⟩

/-- **A program and the reduced one have the same runs**, if only opposite operations and dead loops
are dropped. -/
theorem Block.agree_of_reduces_opposite {program reduced : Block}
    (hreduces : Reduces Op.Opposite program reduced) (h : σ) :
    Agree Eq Eq (Machine.recorded range host program h)
      (Machine.recorded range host reduced h) := by
  -- No state is excluded, so nothing is asked of the run.
  have hstates : Always (fun _ => True) fun n =>
      iterate (Machine.advance range host.traced) n (Machine.inFrame program program [] .fresh)
        { host := h } :=
    always_true _
  have hexecute (limit : Nat) : Related (SameInRange range)
      (program.execute range host.traced limit .fresh { host := h })
      (reduced.execute range host.traced limit .fresh { host := h }) :=
    execute_related_of_reduces SameInRange.congruence SameInRange.trans droppable_opposite hreduces
      (SameInRange.start _) hstates limit
  exact Machine.agree_of_execute_related hexecute SameInRange.congruence.poll
    (fun hR => by rw [hR.host]; exact List.forall₂_refl _) SameInRange.tape

end

namespace Peephole

variable {σ : Type}

/-- **Dropping `+-`, `-+` or a dead loop changes nothing**, wherever it stands: the run of the
rewritten text makes the same calls in the same order, with the same tapes shown and the same
answers, and ends if and only if the run of the first text does, with the same outcome and tape. -/
theorem recorded_agrees_of_rewrites_opposite (range : CellRange) (host : Host σ)
    {text text' : String} (balanced : Block.Balanced text.toList)
    (hrewrites : Rewrites OppositeSymbols text.toList text'.toList) (h : σ) :
    ∃ program program', Block.parse text = .ok program ∧ Block.parse text' = .ok program' ∧
      Agree Eq Eq (Machine.recorded range host program h)
        (Machine.recorded range host program' h) := by
  obtain ⟨program, hparse⟩ := Block.exists_parse_of_balanced balanced
  obtain ⟨program', hparse', hreduces⟩ := Block.exists_parseFrom_of_rewrites
    (hrewrites.mono fun _ _ => OppositeSymbols.cancelSymbols) hparse
  exact ⟨program, program', hparse, hparse', Block.agree_of_reduces_opposite hreduces h⟩

/-- A dead loop behind a loop in a loop. -/
theorem recorded_agrees_of_rewrites_opposite_nested :
    Block.Balanced ",[>+[-][.~]<-]~.".toList ∧
      Rewrites OppositeSymbols ",[>+[-][.~]<-]~.".toList ",[>+[-]<-]~.".toList ∧
      ∃ program program', Block.parse ",[>+[-][.~]<-]~." = .ok program ∧
        Block.parse ",[>+[-]<-]~." = .ok program' ∧
        Agree Eq Eq (Machine.recorded .all Bare.host program { input := [2] })
          (Machine.recorded .all Bare.host program' { input := [2] }) := by
  have balanced : Block.Balanced ",[>+[-][.~]<-]~.".toList := by decide
  have hinner : ∀ c ∈ ".~".toList, isInner c := by simp [isInner]
  have hrewrites : Rewrites OppositeSymbols ",[>+[-][.~]<-]~.".toList ",[>+[-]<-]~.".toList :=
    .deadLoop ",[>+[-".toList "<-]~.".toList hinner
  exact ⟨balanced, hrewrites,
    recorded_agrees_of_rewrites_opposite .all Bare.host balanced hrewrites _⟩

end Peephole
end TapeLang
