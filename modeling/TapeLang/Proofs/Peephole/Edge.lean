import TapeLang.Proofs.Peephole.Simulation
import TapeLang.Proofs.Peephole.Tracking

/-!
# The left edge of the tape

Going left from the first cell stays there, and so a `<` executed there is not undone by going
right.  This is the only way in which operations that undo each other can come to something: they
come to nothing as long as the machine does not *slip*, that is, as long as it executes no `<` on
the first cell that the operations behind it undo (`droppable_undoes`).

`Block.undoes` finds out what the operations at the start of a block undo.  Whatever a reduction
drops in between, it finds the same (`undoes_of_reduces`).
-/

namespace TapeLang

open Machine Progress Result

instance (o o' : Op) : Decidable (o.Undoes o') := inferInstanceAs (Decidable (_ = _))

namespace Block

/-- The operations at the start of the block undo those in the list, of which the last comes
first.  Before they come to it, they may undo one another. -/
def undoes : Block → List Op → Bool
  | _, [] => true
  | op o next, last :: pending =>
    if last.Undoes o then next.undoes pending else next.undoes (o :: last :: pending)
  | _, _ :: _ => false

@[simp]
theorem undoes_nil (b : Block) : b.undoes [] = true := by
  cases b <;> rfl

theorem undoes_op_of_undoes {last o : Op} (h : last.Undoes o) (next : Block) (pending : List Op) :
    (op o next).undoes (last :: pending) = next.undoes pending := by
  simp only [undoes, h, if_true]

theorem undoes_op_of_not_undoes {last o : Op} (h : ¬ last.Undoes o) (next : Block)
    (pending : List Op) :
    (op o next).undoes (last :: pending) = next.undoes (o :: last :: pending) := by
  simp only [undoes, h, if_false]

/-- What a reduced block undoes, the block undoes, if none of the operations to be undone undoes
the one before it. -/
theorem undoes_of_reduces {b b' : Block} (hreduces : Reduces Op.Undoes b b') {pending : List Op}
    (hpending : pending.IsChain fun later earlier => ¬ earlier.Undoes later)
    (h : b'.undoes pending) : b.undoes pending := by
  -- The operations to be undone vary, for each operation of the block adds one to them or takes one
  -- away.
  induction hreduces generalizing pending with
  | done => exact h
  | @op o next next' _ ih =>
    cases pending with
    | nil => exact undoes_nil _
    | cons last pending =>
      by_cases ho : last.Undoes o
      · rw [undoes_op_of_undoes ho] at h ⊢
        exact ih hpending.of_cons h
      · rw [undoes_op_of_not_undoes ho] at h ⊢
        exact ih (.cons_cons ho hpending) h
  -- The pair is in the block alone. With it the list comes back to what it was.
  | @cancel o o' next next' ho _ ih =>
    cases pending with
    | nil => exact undoes_nil _
    | cons last pending =>
      by_cases hlast : last.Undoes o
      · -- The second operation is the last one of the list again.
        have hinverse : o.inverse? = some last := hlast.symm
        obtain rfl : last = o' := Option.some.inj (hinverse.symm.trans ho)
        rw [undoes_op_of_undoes hlast]
        refine ih hpending.of_cons ?_
        cases pending with
        | nil => exact undoes_nil _
        | cons earlier pending =>
          rw [undoes_op_of_not_undoes (List.isChain_cons_cons.mp hpending).1]
          exact h
      · rw [undoes_op_of_not_undoes hlast]
        refine ih (.cons_cons hlast hpending) ?_
        rw [undoes_op_of_undoes ho]
        exact h
  -- Behind a loop nothing can be undone, in either block.
  | loop =>
    cases pending with
    | nil => exact undoes_nil _
    | cons last pending => simp [undoes] at h
  | deadLoop =>
    cases pending with
    | nil => exact undoes_nil _
    | cons last pending => simp [undoes] at h

end Block

namespace State

/-- The block behind a `<` that is the next operation. -/
def behindLeft? (s : State) : Option Block :=
  match s.frames with
  | ⟨_, .op .left next⟩ :: _ => some next
  | _ => none

/-- The next operation is a `<` on the first cell. -/
def AtEdge (s : State) : Prop := s.tape.pointer = 0 ∧ s.behindLeft?.isSome

/-- The next operation is a `<` on the first cell, and the block behind it undoes it. -/
def Slips (s : State) : Prop := s.tape.pointer = 0 ∧ s.behindLeft?.any (·.undoes [.left])

instance : DecidablePred AtEdge := fun _ => inferInstanceAs (Decidable (_ ∧ _))

instance : DecidablePred Slips := fun _ => inferInstanceAs (Decidable (_ ∧ _))

theorem Slips.atEdge {s : State} (h : s.Slips) : s.AtEdge := by
  refine ⟨h.1, ?_⟩
  obtain ⟨-, h⟩ := h
  cases hs : s.behindLeft? with
  | none => simp [hs] at h
  | some next => rfl

end State

section

variable {σ : Type} {range : CellRange} {host : Host σ} {h₀ : σ}

/-- **Operations that undo each other come to nothing**, unless the machine slips. -/
theorem droppable_undoes :
    Block.Droppable range host.traced Op.Undoes (¬ ·.Slips) (Tracks range host h₀) := by
  intro o o' next next' ho hreduces block outer t h t' h' hok hR
  have hrange := hR.right.inRange
  cases o with
  | increment =>
    cases ho
    refine ⟨_, _, rfl, rfl, ?_⟩
    show Tracks range host h₀ (t'.write (range.wrap (range.wrap (t'.here + 1) - 1))) h' t' h'
    rw [CellRange.wrap_sub_one hrange.here]
    exact hR.right
  | decrement =>
    cases ho
    refine ⟨_, _, rfl, rfl, ?_⟩
    show Tracks range host h₀ (t'.write (range.wrap (range.wrap (t'.here - 1) + 1))) h' t' h'
    rw [CellRange.wrap_add_one hrange.here]
    exact hR.right
  | left =>
    cases ho
    have hback : Op.left.Undoes .right := rfl
    have hundoes : (Block.op .right next').undoes [.left] := by
      rw [Block.undoes_op_of_undoes hback]
      exact Block.undoes_nil next'
    -- On the first cell the machine would slip here, since the block behind undoes the `<`.
    have hpointer : t'.pointer ≠ 0 := by
      rw [← hR.tape.1]
      intro hzero
      exact hok ⟨hzero, Block.undoes_of_reduces hreduces (.singleton _) hundoes⟩
    refine ⟨_, _, rfl, rfl, ?_⟩
    rw [Tape.moveRight_moveLeft hpointer]
    exact hR.right
  | right =>
    cases ho
    refine ⟨_, _, rfl, rfl, ?_⟩
    -- A cell may come into being at the end of the tape; it holds zero and is not seen.
    exact hR.right.withTape (Tape.extends_moveLeft_moveRight t') hrange.moveRight.moveLeft
  | output => cases ho
  | input => cases ho
  | dump => cases ho

end

end TapeLang
