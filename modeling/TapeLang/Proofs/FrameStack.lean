import TapeLang.Proofs.Following

/-!
# The stack of frames

The machine keeps the loops it is in on a stack of frames.  `follows_execute` says what the stack is
good for: with any frames below, the frame of a block is brought to its end by exactly what the
recursive execution of the block does.  It is proved by recursion on the block; the turns of a loop
are an induction of their own (`follows_turns`), in which each turn starts with a fresh frame for
the body and ends with the poll that drops or restarts it.

Main statement: a run and the execution of the program end with the same outcome, the same tape and
the same calls of the host, if one of them ends (`recorded_ended_iff_executeProgram`).
-/

namespace TapeLang.Machine

open Progress

variable {σ : Type} {range : CellRange} {host : Host σ}

/-- The state in which `rest` is to be done of the innermost block. -/
def inFrame (block rest : Block) (outer : List Frame) (t : Tape) : State :=
  ⟨t, ⟨block, rest⟩ :: outer⟩

theorem leave_of_here_ne_zero {block : Block} {frame : Frame} {outer : List Frame} {t : Tape}
    (hzero : t.here ≠ 0) :
    State.leave t ⟨block, .done⟩ (frame :: outer) = inFrame block block (frame :: outer) t := by
  simp [State.leave, inFrame, Frame.start, hzero]

theorem follows_op (bound : Nat) (block next : Block) (outer : List Frame) (o : Op) (t : Tape)
    (h : σ) :
    Follows (advance range host) Eq (fun t s => s = inFrame block next outer t) bound
      (inFrame block (.op o next) outer t) h (o.execute range host t h) := by
  -- Only a request for input has an answer that may end the run.
  cases o with
  | input =>
    rcases hin : host.input h with ⟨_ | b, h'⟩
    · simp only [Op.execute, hin]
      exact follows_cancelled (by simp [advance, inFrame, State.step, State.perform, hin]) rfl
    · simp only [Op.execute, hin]
      exact follows_step (by simp [advance, inFrame, State.step, State.perform, hin]; rfl) rfl
  | increment => exact follows_step rfl rfl
  | decrement => exact follows_step rfl rfl
  | left => exact follows_step rfl rfl
  | right => exact follows_step rfl rfl
  | output => exact follows_step rfl rfl
  | dump => exact follows_step rfl rfl

/-- The end of a block is one poll, and the run goes on as `State.leave` says. -/
theorem follows_polled {goal : Tape → State → Prop} {bound : Nat} (block : Block)
    (outer : List Frame) (t : Tape) (h : σ) {f : Tape → σ → Result σ}
    (hf : ∀ h', Follows (advance range host) Eq goal bound (State.leave t ⟨block, .done⟩ outer) h'
      (f t h')) :
    Follows (advance range host) Eq goal (bound + 1) (inFrame block .done outer t) h
      ((host.polled t h).andThen f) := by
  rcases hpoll : host.poll h with ⟨_ | _, h'⟩
  · have hstep : advance range host (inFrame block .done outer t) h =
        .running (State.leave t ⟨block, .done⟩ outer) h' := by
      simp [advance, inFrame, State.step, hpoll]
    simp only [Host.polled, hpoll, Result.andThen_finished]
    exact (hf h').step hstep
  · simp only [Host.polled, hpoll, Result.andThen_cancelled]
    exact follows_cancelled (by simp [advance, inFrame, State.step, hpoll]) rfl

theorem follows_leave (bound : Nat) (block : Block) (outer : List Frame) (t : Tape) (h : σ) :
    Follows (advance range host) Eq (fun t s => s = State.leave t ⟨block, .done⟩ outer) (bound + 1)
      (inFrame block .done outer t) h (host.polled t h) := by
  rw [← (host.polled t h).andThen_eq_self]
  exact follows_polled block outer t h fun h' => follows_finished rfl

/-- So many turns of a loop, if one turn of its body follows its execution. -/
theorem follows_turns {limit : Nat} (block body next : Block) (outer : List Frame)
    (hbody : ∀ t h, Follows (advance range host) Eq
      (fun t s => s = inFrame body .done (⟨block, next⟩ :: outer) t) limit
      (inFrame body body (⟨block, next⟩ :: outer) t) h (body.execute range host limit t h))
    (n : Nat) (hn : n ≤ limit) (t : Tape) (h : σ) :
    Follows (advance range host) Eq (fun t s => s = inFrame block next outer t) n
      (inFrame body body (⟨block, next⟩ :: outer) t) h
      (Block.turns host (body.execute range host limit) n t h) := by
  -- The tape and the host vary from turn to turn, while the frames below stay as they are.
  induction n generalizing t h with
  | zero => exact ⟨0, _, Nat.le_refl 0, rfl⟩
  | succ n ih =>
    rw [Block.turns]
    refine ((hbody t h).mono hn).andThen fun t' s h' _ hs => ?_
    subst hs
    refine follows_polled body _ t' h' fun h'' => ?_
    -- On zero the loop is left, and on any other value the body starts anew: this is one more turn.
    by_cases hzero : t'.here = 0
    · simp only [hzero, if_true]
      exact follows_finished (by simp [State.leave, inFrame, hzero])
    · simp only [hzero, if_false, leave_of_here_ne_zero hzero]
      exact ih (Nat.le_of_succ_le hn) t' h''

theorem follows_repeated {limit : Nat} (block body next : Block) (outer : List Frame)
    (hbody : ∀ t h, Follows (advance range host) Eq
      (fun t s => s = inFrame body .done (⟨block, next⟩ :: outer) t) limit
      (inFrame body body (⟨block, next⟩ :: outer) t) h (body.execute range host limit t h))
    (t : Tape) (h : σ) :
    Follows (advance range host) Eq (fun t s => s = inFrame block next outer t) limit
      (inFrame block (.loop body next) outer t) h
      (Block.repeated host (body.execute range host limit) limit t h) := by
  -- Entering or skipping the loop is a step without the host.
  have hstep : advance range host (inFrame block (.loop body next) outer t) h =
      .running (if t.here = 0 then inFrame block next outer t
        else inFrame body body (⟨block, next⟩ :: outer) t) h := by
    by_cases hzero : t.here = 0 <;> simp [advance, inFrame, State.step, Frame.start, hzero]
  refine Follows.mono (Nat.le_succ limit) (Follows.step hstep ?_)
  unfold Block.repeated
  split
  · exact follows_finished rfl
  · exact follows_turns block body next outer hbody limit (Nat.le_refl limit) t h

/-- **The machine executes the innermost block** and leaves the frames below alone. -/
theorem follows_execute (limit : Nat) (block rest : Block) (outer : List Frame) (t : Tape) (h : σ) :
    Follows (advance range host) Eq (fun t s => s = inFrame block .done outer t) limit
      (inFrame block rest outer t) h (rest.execute range host limit t h) := by
  -- The body of a loop is executed in a frame of its own, so the frames below vary.
  induction rest generalizing block outer t h with
  | done => exact follows_finished rfl
  | op o next ih =>
    refine (follows_op limit block next outer o t h).andThen fun t' s h' _ hs => ?_
    subst hs
    exact ih block outer t' h'
  | loop body next ihBody ihNext =>
    refine (follows_repeated block body next outer (fun t h => ihBody body _ t h) t h).andThen
      fun t' s h' _ hs => ?_
    subst hs
    exact ihNext block outer t' h'

theorem follows_loop (limit : Nat) (block body next : Block) (outer : List Frame) (t : Tape)
    (h : σ) :
    Follows (advance range host) Eq (fun t s => s = inFrame block next outer t) limit
      (inFrame block (.loop body next) outer t) h
      (Block.repeated host (body.execute range host limit) limit t h) :=
  follows_repeated block body next outer (fun t h => follows_execute limit body body _ t h) t h

/-- What holds of all states holds of those in a loop that is entered. -/
theorem always_enter {P : State → Prop} {block body next : Block} {outer : List Frame} {t : Tape}
    {h : σ} (hzero : t.here ≠ 0)
    (ha : Always P fun n =>
      iterate (advance range host) n (inFrame block (.loop body next) outer t) h) :
    Always P fun n =>
      iterate (advance range host) n (inFrame body body (⟨block, next⟩ :: outer) t) h := by
  have hstep : iterate (advance range host) 1 (inFrame block (.loop body next) outer t) h =
      .running (inFrame body body (⟨block, next⟩ :: outer) t) h := by
    simp [iterate, andThen, advance, inFrame, State.step, Frame.start, hzero]
  exact ha.later hstep

/-- **The machine performs the execution of a program.** -/
theorem performs_executeProgram (limit : Nat) (program : Block) (h : σ) :
    Performs (advance range host) Eq limit (.start program) h
      (program.executeProgram range host limit h) := by
  refine (follows_execute limit program program [] .fresh h).performs fun t s h' hs => ?_
  subst hs
  -- The poll at the end of the program empties the stack, and the step after it ends the run.
  rcases hpoll : host.poll h' with ⟨_ | _, h''⟩
  · simp only [Host.polled, hpoll]
    exact ⟨2, t, by simp [iterate, advance, inFrame, State.step, State.leave, hpoll, andThen], rfl⟩
  · simp only [Host.polled, hpoll]
    exact ⟨1, t, by simp [iterate, advance, inFrame, State.step, hpoll, andThen], rfl⟩

/-- **A run and the execution of its program end in the same way**: with the same outcome, tape and
calls, and only if both end.  The parts of a block are executed one after the other, and the second
one only if the first one came to its end. -/
theorem recorded_ended_iff_executeProgram (range : CellRange) (host : Host σ) (h : σ) :
    (∀ (program : Block) (o : Outcome) (tape : Tape) (t : Traced σ),
      (∃ n, recorded range host program h n = .ended o tape t) ↔
        ∃ limit, program.executeProgram range host.traced limit { host := h } = o.result tape t) ∧
    ∀ (first second : Block) (limit : Nat) (tape : Tape) (t : Traced σ),
      (first.append second).execute range host.traced limit tape t =
        (first.execute range host.traced limit tape t).andThen
          (second.execute range host.traced limit) := by
  refine ⟨fun program o tape t => ?_, fun first second limit tape t =>
    Block.execute_append range host.traced limit first second tape t⟩
  have hp (limit : Nat) : Performs (advance range host.traced) Eq limit (.start program) _ _ :=
    performs_executeProgram limit program { host := h }
  -- A run that ends performs an execution that is long enough, and the other way round.
  simp only [recorded_eq_iterate]
  constructor
  · rintro ⟨n, hn⟩
    obtain ⟨tape', hr, rfl⟩ := (hp n).exists_result hn
    exact ⟨n, hr⟩
  · rintro ⟨limit, hr⟩
    have hp' := hp limit
    rw [hr] at hp'
    obtain ⟨n, b, hn, rfl⟩ := hp'.exists_iterate
    exact ⟨n, hn⟩

end TapeLang.Machine
