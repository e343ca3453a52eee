import TapeLang.Proofs.Answers
import TapeLang.Proofs.Steps

/-!
# What a step can do

A step of a run either goes on or ends the run, and it makes at most one call.  `Goes` lists the
steps that go on, each with its call, and `Stops` those that end a run; a host's answers are left
open.  A recorded run takes such steps and no others (`turn_recorded`), and stays as it is when it
is over.

What holds at the start and is kept by every turn holds of a run at all times
(`recorded_induction`): every invariant of runs is proved by this induction.
-/

namespace TapeLang

variable {σ : Type}

/-! ### The steps of a machine -/

/-- One operation: the call that it makes, if any, and the tape that it leaves. -/
inductive Op.Does (range : CellRange) (t : Tape) : Op → Option Event → Tape → Prop
  | increment : Does range t .increment none (t.write (range.wrap (t.here + 1)))
  | decrement : Does range t .decrement none (t.write (range.wrap (t.here - 1)))
  | left : Does range t .left none t.moveLeft
  | right : Does range t .right none t.moveRight
  | output : Does range t .output (some (.output t.here)) t
  | input (b : UInt8) :
      Does range t .input (some (.input (some b))) (t.write (range.wrap (Int64.ofNat b.toNat)))
  | dump : Does range t .dump (some (.dump t.cells t.pointer)) t

/-- A step that goes on: the state before it, its call and the state behind it. -/
inductive Goes (range : CellRange) : State → Option Event → State → Prop
  | op {t t' : Tape} {o : Op} {call : Option Event} {block next : Block} {outer : List Frame}
      (h : o.Does range t call t') :
      Goes range ⟨t, ⟨block, .op o next⟩ :: outer⟩ call ⟨t', ⟨block, next⟩ :: outer⟩
  /-- A loop on a zero cell is passed. -/
  | skip {t : Tape} {block body next : Block} {outer : List Frame} (h : t.here = 0) :
      Goes range ⟨t, ⟨block, .loop body next⟩ :: outer⟩ none ⟨t, ⟨block, next⟩ :: outer⟩
  /-- Any other loop is passed, and its body is to be done first. -/
  | enter {t : Tape} {block body next : Block} {outer : List Frame} (h : t.here ≠ 0) :
      Goes range ⟨t, ⟨block, .loop body next⟩ :: outer⟩ none
        ⟨t, .start body :: ⟨block, next⟩ :: outer⟩
  /-- At the end of its body a loop starts anew. -/
  | again {t : Tape} {block : Block} {frame : Frame} {outer : List Frame} (h : t.here ≠ 0) :
      Goes range ⟨t, ⟨block, .done⟩ :: frame :: outer⟩ (some (.poll false))
        ⟨t, .start block :: frame :: outer⟩
  /-- At its end the program is left, and so is a loop on a zero cell. -/
  | leave {t : Tape} {block : Block} {outer : List Frame} (h : outer = [] ∨ t.here = 0) :
      Goes range ⟨t, ⟨block, .done⟩ :: outer⟩ (some (.poll false)) ⟨t, outer⟩

/-- A step that ends the run: the state before it, its call and the outcome. -/
inductive Stops : State → Option Event → Outcome → Prop
  | completed {t : Tape} : Stops ⟨t, []⟩ none .completed
  | unanswered {t : Tape} {block next : Block} {outer : List Frame} :
      Stops ⟨t, ⟨block, .op .input next⟩ :: outer⟩ (some (.input none)) .cancelled
  | polled {t : Tape} {block : Block} {outer : List Frame} :
      Stops ⟨t, ⟨block, .done⟩ :: outer⟩ (some (.poll true)) .cancelled

namespace Machine

open Progress

variable {range : CellRange} {host : Host σ}

/-- One turn of a run whose calls are written down. -/
inductive Turn (range : CellRange) : Progress (Traced σ) → Progress (Traced σ) → Prop
  | goes {s s' : State} {t t' : Traced σ} {call : Option Event} (h : Goes range s call s')
      (hcalls : t'.events.toList = t.events.toList ++ call.toList) :
      Turn range (.running s t) (.running s' t')
  | stops {s : State} {t t' : Traced σ} {call : Option Event} {o : Outcome} (h : Stops s call o)
      (hcalls : t'.events.toList = t.events.toList ++ call.toList) :
      Turn range (.running s t) (.ended o s.tape t')
  /-- A run that is over stays as it is. -/
  | rests {o : Outcome} {tape : Tape} {t : Traced σ} :
      Turn range (.ended o tape t) (.ended o tape t)

/-- Behind an operation the rest of the block is left to do. -/
theorem turn_perform (tape : Tape) (block next : Block) (outer : List Frame) (o : Op)
    (t : Traced σ) :
    Turn range (.running ⟨tape, ⟨block, .op o next⟩ :: outer⟩ t)
      (advance range host.traced ⟨tape, ⟨block, .op o next⟩ :: outer⟩ t) := by
  -- Only a request for input may have no answer, and then the run is stopped.
  cases o with
  | increment => exact .goes (.op .increment) (by simp)
  | decrement => exact .goes (.op .decrement) (by simp)
  | left => exact .goes (.op .left) (by simp)
  | right => exact .goes (.op .right) (by simp)
  | output => exact .goes (.op .output) (by simp [Host.traced])
  | dump => exact .goes (.op .dump) (by simp [Host.traced])
  | input =>
    simp only [advance, State.step, State.perform, Host.traced_input]
    cases (host.input t.host).1 with
    | none => exact .stops .unanswered (by simp)
    | some b => exact .goes (.op (.input b)) (by simp)

/-- At the end of a block the host is polled. -/
theorem turn_leave (tape : Tape) (block : Block) (outer : List Frame) (t : Traced σ) :
    Turn range (.running ⟨tape, ⟨block, .done⟩ :: outer⟩ t)
      (advance range host.traced ⟨tape, ⟨block, .done⟩ :: outer⟩ t) := by
  simp only [advance, State.step, Host.traced_poll]
  cases (host.poll t.host).1 with
  | true => exact .stops .polled (by simp)
  | false =>
    -- Nothing is around the program, so its end is left whatever the cell holds.
    cases outer with
    | nil => exact .goes (.leave (.inl rfl)) (by simp)
    | cons frame outer =>
      by_cases hzero : tape.here = 0
      · simp only [State.leave, hzero]
        exact .goes (.leave (.inr hzero)) (by simp)
      · simp only [State.leave, List.isEmpty_cons, bne_iff_ne, ne_eq, hzero, not_false_eq_true,
          Bool.not_false, Bool.true_and, if_true]
        exact .goes (.again hzero) (by simp)

/-- The machine takes these steps and no others. -/
theorem turn_advance (s : State) (t : Traced σ) :
    Turn range (.running s t) (advance range host.traced s t) := by
  obtain ⟨tape, frames⟩ := s
  cases frames with
  | nil => exact .stops .completed (by simp)
  | cons frame outer =>
    obtain ⟨block, rest⟩ := frame
    cases rest with
    | done => exact turn_leave tape block outer t
    | op o next => exact turn_perform tape block next outer o t
    | loop body next =>
      by_cases hzero : tape.here = 0
      · simp only [advance, State.step, hzero, if_true]
        exact .goes (.skip hzero) (by simp)
      · simp only [advance, State.step, hzero, if_false]
        exact .goes (.enter hzero) (by simp)

/-! ### Recorded runs -/

variable {program : Block} {h : σ}

theorem recorded_succ (n : Nat) :
    recorded range host program h (n + 1) =
      (recorded range host program h n).andThen (advance range host.traced) := by
  simp only [recorded_eq_iterate]
  exact iterate_succ n _ _

/-- A run that is over stays as it is. -/
theorem recorded_of_ended {m n : Nat} {o : Outcome} {tape : Tape} {t : Traced σ}
    (hm : recorded range host program h m = .ended o tape t) (hmn : m ≤ n) :
    recorded range host program h n = .ended o tape t := by
  rw [recorded_eq_iterate] at hm ⊢
  exact iterate_of_ended hm hmn

/-- The calls of a run at one time start with those at any time before. -/
theorem calls_recorded_of_le {m n : Nat} (hmn : m ≤ n) :
    (recorded range host program h m).calls <+: (recorded range host program h n).calls := by
  rw [recorded_eq_iterate]
  exact callsOnce_advance.calls_iterate_prefix hmn _ _

/-- **Each step of a run is a turn.** -/
theorem turn_recorded (range : CellRange) (host : Host σ) (program : Block) (h : σ) (n : Nat) :
    Turn range (recorded range host program h n) (recorded range host program h (n + 1)) := by
  rw [recorded_succ]
  cases recorded range host program h n with
  | running s t => exact turn_advance s t
  | ended o tape t => exact .rests

/-- Two states of a run, one behind the other. -/
theorem goes_recorded {n : Nat} {s s' : State} {t t' : Traced σ}
    (hn : recorded range host program h n = .running s t)
    (hn' : recorded range host program h (n + 1) = .running s' t') :
    ∃ call, Goes range s call s' ∧ t'.events.toList = t.events.toList ++ call.toList := by
  have hturn := turn_recorded range host program h n
  rw [hn, hn'] at hturn
  cases hturn with
  | goes hgoes hcalls => exact ⟨_, hgoes, hcalls⟩

/-- A run that goes on has gone on before. -/
theorem exists_running_of_succ {n : Nat} {s' : State} {t' : Traced σ}
    (hn' : recorded range host program h (n + 1) = .running s' t') :
    ∃ s t, recorded range host program h n = .running s t := by
  have hturn := turn_recorded range host program h n
  rw [hn'] at hturn
  cases hn : recorded range host program h n with
  | running s t => exact ⟨s, t, rfl⟩
  | ended o tape t =>
    rw [hn] at hturn
    cases hturn

/-- A run that is over has gone on until some time and then stopped. -/
theorem exists_running_of_ended {n : Nat} {o : Outcome} {tape : Tape} {t : Traced σ}
    (hn : recorded range host program h n = .ended o tape t) :
    ∃ m s t', recorded range host program h m = .running s t' ∧
      recorded range host program h (m + 1) = .ended o tape t := by
  -- An end is kept from then on, so the first time at which the run is over is looked for.
  induction n with
  | zero => cases hn
  | succ n ih =>
    cases hrun : recorded range host program h n with
    | running s t' => exact ⟨n, s, t', hrun, hn⟩
    | ended o' tape' t' =>
      rw [recorded_of_ended hrun (Nat.le_succ n)] at hn
      exact ih (hrun.trans hn)

/-- **Induction over a run**: what holds at the start and is kept by every turn holds at all
times. -/
theorem recorded_induction {P : Nat → Progress (Traced σ) → Prop}
    (start : P 0 (.running (.start program) { host := h }))
    (turn : ∀ n p p', recorded range host program h n = p →
      recorded range host program h (n + 1) = p' → P n p → Turn range p p' → P (n + 1) p')
    (n : Nat) : P n (recorded range host program h n) := by
  induction n with
  | zero => exact start
  | succ n ih => exact turn n _ _ rfl rfl ih (turn_recorded range host program h n)

end Machine
end TapeLang
