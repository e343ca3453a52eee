import TapeLang.Proofs.Cancellation
import TapeLang.Proofs.Lockstep

/-!
# Instructions that only observe

To hand over a value and to show the tape changes nothing in a machine.  So a program may lose any of
these instructions, in loops of any depth (`Block.without`), and if its host does not look at what it
is shown, nothing else happens but that their calls are missing.

The instructions are named by their paths.  A state of the program then is a state of the program
without them (`State.without`): the tape is the same, and each frame has lost what its block has lost.
The next step is a step of the other program, too (`step_without`), unless it executes one of them;
then the other program stays where it is (`exists_step_of_removed`).  It does not stay there for ever,
since each of these steps leaves fewer instructions ahead.

Main statement: `recorded_without_agrees`.
-/

namespace TapeLang

variable {σ : Type}

/-- The operation only shows something to the host. -/
def Op.observes : Op → Bool
  | increment => false
  | decrement => false
  | left => false
  | right => false
  | output => true
  | input => false
  | dump => true

/-- The call asks for an answer. -/
def Event.asks : Event → Bool
  | input _ => true
  | output _ => false
  | dump _ _ => false
  | poll _ => true

namespace Block

/-- What is left of a block whose instructions stand at `path`, from the given place on. -/
def withoutFrom (removed : List Nat → Bool) (path : List Nat) (place : Nat) : Block → Block
  | done => done
  | op o next =>
    if removed (path ++ [place]) then withoutFrom removed path (place + 1) next
    else op o (withoutFrom removed path (place + 1) next)
  | loop body next =>
    loop (withoutFrom removed (path ++ [place]) 0 body) (withoutFrom removed path (place + 1) next)

/-- The program without the operations at some paths. -/
def without (removed : List Nat → Bool) (program : Block) : Block := program.withoutFrom removed [] 0

end Block

/-! ### States -/

/-- The frame of a block that stands at `path`. -/
def Frame.without (removed : List Nat → Bool) (path : List Nat) (frame : Frame) : Frame :=
  ⟨frame.block.withoutFrom removed path 0, frame.rest.withoutFrom removed path frame.place⟩

/-- The frames of the program without some operations. -/
def framesWithout (removed : List Nat → Bool) : List Frame → List Frame
  | [] => []
  | frame :: outer => frame.without removed (pathThrough outer) :: framesWithout removed outer

/-- The state of the program without some operations. -/
def State.without (removed : List Nat → Bool) (s : State) : State :=
  ⟨s.tape, framesWithout removed s.frames⟩

/-- A step to another state. -/
def Step.map (f : State → State) : Step → Step
  | halt => halt
  | silent next => silent (f next)
  | output value next => output value (f next)
  | dump next => dump (f next)
  | input next => input fun b => f (next b)
  | poll next => poll (f next)

section

variable {removed : List Nat → Bool} {range : CellRange} {program block body next : Block}
  {outer : List Frame} {s : State} {t : Tape}

theorem without_start : (State.start program).without removed = .start (program.without removed) := by
  simp [State.without, State.start, framesWithout, Frame.without, Frame.start, pathThrough,
    Frame.place, Block.without]

/-- An operation leaves all frames alone. -/
theorem perform_without (removed : List Nat → Bool) (range : CellRange) (s : State) (o : Op) :
    (s.without removed).perform range o = (s.perform range o).map (State.without removed) := by
  cases o <;> rfl

theorem leave_without (t : Tape) (frame : Frame) (outer : List Frame) (path : List Nat)
    (hpath : path = pathThrough outer) :
    State.leave t (frame.without removed path) (framesWithout removed outer) =
      (State.leave t frame outer).without removed := by
  subst hpath
  cases outer with
  | nil => rfl
  | cons around outer =>
    by_cases hzero : t.here = 0 <;>
      simp [State.leave, hzero, State.without, framesWithout, Frame.without, Frame.start,
        Frame.place]

/-- Behind an instruction a frame without some operations is left with what is left behind it. -/
theorem without_pass {i : Block.Instruction} {rest : Block} (removed : List Nat → Bool)
    (path : List Nat) (hfits : Frame.Fits ⟨block, rest⟩)
    (hrest : rest.instructions = i :: next.instructions) :
    Frame.without removed path ⟨block, next⟩ =
      ⟨block.withoutFrom removed path 0,
        next.withoutFrom removed path (Frame.place ⟨block, rest⟩ + 1)⟩ := by
  rw [Frame.without, (hfits.pass hrest).2]

/-- A step that executes none of the operations is a step of the program without them. -/
theorem step_without (range : CellRange) (hnested : Nested program s.frames)
    (hkept : s.node?.any removed = false) :
    (s.without removed).step range = (s.step range).map (State.without removed) := by
  obtain ⟨t, frames⟩ := s
  cases frames with
  | nil => rfl
  | cons frame outer =>
    obtain ⟨block, rest⟩ := frame
    cases rest with
    | done => exact congrArg Step.poll (leave_without t ⟨block, .done⟩ outer _ rfl)
    | op o next =>
      -- The operation is kept, so it comes next in both programs, at the same place of its block.
      have hkept : removed (pathThrough outer ++ [Frame.place ⟨block, .op o next⟩]) = false := hkept
      have hpass := without_pass removed (pathThrough outer) hnested.head rfl
      have hperform := perform_without removed range ⟨t, ⟨block, next⟩ :: outer⟩ o
      rw [State.without, framesWithout, hpass] at hperform
      simp only [State.step, State.without, framesWithout, Frame.without, Block.withoutFrom, hkept]
      exact hperform
    | loop body next =>
      have hpass := without_pass removed (pathThrough outer) hnested.head rfl
      -- The path to the body leads through the loop, which stands right before the next place.
      have hpath : pathThrough (⟨block, next⟩ :: outer) =
          pathThrough outer ++ [Frame.place ⟨block, .loop body next⟩] := by
        rw [← List.append_nil (pathThrough (_ :: outer)), pathThrough_cons,
          (hnested.head.pass rfl).2, Nat.add_sub_cancel]
      by_cases hzero : t.here = 0
      · simp only [State.step, State.without, framesWithout, Frame.without, Block.withoutFrom, hzero,
          if_true, Step.map]
        rw [← hpass, Frame.without]
      · simp only [State.step, State.without, framesWithout, hzero, if_false, Step.map, hpass, hpath]
        simp [Frame.without, Frame.start, Frame.place, Block.withoutFrom]

/-- A state that executes an operation next stands before it in its innermost block. -/
theorem exists_eq_of_next?_op {o : Op} (hnext : s.next? = some (.op o)) :
    ∃ t block next outer, s = ⟨t, ⟨block, .op o next⟩ :: outer⟩ := by
  obtain ⟨t, frames⟩ := s
  cases frames with
  | nil => cases hnext
  | cons frame outer =>
    obtain ⟨block, rest⟩ := frame
    cases rest with
    | done => cases hnext
    | loop body next => cases hnext
    | op o' next =>
      cases hnext
      exact ⟨t, block, next, outer, rfl⟩

/-- A step that executes one of the operations only shows something, and the program without them
stays where it is. -/
theorem exists_step_of_removed (range : CellRange) (hnested : Nested program s.frames)
    (hremoved : ∀ path, removed path = true → ∃ o, program.at? path = some (.op o) ∧ o.observes = true)
    (hnode : s.node?.any removed = true) :
    ∃ next : State, next.without removed = s.without removed ∧
      (s.step range = .output s.tape.here next ∨ s.step range = .dump next) := by
  -- The path leads to the operation that is removed, and this is the next one of the state.
  obtain ⟨path, hpath, hmem⟩ := (Option.any_eq_true _ _).mp hnode
  obtain ⟨o, hat, hobserves⟩ := hremoved path hmem
  obtain ⟨t, block, next, outer, rfl⟩ :=
    exists_eq_of_next?_op ((hnested.at?_position hpath).symm.trans hat)
  obtain rfl : pathThrough outer ++ [Frame.place ⟨block, .op o next⟩] = path := Option.some.inj hpath
  refine ⟨⟨t, ⟨block, next⟩ :: outer⟩, ?_, ?_⟩
  · have hpass := without_pass removed (pathThrough outer) hnested.head rfl
    simp only [State.without, framesWithout, hpass]
    simp only [Frame.without, Block.withoutFrom, hmem, if_true]
  · cases o with
    | output => exact .inl rfl
    | dump => exact .inr rfl
    | _ => cases hobserves

end

/-! ### Calls -/

namespace Progress

variable {removed : List Nat → Bool} {run : Nat → Progress (Traced σ)}

/-- The calls that a run makes in one step. -/
def callsIn (run : Nat → Progress (Traced σ)) (n : Nat) : List Event :=
  (run (n + 1)).calls.drop (run n).calls.length

/-- The calls of so many steps but for those of the operations at some paths. -/
def callsWithout (removed : List Nat → Bool) (run : Nat → Progress (Traced σ)) (n : Nat) :
    List Event :=
  (List.range n).flatMap fun m => if (run m).node?.any removed then [] else callsIn run m

theorem callsWithout_succ (n : Nat) :
    callsWithout removed run (n + 1) = callsWithout removed run n ++
      if (run n).node?.any removed then [] else callsIn run n := by
  simp [callsWithout, List.range_succ]

theorem callsIn_eq {n : Nat} {new : List Event} (h : (run (n + 1)).calls = (run n).calls ++ new) :
    callsIn run n = new := by
  rw [callsIn, h, List.drop_left]

/-- The run of the program without some operations is where the run of the program is, after the
given calls. -/
inductive Shadows (removed : List Nat → Bool) (kept : List Event) :
    Progress (Traced σ) → Progress (Traced σ) → Prop
  | running {s : State} {t t' : Traced σ} (hcalls : t'.events.toList = kept) :
      Shadows removed kept (.running s t) (.running (s.without removed) t')
  | ended {o : Outcome} {tape : Tape} {t t' : Traced σ} (hcalls : t'.events.toList = kept) :
      Shadows removed kept (.ended o tape t) (.ended o tape t')

theorem Shadows.calls_eq {kept : List Event} {p p' : Progress (Traced σ)}
    (h : Shadows removed kept p p') : p'.calls = kept := by
  cases h with
  | running hcalls => exact hcalls
  | ended hcalls => exact hcalls

end Progress

namespace Machine

open Progress

variable {range : CellRange} {host : Host σ} {program : Block} {h : σ} {removed : List Nat → Bool}

/-- A step that both programs take makes the same call, if the answers are the same. -/
theorem shadows_advance {s : State} {t t' : Traced σ}
    (hinput : (host.input t.host).1 = (host.input t'.host).1)
    (hpoll : (host.poll t.host).1 = (host.poll t'.host).1)
    (hstep : (s.without removed).step range = (s.step range).map (State.without removed)) :
    ∃ call : Option Event,
      (advance range host.traced s t).calls = t.events.toList ++ call.toList ∧
      Shadows removed (t'.events.toList ++ call.toList) (advance range host.traced s t)
        (advance range host.traced (s.without removed) t') := by
  unfold advance
  -- Both programs take the same step, up to the frames, and so they ask their hosts the same.
  rw [hstep]
  cases s.step range with
  | halt => exact ⟨none, by simp [calls, Progress.host], .ended (by simp)⟩
  | silent next => exact ⟨none, by simp [calls, Progress.host], .running (by simp)⟩
  | output value next =>
    exact ⟨some (.output value), by simp [calls, Progress.host, Host.traced],
      .running (by simp [Host.traced])⟩
  | dump next =>
    exact ⟨some (.dump s.tape.cells s.tape.pointer), by simp [calls, Progress.host, Host.traced],
      .running (by simp [Host.traced, State.without])⟩
  | input next =>
    refine ⟨some (.input (host.input t.host).1), ?_⟩
    simp only [Step.map, Host.traced_input, ← hinput]
    cases (host.input t.host).1 with
    | none => exact ⟨by simp [calls, Progress.host], .ended (by simp)⟩
    | some b => exact ⟨by simp [calls, Progress.host], .running (by simp)⟩
  | poll next =>
    refine ⟨some (.poll (host.poll t.host).1), ?_⟩
    simp only [Step.map, Host.traced_poll, ← hpoll]
    cases (host.poll t.host).1 with
    | true => exact ⟨by simp [calls, Progress.host], .ended (by simp)⟩
    | false => exact ⟨by simp [calls, Progress.host], .running (by simp)⟩

/-- A step that executes one of the operations makes a call that does not ask. -/
theorem exists_advance_of_removed (range : CellRange) (host : Host σ) {s : State}
    (hnested : Nested program s.frames)
    (hremoved : ∀ path, removed path = true → ∃ o, program.at? path = some (.op o) ∧ o.observes = true)
    (hnode : s.node?.any removed = true) (t : Traced σ) :
    ∃ next t' e, advance range host.traced s t = .running next t' ∧
      next.without removed = s.without removed ∧ t'.events = t.events.push e ∧ e.asks = false := by
  obtain ⟨next, hnext, hstep | hstep⟩ := exists_step_of_removed range hnested hremoved hnode
  · exact ⟨next, _, .output s.tape.here, by rw [advance, hstep], hnext, rfl, rfl⟩
  · exact ⟨next, _, .dump s.tape.cells s.tape.pointer, by rw [advance, hstep], hnext, rfl, rfl⟩

/-! ### Runs -/

theorem shadows_start (range : CellRange) (host : Host σ) (program : Block) (h : σ)
    (removed : List Nat → Bool) :
    Shadows removed (callsWithout removed (recorded range host program h) 0)
      (recorded range host program h 0) (recorded range host (program.without removed) h 0) := by
  show Shadows removed [] (.running (.start program) _) (.running (.start _) _)
  rw [← without_start]
  exact .running rfl

/-- The calls of a run are those of its steps, one after another. -/
theorem calls_eq_flatMap_callsIn (n : Nat) :
    (recorded range host program h n).calls =
      (List.range n).flatMap (callsIn (recorded range host program h)) := by
  induction n with
  | zero => rfl
  | succ n ih =>
    have hprefix : (recorded range host program h n).calls <+:
        (recorded range host program h (n + 1)).calls := calls_recorded_of_le (Nat.le_succ n)
    obtain ⟨new, hnew⟩ := hprefix
    rw [List.range_succ, List.flatMap_append, ← ih, List.flatMap_singleton, callsIn_eq hnew.symm, hnew]

section

variable (hremoved : ∀ path, removed path = true →
  ∃ o, program.at? path = some (.op o) ∧ o.observes = true)
include hremoved

/-- A step that executes one of the operations makes a call that does not ask. -/
theorem exists_callsIn_of_removed {n : Nat}
    (hnode : (recorded range host program h n).node?.any removed = true) :
    ∃ e, callsIn (recorded range host program h) n = [e] ∧ e.asks = false := by
  cases hn : recorded range host program h n with
  | ended o tape t =>
    rw [hn] at hnode
    cases hnode
  | running s t =>
    rw [hn] at hnode
    obtain ⟨next, t', e, hadvance, -, hevents, he⟩ :=
      exists_advance_of_removed range host (nested_recorded hn) hremoved hnode t
    refine ⟨e, callsIn_eq ?_, he⟩
    rw [recorded_succ, hn, andThen, hadvance, calls, Progress.host, hevents, Array.toList_push]
    rfl

/-- The calls of the operations do not ask. -/
theorem filter_callsWithout (n : Nat) :
    (callsWithout removed (recorded range host program h) n).filter Event.asks =
      (recorded range host program h n).calls.filter Event.asks := by
  -- Only the steps of the operations are left out, and their calls are no questions.
  rw [calls_eq_flatMap_callsIn, callsWithout, List.filter_flatMap, List.filter_flatMap]
  congr 1
  funext m
  split
  case isTrue hnode =>
    obtain ⟨e, hnew, he⟩ := exists_callsIn_of_removed hremoved hnode
    simp [hnew, he]
  case isFalse => rfl

/-- The program without the operations waits while one of them is executed, and fewer instructions lie
ahead behind it. -/
theorem shadows_of_removed {n m : Nat}
    (hnode : (recorded range host program h n).node?.any removed = true)
    (hshadows : Shadows removed (callsWithout removed (recorded range host program h) n)
      (recorded range host program h n) (recorded range host (program.without removed) h m)) :
    Shadows removed (callsWithout removed (recorded range host program h) (n + 1))
      (recorded range host program h (n + 1)) (recorded range host (program.without removed) h m) ∧
    (recorded range host program h (n + 1)).ahead < (recorded range host program h n).ahead := by
  rw [callsWithout_succ, if_pos hnode, List.append_nil]
  cases hn : recorded range host program h n with
  | ended o tape t =>
    rw [hn] at hnode
    cases hnode
  -- What lies ahead of the run is less, since an instruction was executed.
  | running s t =>
    rw [hn] at hnode hshadows
    obtain ⟨next, t', e, hadvance, hnext, -, -⟩ :=
      exists_advance_of_removed range host (nested_recorded hn) hremoved hnode t
    have hn' : recorded range host program h (n + 1) = .running next t' := by
      rw [recorded_succ, hn, andThen, hadvance]
    obtain ⟨call, hgoes, -⟩ := goes_recorded hn hn'
    have hsome : s.next? ≠ none := by
      intro hnone
      rw [node?, State.node?, hnone] at hnode
      cases hnode
    rw [hn']
    refine ⟨?_, hgoes.remaining_lt hsome⟩
    generalize recorded range host (program.without removed) h m = p' at hshadows
    cases hshadows with
    | running hcalls =>
      rw [← hnext]
      exact .running hcalls

variable (answers : host.AnswersBy Event.asks h)
include answers

/-- Both programs take any other step, and with the same call. -/
theorem shadows_succ {n m : Nat}
    (hnode : (recorded range host program h n).node?.any removed = false)
    (hshadows : Shadows removed (callsWithout removed (recorded range host program h) n)
      (recorded range host program h n) (recorded range host (program.without removed) h m)) :
    Shadows removed (callsWithout removed (recorded range host program h) (n + 1))
      (recorded range host program h (n + 1))
      (recorded range host (program.without removed) h (m + 1)) := by
  have hgave := (recorded_gave range host program h n).1
  have hgave' := (recorded_gave range host (program.without removed) h m).1
  -- The questions asked so far are the same, hence the next answers as well.
  have hasks : (recorded range host program h n).calls.filter Event.asks =
      (recorded range host (program.without removed) h m).calls.filter Event.asks := by
    rw [hshadows.calls_eq, filter_callsWithout hremoved]
  have hinput := answers.input hasks
  have hpoll := answers.poll hasks
  rw [← hgave, ← hgave'] at hinput hpoll
  cases hn : recorded range host program h n with
  -- A run that is over stays so, and the other one is over as well.
  | ended o tape t =>
    have hn' : recorded range host program h (n + 1) = .ended o tape t :=
      recorded_of_ended hn (Nat.le_succ n)
    have hnew : callsIn (recorded range host program h) n = [] :=
      callsIn_eq (by rw [hn, hn', List.append_nil])
    rw [callsWithout_succ, hnode, hnew, hn', recorded_succ]
    rw [hn] at hshadows
    generalize recorded range host (program.without removed) h m = p' at hshadows
    cases hshadows with
    | ended hcalls => exact .ended (by simpa using hcalls)
  | running s t =>
    rw [hn] at hshadows hinput hpoll hnode
    have hnested := nested_recorded hn
    generalize hm : recorded range host (program.without removed) h m = p' at hshadows hinput hpoll
    cases hshadows with
    | @running _ _ t' hcalls =>
      have hinput : (host.input t.host).1 = (host.input t'.host).1 := hinput
      have hpoll : (host.poll t.host).1 = (host.poll t'.host).1 := hpoll
      obtain ⟨call, hcall, hshadows⟩ :=
        shadows_advance hinput hpoll (step_without range hnested hnode)
      have hn' : recorded range host program h (n + 1) = advance range host.traced s t := by
        rw [recorded_succ, hn, andThen]
      have hnew : callsIn (recorded range host program h) n = call.toList :=
        callsIn_eq (by rw [hn, hn']; exact hcall)
      rw [callsWithout_succ, hn, hnode, hnew, hn', recorded_succ, hm, ← hcalls]
      exact hshadows

/-- At all times of the first run there is a time of the second one. -/
theorem exists_shadows (n : Nat) :
    ∃ m, Shadows removed (callsWithout removed (recorded range host program h) n)
      (recorded range host program h n) (recorded range host (program.without removed) h m) := by
  induction n with
  | zero => exact ⟨0, shadows_start range host program h removed⟩
  | succ n ih =>
    obtain ⟨m, hm⟩ := ih
    cases hnode : (recorded range host program h n).node?.any removed with
    | true => exact ⟨m, (shadows_of_removed hremoved hnode hm).1⟩
    | false => exact ⟨m + 1, shadows_succ hremoved answers hnode hm⟩

/-- **The first run goes on to a step that both programs take.** -/
theorem exists_shadows_succ {n m : Nat}
    (hshadows : Shadows removed (callsWithout removed (recorded range host program h) n)
      (recorded range host program h n) (recorded range host (program.without removed) h m)) :
    ∃ n', Shadows removed (callsWithout removed (recorded range host program h) n')
      (recorded range host program h n') (recorded range host (program.without removed) h (m + 1)) := by
  -- By induction on what lies ahead of the first run.
  induction hahead : (recorded range host program h n).ahead using Nat.strong_induction_on
    generalizing n with
  | _ ahead ih =>
    cases hnode : (recorded range host program h n).node?.any removed with
    | true =>
      obtain ⟨hnext, hlt⟩ := shadows_of_removed hremoved hnode hshadows
      exact ih _ (hahead ▸ hlt) hnext rfl
    | false => exact ⟨n + 1, shadows_succ hremoved answers hnode hshadows⟩

/-- At all times of the second run there is a time of the first one. -/
theorem exists_shadowed (m : Nat) :
    ∃ n, Shadows removed (callsWithout removed (recorded range host program h) n)
      (recorded range host program h n) (recorded range host (program.without removed) h m) := by
  induction m with
  | zero => exact ⟨0, shadows_start range host program h removed⟩
  | succ m ih =>
    obtain ⟨n, hn⟩ := ih
    exact exists_shadows_succ hremoved answers hn

end

/-- **Output and dumps are only observed.**  A program may lose any of these instructions, in loops of
any depth, if what its host answers does not depend on them: the run without them makes the same
calls but for those of the lost instructions, so that it asks for the same input and polls at the same
places, and it ends if and only if the first run does, with the same outcome and the same tape. -/
theorem recorded_without_agrees (range : CellRange) (host : Host σ) {h : σ}
    (answers : host.AnswersBy Event.asks h) {program : Block} {removed : List Nat → Bool}
    (hremoved : ∀ path, removed path = true →
      ∃ o, program.at? path = some (.op o) ∧ o.observes = true) :
    let run := recorded range host program h
    let run' := recorded range host (program.without removed) h
    (∀ n, ∃ m, (run' m).calls = callsWithout removed run n) ∧
    (∀ m, ∃ n, (run' m).calls = callsWithout removed run n) ∧
    (∀ n, (callsWithout removed run n).filter Event.asks = (run n).calls.filter Event.asks) ∧
    ∀ o tape calls,
      (∃ n t, run n = .ended o tape t ∧ callsWithout removed run n = calls) ↔
        ∃ m t, run' m = .ended o tape t ∧ t.events.toList = calls := by
  intro run run'
  refine ⟨fun n => ?_, fun m => ?_, filter_callsWithout hremoved, fun o tape calls => ⟨?_, ?_⟩⟩
  · obtain ⟨m, hshadows⟩ := exists_shadows hremoved answers n
    exact ⟨m, hshadows.calls_eq⟩
  · obtain ⟨n, hshadows⟩ := exists_shadowed hremoved answers m
    exact ⟨n, hshadows.calls_eq⟩
  · rintro ⟨n, t, hn, rfl⟩
    obtain ⟨m, hshadows⟩ := exists_shadows hremoved answers n
    rw [show recorded range host program h n = _ from hn] at hshadows
    generalize hm : recorded range host (program.without removed) h m = p' at hshadows
    cases hshadows with
    | ended hcalls => exact ⟨m, _, hm, hcalls⟩
  · rintro ⟨m, t, hm, rfl⟩
    obtain ⟨n, hshadows⟩ := exists_shadowed hremoved answers m
    rw [show recorded range host (program.without removed) h m = _ from hm] at hshadows
    generalize hn : recorded range host program h n = p at hshadows
    cases hshadows with
    | ended hcalls => exact ⟨n, _, hn, hcalls.symm⟩

end Machine

/-- The answers of the host with input and output only depend on the input that is left. -/
theorem Bare.answersBy_asks (b : Bare) : Bare.host.AnswersBy Event.asks b := by
  refine Host.answersBy_of_view Bare.input (fun b b' hview => ?_) (fun _ _ _ => rfl)
    (fun b b' e hview => ?_) (fun b e he => ?_) b
  · simp [Bare.host, hview]
  · cases e <;> simp [Host.take, Bare.host, hview]
  · cases e with
    | input answer => cases he
    | output value => rfl
    | dump cells pointer => rfl
    | poll cancel => cases he

namespace Machine

open Progress

/-- The program `,[.>~<-]~.`. -/
def showing : Block :=
  .op .input (.loop (.op .output (.op .right (.op .dump (.op .left (.op .decrement .done)))))
    (.op .dump (.op .output .done)))

/-- Without the output in its loop and the dump behind it, the program shows the tape in the loop and
hands over the last value. -/
theorem recorded_without_agrees_showing :
    let removed (path : List Nat) : Bool := path = [1, 0] || path = [2]
    Bare.host.AnswersBy Event.asks { input := [2] } ∧
      (∀ path, removed path = true →
        ∃ o, showing.at? path = some (.op o) ∧ o.observes = true) ∧
      ∃ m t, recorded .bytes Bare.host (showing.without removed) { input := [2] } m =
          .ended .completed ⟨[], 0, [0]⟩ t ∧
        t.events.toList = [.input (some 2), .dump [2, 0] 1, .poll false, .dump [1, 0] 1, .poll false,
          .output 0, .poll false] := by
  intro removed
  have answers := Bare.answersBy_asks { input := [2] }
  have hremoved : ∀ path, removed path = true →
      ∃ o, showing.at? path = some (.op o) ∧ o.observes = true := by
    intro path hpath
    obtain rfl | rfl : path = [1, 0] ∨ path = [2] := by simpa [removed] using hpath
    · exact ⟨.output, rfl, rfl⟩
    · exact ⟨.dump, rfl, rfl⟩
  refine ⟨answers, hremoved, ?_⟩
  have hends := (recorded_without_agrees .bytes Bare.host answers hremoved).2.2.2
  exact (hends .completed _ _).mp ⟨20, _, rfl, by decide⟩

end Machine
end TapeLang
