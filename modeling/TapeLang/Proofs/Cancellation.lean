import TapeLang.Host.Buffered
import TapeLang.Host.Schedule
import TapeLang.Proofs.Nodes

/-!
# Stopping a run

A host stops a run by an answer: no byte to a request for input, or yes to a poll.  Such an answer
ends the run with the call it is an answer to (`Unstopped.of_cancels`), and a run that completes had
none and has polled once more at its end (`polledAtEnd_of_completed`).

A run that is not stopped may go on for ever, but not without polls.  Between two polls no
instruction is executed twice (`exists_poll_between`), and so a run makes at most as many steps
between them as the program has instructions (`length_executed_add_ahead_le`).

Main statement: `recorded_stops`.
-/

namespace TapeLang

variable {σ : Type}

namespace Event

/-- The answer to the call stops the run. -/
def cancels : Event → Bool
  | input answer => answer.isNone
  | output _ => false
  | dump _ _ => false
  | poll cancel => cancel

/-- The answer to the call, if it is a poll. -/
def pollAnswer? : Event → Option Bool
  | input _ => none
  | output _ => none
  | dump _ _ => none
  | poll cancel => some cancel

/-- The byte that the call is answered, if it is. -/
def byte? : Event → Option UInt8
  | input answer => answer
  | output _ => none
  | dump _ _ => none
  | poll _ => none

end Event

namespace Progress

/-- The instruction that a run executes next; none at the end of a block and of the run. -/
def next? : Progress σ State Tape → Option Block.Instruction
  | running s _ => s.next?
  | ended _ _ _ => none

/-- The node that a run executes next. -/
def node? : Progress σ State Tape → Option (List Nat)
  | running s _ => s.node?
  | ended _ _ _ => none

/-- The nodes that a run has executed in so many steps, in order. -/
def executed (run : Nat → Progress σ State Tape) (n : Nat) : List (List Nat) :=
  (List.range n).filterMap fun m => (run m).node?

/-- The answers to the polls of a run, in order. -/
def pollAnswers (p : Progress (Traced σ) State Tape) : List Bool :=
  p.calls.filterMap Event.pollAnswer?

/-- How many nodes lie ahead of a run. -/
def ahead : Progress σ State Tape → Nat
  | running s _ => remaining s.frames
  | ended _ _ _ => 0

theorem length_executed_succ (run : Nat → Progress σ State Tape) (n : Nat) :
    (executed run (n + 1)).length = (executed run n).length + (run n).node?.toList.length := by
  rw [executed, List.range_succ, List.filterMap_append, List.length_append, executed]
  cases h : (run n).node? <;> simp [h]

end Progress

namespace Machine

open Progress

variable {range : CellRange} {host : Host σ} {program : Block} {h : σ}

/-! ### No instruction twice between two polls -/

/-- The node that a run executes next is a node of the program. -/
theorem at?_of_node? {n : Nat} {path : List Nat}
    (hnode : (recorded range host program h n).node? = some path) :
    program.at? path = (recorded range host program h n).next? := by
  cases hrun : recorded range host program h n with
  | running s t =>
    rw [hrun] at hnode
    exact (nested_recorded hrun).at?_position hnode
  | ended o tape t =>
    rw [hrun] at hnode
    cases hnode

/-- From an instruction on, a run goes on in the order of paths until it polls its host. -/
theorem position_lt_or_exists_poll {i j : Nat} {s s' : State} {t t' : Traced σ}
    (hi : recorded range host program h i = .running s t) (hnext : s.next? ≠ none) (hij : i < j)
    (hj : recorded range host program h j = .running s' t') :
    s.position < s'.position ∨ ∃ m answer, i < m ∧ m < j ∧
      (recorded range host program h (m + 1)).calls =
        (recorded range host program h m).calls ++ [.poll answer] := by
  -- The induction is on the steps taken since. Once there was a poll, it is between the two states
  -- for good.
  induction j, hij using Nat.le_induction generalizing s' t' with
  | base =>
    obtain ⟨call, hgoes, _⟩ := goes_recorded hi hj
    exact .inl (hgoes.position_lt (nested_recorded hi) hnext)
  | succ j hij ih =>
    obtain ⟨s₁, t₁, hj₁⟩ := exists_running_of_succ hj
    obtain ⟨call, hgoes, hcalls⟩ := goes_recorded hj₁ hj
    rcases ih hj₁ with hlt | ⟨m, answer, him, hmj, hm⟩
    · by_cases hnext₁ : s₁.next? = none
      · -- At the end of a block the step is a poll.
        rw [hgoes.call_eq_of_next?_eq_none hnext₁] at hcalls
        refine .inr ⟨j, false, hij, Nat.lt_succ_self j, ?_⟩
        rw [hj, hj₁]
        exact hcalls
      · exact .inl (List.lt_trans hlt (hgoes.position_lt (nested_recorded hj₁) hnext₁))
    · exact .inr ⟨m, answer, him, Nat.lt_succ_of_lt hmj, hm⟩

theorem exists_running_of_node? {n : Nat} {path : List Nat}
    (hnode : (recorded range host program h n).node? = some path) :
    ∃ s t, recorded range host program h n = .running s t ∧ s.next? ≠ none ∧ s.position = path := by
  cases hrun : recorded range host program h n with
  | running s t =>
    rw [hrun] at hnode
    obtain ⟨i, hi, hpath⟩ := Option.map_eq_some_iff.mp hnode
    exact ⟨s, t, rfl, by simp [hi], hpath⟩
  | ended o tape t =>
    rw [hrun] at hnode
    cases hnode

/-- No instruction is executed twice without a poll in between. -/
theorem exists_poll_between {i j : Nat} {path : List Nat} (hij : i < j)
    (hi : (recorded range host program h i).node? = some path)
    (hj : (recorded range host program h j).node? = some path) :
    ∃ m answer, i < m ∧ m < j ∧ (recorded range host program h (m + 1)).calls =
      (recorded range host program h m).calls ++ [.poll answer] := by
  obtain ⟨s, t, hs, hnext, hposition⟩ := exists_running_of_node? hi
  obtain ⟨s', t', hs', _, hposition'⟩ := exists_running_of_node? hj
  refine (position_lt_or_exists_poll hs hnext hij hs').resolve_left ?_
  rw [hposition, hposition']
  exact List.lt_irrefl path

/-! ### How many instructions are executed -/

/-- A turn answers at most one poll, with no; it does not if an instruction is executed. -/
theorem pollAnswers_goes {s s' : State} {t t' : Traced σ} {call : Option Event}
    (hgoes : Goes range s call s')
    (hcalls : t'.events.toList = t.events.toList ++ call.toList) :
    (running s' t').pollAnswers =
      (running s t).pollAnswers ++ if s.next? = none then [false] else [] := by
  have happend : (running s' t').pollAnswers =
      (running s t).pollAnswers ++ call.toList.filterMap Event.pollAnswer? := by
    rw [pollAnswers, pollAnswers, ← List.filterMap_append]
    exact congrArg _ hcalls
  rw [happend]
  congr 1
  cases hgoes with
  | op hdoes => cases hdoes <;> rfl
  | skip _ => rfl
  | enter _ => rfl
  | again _ => rfl
  | leave _ => rfl

theorem length_node?_running (s : State) (t : Traced σ) :
    (running s t : Progress (Traced σ)).node?.toList.length = if s.next? = none then 0 else 1 := by
  show s.node?.toList.length = _
  unfold State.node?
  cases s.next? <;> simp

/-- **An entry of the program executes each of its instructions at most once**: what a run has
executed and what lies ahead of it is no more than one entry, and one more for each poll that was
answered with no. -/
theorem length_executed_add_ahead_le (range : CellRange) (host : Host σ) (program : Block) (h : σ)
    (n : Nat) :
    (executed (recorded range host program h) n).length + (recorded range host program h n).ahead ≤
      program.size * ((recorded range host program h n).pollAnswers.count false + 1) := by
  -- An entry of the program may execute all of it. What is executed lies ahead no more; only a poll
  -- makes anything lie ahead again.
  refine recorded_induction
    (P := fun n p => (executed (recorded range host program h) n).length + p.ahead ≤
      program.size * (p.pollAnswers.count false + 1)) ?_ ?_ n
  · simp [executed, ahead, remaining, Frame.start, State.start, pollAnswers, calls, Progress.host]
  intro n p p' hp hp' hle hturn
  rw [length_executed_succ, hp]
  cases hturn with
  | @goes s s' t t' call hgoes hcalls =>
    rw [pollAnswers_goes hgoes hcalls, List.count_append, length_node?_running]
    simp only [ahead] at hle ⊢
    by_cases hnext : s.next? = none
    · -- A poll that is answered with no may start a loop anew, but no more than the program.
      have hahead := (nested_recorded hp').remaining_le
      rw [if_pos hnext, if_pos hnext, List.count_singleton_self, Nat.mul_succ]
      omega
    · have hahead := hgoes.remaining_lt hnext
      simp only [hnext, if_false, List.count_nil, Nat.add_zero]
      omega
  -- The step that ends a run may execute an instruction too, namely a request that has no answer;
  -- this one still lay ahead.
  | @stops s t t' call o hstops hcalls =>
    have hcount : (running s t : Progress (Traced σ)).pollAnswers.count false ≤
        (ended o s.tape t' : Progress (Traced σ)).pollAnswers.count false := by
      have hsublist : t.events.toList.Sublist t'.events.toList :=
        hcalls ▸ List.sublist_append_left _ _
      exact (hsublist.filterMap _).count_le false
    have hmul := Nat.mul_le_mul_left program.size (Nat.add_le_add_right hcount 1)
    rw [length_node?_running]
    simp only [ahead] at hle ⊢
    by_cases hnext : s.next? = none
    · rw [if_pos hnext]
      omega
    · have hahead := remaining_pos_of_next? hnext
      rw [if_neg hnext]
      omega
  | rests => exact hle

/-- A run that goes on has executed an instruction or polled its host in each step. -/
theorem length_executed_add_count {n : Nat} {s : State} {t : Traced σ}
    (hn : recorded range host program h n = .running s t) :
    (executed (recorded range host program h) n).length +
      (recorded range host program h n).pollAnswers.count false = n := by
  induction n generalizing s t with
  | zero => rfl
  | succ n ih =>
    obtain ⟨s₁, t₁, hn₁⟩ := exists_running_of_succ hn
    obtain ⟨call, hgoes, hcalls⟩ := goes_recorded hn₁ hn
    have hlength := ih hn₁
    rw [hn₁] at hlength
    rw [length_executed_succ, hn, hn₁, pollAnswers_goes hgoes hcalls, List.count_append,
      length_node?_running]
    by_cases hnext : s₁.next? = none
    · rw [if_pos hnext, if_pos hnext, List.count_singleton_self]
      omega
    · rw [if_neg hnext, if_neg hnext, List.count_nil]
      omega

/-- A host that answers yes from its `k`-th poll on ends the run before it has executed more
than `k` times the instructions of the program. -/
theorem exists_ended_of_pollAnswers {k : Nat} (hk : 0 < k)
    (hyes : ∀ n, ∀ answer ∈ (recorded range host program h n).pollAnswers.drop (k - 1),
      answer = true) :
    ∃ n o tape t, recorded range host program h n = .ended o tape t ∧
      (executed (recorded range host program h) n).length ≤ k * program.size := by
  -- No more than `k - 1` polls are answered with no.
  have hcount (n : Nat) : (recorded range host program h n).pollAnswers.count false ≤ k - 1 := by
    have hdrop : ((recorded range host program h n).pollAnswers.drop (k - 1)).count false = 0 :=
      List.count_eq_zero.mpr fun hmem => by cases hyes n _ hmem
    rw [← List.take_append_drop (k - 1) (recorded range host program h n).pollAnswers,
      List.count_append, hdrop, Nat.add_zero]
    exact Nat.le_trans List.count_le_length (List.length_take_le _ _)
  have hexecuted (n : Nat) :
      (executed (recorded range host program h) n).length ≤ k * program.size := by
    have hle := length_executed_add_ahead_le range host program h n
    have hmul : program.size * ((recorded range host program h n).pollAnswers.count false + 1) ≤
        program.size * k := Nat.mul_le_mul_left _ (by have := hcount n; omega)
    rw [Nat.mul_comm k]
    omega
  -- A run of `k * program.size + k` steps that goes on would have executed more than that many
  -- instructions, since fewer than `k` steps are polls.
  cases hrun : recorded range host program h (k * program.size + k) with
  | ended o tape t => exact ⟨_, o, tape, t, hrun, hexecuted _⟩
  | running s t =>
    have hsum := length_executed_add_count hrun
    have hle := hexecuted (k * program.size + k)
    have hno := hcount (k * program.size + k)
    omega

/-! ### How a run is stopped -/

/-- No answer so far stops the run, unless it is cancelled, and then the last one does. -/
def Unstopped : Progress (Traced σ) → Prop
  | .running _ t => ∀ e ∈ t.events.toList, e.cancels = false
  | .ended .completed _ t => ∀ e ∈ t.events.toList, e.cancels = false
  | .ended .cancelled _ t => ∃ before last, t.events.toList = before ++ [last] ∧
      last.cancels = true ∧ ∀ e ∈ before, e.cancels = false

theorem cancels_goes {s s' : State} {call : Option Event} (hgoes : Goes range s call s') :
    ∀ e ∈ call.toList, e.cancels = false := by
  cases hgoes with
  | op hdoes => cases hdoes <;> simp [Event.cancels]
  | skip _ => simp
  | enter _ => simp
  | again _ => simp [Event.cancels]
  | leave _ => simp [Event.cancels]

theorem unstopped_recorded (range : CellRange) (host : Host σ) (program : Block) (h : σ) (n : Nat) :
    Unstopped (recorded range host program h n) := by
  refine recorded_induction (P := fun _ p => Unstopped p) ?_ ?_ n
  · simp [Unstopped]
  intro n p p' _ _ hp hturn
  -- A step that goes on was not told otherwise by its call, and the call of one that stops is its
  -- last.
  cases hturn with
  | goes hgoes hcalls =>
    rw [Unstopped, hcalls]
    exact List.forall_mem_append.mpr ⟨hp, cancels_goes hgoes⟩
  | stops hstops hcalls =>
    cases hstops with
    | completed =>
      rw [Unstopped, hcalls, Option.toList_none, List.append_nil]
      exact hp
    | unanswered => exact ⟨_, _, hcalls, rfl, hp⟩
    | polled => exact ⟨_, _, hcalls, rfl, hp⟩
  | rests => exact hp

/-- **The call that stops a run is its last one**, and the run is cancelled with it. -/
theorem Unstopped.of_cancels {p : Progress (Traced σ)} (hp : Unstopped p)
    {before after : List Event} {e : Event} (hcalls : p.calls = before ++ e :: after)
    (he : e.cancels = true) : after = [] ∧ ∃ tape t, p = .ended .cancelled tape t := by
  have hmem : e ∈ p.calls := by
    rw [hcalls]
    exact List.mem_append_right before List.mem_cons_self
  have hnot {l : List Event} (hl : ∀ e' ∈ l, e'.cancels = false) : e ∉ l := by
    intro hel
    rw [hl e hel] at he
    cases he
  cases p with
  | running s t => exact absurd hmem (hnot hp)
  | ended o tape t =>
    cases o with
    | completed => exact absurd hmem (hnot hp)
    | cancelled =>
      obtain ⟨front, last, hlast, _, hfront⟩ := hp
      refine ⟨?_, tape, t, rfl⟩
      rcases after.eq_nil_or_concat with hnil | ⟨middle, final, rfl⟩
      · exact hnil
      · -- A call behind `e` would make it one of those before the last.
        have hsplit : (before ++ e :: middle) ++ [final] = front ++ [last] := by
          rw [List.append_assoc, List.cons_append, ← List.concat_eq_append, ← hcalls]
          exact hlast
        have hbefore := (List.append_inj' hsplit rfl).1
        refine absurd ?_ (hnot hfront)
        rw [← hbefore]
        exact List.mem_append_right before List.mem_cons_self

/-- The program has come to its end, and the host was polled there. -/
def PolledAtEnd (run : Nat → Progress (Traced σ) State Tape) (program : Block)
    (calls : List Event) : Prop :=
  ∃ m s t, run m = .running s t ∧ s.frames = [⟨program, .done⟩] ∧
    calls = t.events.toList ++ [.poll false]

/-- A run without frames has polled its host at the end of the program. -/
theorem polledAtEnd_of_frames {n : Nat} {s : State} {t : Traced σ}
    (hn : recorded range host program h n = .running s t) (hframes : s.frames = []) :
    PolledAtEnd (recorded range host program h) program t.events.toList := by
  cases n with
  | zero =>
    cases hn
    cases hframes
  | succ n =>
    obtain ⟨s₁, t₁, hn₁⟩ := exists_running_of_succ hn
    obtain ⟨call, hgoes, hcalls⟩ := goes_recorded hn₁ hn
    have hnested := nested_recorded hn₁
    refine ⟨n, s₁, t₁, hn₁, ?_⟩
    -- Only to leave the last block leaves no frames, and this one is the program.
    cases hgoes with
    | op _ => cases hframes
    | skip _ => cases hframes
    | enter _ => cases hframes
    | again _ => cases hframes
    | leave _ =>
      dsimp only at hframes hnested ⊢
      subst hframes
      obtain rfl := hnested.bottom _ rfl
      exact ⟨rfl, hcalls⟩

/-- A run completes behind the last poll, the one at the end of the program. -/
theorem polledAtEnd_of_completed {n : Nat} {tape : Tape} {t : Traced σ}
    (hn : recorded range host program h n = .ended .completed tape t) :
    PolledAtEnd (recorded range host program h) program t.events.toList := by
  revert tape t
  refine recorded_induction
    (P := fun _ p => ∀ {tape t}, p = .ended .completed tape t →
      PolledAtEnd (recorded range host program h) program t.events.toList)
    (fun h => by cases h) ?_ n
  rintro n p p' hp _ hpolled hturn tape t rfl
  cases hturn with
  | stops hstops hcalls =>
    cases hstops
    rw [hcalls, Option.toList_none, List.append_nil]
    exact polledAtEnd_of_frames hp rfl
  | rests => exact hpolled rfl

/-- A run that is not told to go on any more is cancelled, if it has not been told so by its
last call. -/
theorem exists_cancelled_of_stops {front : List Event} {n : Nat}
    (hfront : front <+: (recorded range host program h n).calls)
    (hlast : front.getLast? ≠ some (.poll false))
    (hstops : ∀ m after, (recorded range host program h m).calls = front ++ after →
      ∀ e ∈ after, e.pollAnswer? ≠ some false) :
    ∃ m tape t, recorded range host program h m = .ended .cancelled tape t := by
  -- Only the polls of the first part are answered with no.
  have hyes (m : Nat) : ∀ answer ∈ (recorded range host program h m).pollAnswers.drop
      (front.filterMap Event.pollAnswer?).length, answer = true := by
    intro answer hanswer
    obtain ⟨after, hafter⟩ := hfront.trans (calls_recorded_of_le (Nat.le_max_left n m))
    have hpolls : (recorded range host program h m).pollAnswers <+:
        front.filterMap Event.pollAnswer? ++ after.filterMap Event.pollAnswer? := by
      rw [← List.filterMap_append, hafter]
      exact (calls_recorded_of_le (Nat.le_max_right n m)).filterMap _
    have hmem := (hpolls.sublist.drop (front.filterMap Event.pollAnswer?).length).subset hanswer
    rw [List.drop_left, List.mem_filterMap] at hmem
    obtain ⟨e, he, hpoll⟩ := hmem
    have hne := hstops _ after hafter.symm e he
    cases answer with
    | true => rfl
    | false => exact absurd hpoll hne
  -- The polls behind the first part are answered with yes, and so the run ends; it remains to rule
  -- out that it completes.
  obtain ⟨m, o, tape, t, hm, -⟩ := exists_ended_of_pollAnswers (Nat.succ_pos _) hyes
  cases o with
  | cancelled => exact ⟨m, tape, t, hm⟩
  | completed =>
    -- A completed run was told to go on by its last call.
    obtain ⟨_, _, t', _, _, hpolled⟩ := polledAtEnd_of_completed hm
    have hm' := recorded_of_ended hm (Nat.le_max_right n m)
    obtain ⟨after, hafter⟩ := hfront.trans (calls_recorded_of_le (Nat.le_max_left n m))
    have hcalls : front ++ after = t'.events.toList ++ [.poll false] := by
      rw [hafter, hm', ← hpolled]
      rfl
    rcases after.eq_nil_or_concat' with rfl | ⟨middle, last, rfl⟩
    · rw [List.append_nil] at hcalls
      exact absurd (by rw [hcalls, List.getLast?_concat]) hlast
    · rw [← List.append_assoc] at hcalls
      obtain rfl := List.singleton_inj.mp (List.append_inj' hcalls rfl).2
      exact absurd rfl (hstops _ _ hafter.symm (.poll false) (by simp))

/-- **A run can be stopped, and only by its host.**  What a run executes are nodes of the program,
none of them twice without a poll in between; so a host that answers yes from its `k`-th poll on
ends any run before it has executed more than `k` times as many instructions as the program has.
The answer that stops a run, no byte or yes, is that of its last call, and the run is cancelled.  A
run completes only if no answer stopped it, and behind one last poll at the end of the program. -/
theorem recorded_stops (range : CellRange) (host : Host σ) (program : Block) (h : σ) :
    let run := recorded range host program h
    (∀ n path, (run n).node? = some path → program.at? path = (run n).next?) ∧
    (∀ i j path, i < j → (run i).node? = some path → (run j).node? = some path →
      ∃ m answer, i < m ∧ m < j ∧ (run (m + 1)).calls = (run m).calls ++ [.poll answer]) ∧
    (∀ k, 0 < k → (∀ n, ∀ answer ∈ (run n).pollAnswers.drop (k - 1), answer = true) →
      ∃ n o tape t, run n = .ended o tape t ∧ (executed run n).length ≤ k * program.size) ∧
    (∀ n before e after, (run n).calls = before ++ e :: after → e.cancels = true →
      after = [] ∧ ∃ tape t, run n = .ended .cancelled tape t) ∧
    ∀ n tape t, run n = .ended .completed tape t →
      (∀ e ∈ t.events.toList, e.cancels = false) ∧
      ∃ m s t', run m = .running s t' ∧ s.frames = [⟨program, .done⟩] ∧
        t.events.toList = t'.events.toList ++ [.poll false] := by
  refine ⟨fun n path => at?_of_node?, fun i j path => exists_poll_between,
    fun k => exists_ended_of_pollAnswers,
    fun n before e after => (unstopped_recorded range host program h n).of_cancels,
    fun n tape t hn => ⟨?_, polledAtEnd_of_completed hn⟩⟩
  have hunstopped := unstopped_recorded range host program h n
  rw [hn] at hunstopped
  exact hunstopped

/-- The program `+[.]` never ends by itself.  Its host answers yes from the second poll on. -/
theorem recorded_stops_endless :
    let run := recorded .bytes (Buffered.host.scheduled Buffered.stop { pollLimit := some 1 })
      (.op .increment (.loop (.op .output .done) .done)) { host := {} }
    (∀ n, ∀ answer ∈ (run n).pollAnswers.drop (2 - 1), answer = true) ∧
      (∃ tape t, run 6 = .ended .cancelled tape t) ∧ (executed run 6).length = 4 ∧
      ∃ n o tape t, run n = .ended o tape t ∧ (executed run n).length ≤ 2 * 3 := by
  intro run
  have hended : ∃ tape t, run 6 = .ended .cancelled tape t := ⟨_, _, rfl⟩
  have hyes (n : Nat) : ∀ answer ∈ (run n).pollAnswers.drop (2 - 1), answer = true := by
    rcases Nat.lt_or_ge n 6 with hn | hn
    · revert n
      decide
    · obtain ⟨tape, t, hsix⟩ := hended
      rw [show run n = run 6 by rw [hsix]; exact recorded_of_ended hsix hn]
      decide
  exact ⟨hyes, hended, by decide, (recorded_stops .bytes _ _ _).2.2.1 2 (by decide) hyes⟩

end Machine
end TapeLang
