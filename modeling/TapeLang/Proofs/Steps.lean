import Mathlib.Data.List.Forall2
import Mathlib.Data.Nat.Init
import TapeLang.Host.Basic
import TapeLang.Machine

/-!
# Runs of any system

A system takes steps against a host: from a state and a host it comes to the next state and host, or
it ends.  `iterate next n` is the run of `n` steps, and the tape machine is one such system
(`runFor_eq_iterate`).

A run that has ended stays as it is (`iterate_of_ended`), and a run may be taken in parts
(`iterate_add`).  Against a host whose calls are written down, a system that makes at most one call
in a step (`CallsOnce`) never takes a call back (`calls_iterate_prefix`) and stops behind every call
for a moment (`exists_calls_iterate_eq_take`): so the calls of a run may be compared without looking
at when they are made.
-/

namespace TapeLang

namespace Progress

variable {σ α β : Type}

def host : Progress σ α β → σ
  | running _ h => h
  | ended _ _ h => h

/-- The calls of a host that a run has made so far. -/
def calls (p : Progress (Traced σ) α β) : List Event := p.host.events.toList

/-- The run that goes on with `f`, unless it is over. -/
def andThen (p : Progress σ α β) (f : α → σ → Progress σ α β) : Progress σ α β :=
  match p with
  | running a h => f a h
  | ended o b h => ended o b h

/-- The run of so many steps, or fewer if it ends before. -/
def iterate (next : α → σ → Progress σ α β) : Nat → α → σ → Progress σ α β
  | 0, a, h => running a h
  | n + 1, a, h => (next a h).andThen (iterate next n)

variable {next : α → σ → Progress σ α β}

theorem iterate_one (a : α) (h : σ) : iterate next 1 a h = next a h := by
  rw [iterate]
  cases next a h <;> rfl

/-- A run may be taken in parts. -/
theorem iterate_add (m n : Nat) (a : α) (h : σ) :
    iterate next (m + n) a h = (iterate next m a h).andThen (iterate next n) := by
  induction m generalizing a h with
  | zero => simp [iterate, andThen]
  | succ m ih =>
    rw [Nat.succ_add, iterate, iterate]
    cases next a h with
    | running a h => exact ih a h
    | ended o b h => rfl

theorem iterate_succ (n : Nat) (a : α) (h : σ) :
    iterate next (n + 1) a h = (iterate next n a h).andThen next := by
  rw [iterate_add]
  congr 1
  funext a h
  exact iterate_one a h

theorem iterate_of_running {m : Nat} {a a' : α} {h h' : σ}
    (hm : iterate next m a h = running a' h') (n : Nat) :
    iterate next (m + n) a h = iterate next n a' h' := by
  rw [iterate_add, hm, andThen]

/-- A run that has ended stays as it is. -/
theorem iterate_of_ended {m n : Nat} {a : α} {h h' : σ} {o : Outcome} {b : β}
    (hm : iterate next m a h = ended o b h') (hmn : m ≤ n) :
    iterate next n a h = ended o b h' := by
  obtain ⟨k, rfl⟩ := Nat.exists_eq_add_of_le hmn
  rw [iterate_add, hm, andThen]

/-- A run ends in one way only. -/
theorem ended_unique {m n : Nat} {a : α} {h h₁ h₂ : σ} {o₁ o₂ : Outcome} {b₁ b₂ : β}
    (hm : iterate next m a h = ended o₁ b₁ h₁) (hn : iterate next n a h = ended o₂ b₂ h₂) :
    o₁ = o₂ ∧ b₁ = b₂ ∧ h₁ = h₂ := by
  -- Both runs have ended after the longer time, and there they are the same run.
  have hm' := iterate_of_ended hm (Nat.le_max_left m n)
  have hn' := iterate_of_ended hn (Nat.le_max_right m n)
  rw [hm'] at hn'
  simpa using hn'

/-! ### Properties of all states -/

/-- The run is over, or its state has the property. -/
def Meets (P : α → Prop) : Progress σ α β → Prop
  | running a _ => P a
  | ended _ _ _ => True

instance (P : α → Prop) [DecidablePred P] (p : Progress σ α β) : Decidable (p.Meets P) :=
  match p with
  | running a _ => inferInstanceAs (Decidable (P a))
  | ended _ _ _ => inferInstanceAs (Decidable True)

/-- Every state that a run comes to has the property. -/
def Always (P : α → Prop) (run : Nat → Progress σ α β) : Prop := ∀ n, (run n).Meets P

theorem Always.imp {P Q : α → Prop} {run : Nat → Progress σ α β} (ha : Always P run)
    (hPQ : ∀ a, P a → Q a) : Always Q run := by
  intro n
  have hn := ha n
  revert hn
  cases run n with
  | running a h => exact hPQ a
  | ended o b h => exact id

theorem always_true (run : Nat → Progress σ α β) : Always (fun _ => True) run := by
  intro n
  cases run n <;> trivial

theorem Always.start {P : α → Prop} {a : α} {h : σ}
    (ha : Always P fun n => iterate next n a h) : P a := ha 0

theorem Always.later {P : α → Prop} {m : Nat} {a a' : α} {h h' : σ}
    (ha : Always P fun n => iterate next n a h) (hm : iterate next m a h = running a' h') :
    Always P fun n => iterate next n a' h' := by
  intro n
  show (iterate next n a' h').Meets P
  rw [← iterate_of_running hm n]
  exact ha (m + n)

/-- Of a run that ends, only the states before its end need to be looked at. -/
theorem always_of_ended {P : α → Prop} {m : Nat} {a : α} {h h' : σ} {o : Outcome} {b : β}
    (hm : iterate next m a h = ended o b h')
    (hbefore : ∀ n < m, (iterate next n a h).Meets P) : Always P fun n => iterate next n a h := by
  intro n
  rcases Nat.lt_or_ge n m with hn | hn
  · exact hbefore n hn
  · simp only [iterate_of_ended hm hn, Meets]

/-! ### The calls of a run -/

variable {next : α → Traced σ → Progress (Traced σ) α β}

/-- A system that makes at most one call of its host in a step. -/
def CallsOnce (next : α → Traced σ → Progress (Traced σ) α β) : Prop :=
  ∀ a t, ∃ new : Option Event, (next a t).calls = t.events.toList ++ new.toList

theorem CallsOnce.iterate_succ (once : CallsOnce next) (n : Nat) (a : α) (t : Traced σ) :
    ∃ new : Option Event,
      (iterate next (n + 1) a t).calls = (iterate next n a t).calls ++ new.toList := by
  rw [Progress.iterate_succ]
  cases iterate next n a t with
  | running a' t' => exact once a' t'
  | ended o b t' => exact ⟨none, by simp [andThen]⟩

/-- No call is taken back. -/
theorem CallsOnce.calls_iterate_prefix (once : CallsOnce next) {m n : Nat} (hmn : m ≤ n) (a : α)
    (t : Traced σ) : (iterate next m a t).calls <+: (iterate next n a t).calls := by
  induction n, hmn using Nat.le_induction with
  | base => exact List.prefix_rfl
  | succ n _ ih =>
    obtain ⟨new, hnew⟩ := once.iterate_succ n a t
    rw [hnew]
    exact ih.trans (List.prefix_append _ _)

/-- All calls of a run are among those it has made when it ends. -/
theorem CallsOnce.calls_prefix_of_ended (once : CallsOnce next) {n : Nat} {a : α} {t t' : Traced σ}
    {o : Outcome} {b : β} (hn : iterate next n a t = ended o b t') (m : Nat) :
    (iterate next m a t).calls <+: t'.events.toList := by
  have hpre := once.calls_iterate_prefix (Nat.le_max_left m n) a t
  rw [iterate_of_ended hn (Nat.le_max_right m n)] at hpre
  exact hpre

/-- **A run passes every number of calls**: for each first part of its calls there is a time at
which it has made these and no others. -/
theorem CallsOnce.exists_calls_iterate_eq_take (once : CallsOnce next) (a : α) {t : Traced σ}
    (ht : t.events = #[]) (n k : Nat) :
    ∃ m, (iterate next m a t).calls = (iterate next n a t).calls.take k := by
  induction n with
  | zero => exact ⟨0, by simp [iterate, calls, host, ht]⟩
  | succ n ih =>
    obtain ⟨new, hnew⟩ := once.iterate_succ n a t
    -- The last step adds one call at most, and so `k` is reached before it or by it.
    by_cases hk : k ≤ (iterate next n a t).calls.length
    · obtain ⟨m, hm⟩ := ih
      exact ⟨m, by rw [hm, hnew, List.take_append_of_le_length hk]⟩
    · refine ⟨n + 1, (List.take_of_length_le ?_).symm⟩
      rw [hnew, List.length_append]
      cases new <;> simp <;> omega

end Progress

/-! ### The tape machine -/

namespace Machine

variable {σ : Type} {range : CellRange} {host : Host σ}

/-- The tape machine is a system. -/
theorem runFor_eq_iterate (n : Nat) (s : State) (h : σ) :
    runFor range host n s h = Progress.iterate (advance range host) n s h := by
  induction n generalizing s h with
  | zero => rfl
  | succ n ih =>
    rw [runFor, Progress.iterate]
    cases advance range host s h with
    | running s h => exact ih s h
    | ended o tape h => rfl

/-- The tape machine calls its host at most once in a step. -/
theorem callsOnce_advance : Progress.CallsOnce (advance range host.traced) := by
  intro s t
  unfold advance
  cases s.step range with
  | halt => exact ⟨none, by simp [Progress.calls, Progress.host]⟩
  | silent next => exact ⟨none, by simp [Progress.calls, Progress.host]⟩
  | output v next => exact ⟨some (.output v), by simp [Progress.calls, Progress.host, Host.traced]⟩
  | dump next =>
    exact ⟨some (.dump s.tape.cells s.tape.pointer),
      by simp [Progress.calls, Progress.host, Host.traced]⟩
  | input next =>
    refine ⟨some (.input (host.input t.host).1), ?_⟩
    rcases hin : host.input t.host with ⟨_ | b, h⟩ <;>
      simp [hin, Progress.calls, Progress.host, Host.traced]
  | poll next =>
    refine ⟨some (.poll (host.poll t.host).1), ?_⟩
    rcases hpoll : host.poll t.host with ⟨_ | _, h⟩ <;>
      simp [hpoll, Progress.calls, Progress.host, Host.traced]

/-- The run of a program with its calls written down, after so many steps. -/
def recorded (range : CellRange) (host : Host σ) (program : Block) (h : σ) (steps : Nat) :
    Progress (Traced σ) :=
  run range host.traced steps program { host := h }

/-- A recorded run is a run of a system. -/
theorem recorded_eq_iterate (program : Block) (h : σ) :
    recorded range host program h =
      fun n => Progress.iterate (advance range host.traced) n (.start program) { host := h } :=
  funext fun n => runFor_eq_iterate n _ _

end Machine
end TapeLang
