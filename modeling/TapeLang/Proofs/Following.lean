import TapeLang.Proofs.Execution

/-!
# Systems that do what an execution says

`Follows` says that a system that goes step by step, such as a machine with a stack or one with a
program counter, does for a block what an execution says, and `Performs` says so for a whole
program.  Of an unfinished execution it asks only that the system still goes on after as many steps
as the limit.

A system that performs the executions of a program for every limit ends as one of them does and in
no other way (`Performs.exists_result`).  Two systems whose executions are related for every limit
make related calls, whether they end or not (`exists_calls_related`), and so they agree
(`agree_of_related`).
-/

namespace TapeLang

variable {σ τ : Type}

namespace Progress

variable {α β : Type} {next : α → σ → Progress σ α β} {leaves : Tape → β → Prop}

/-- The run of a system from a state and a host does what a result says: it comes to a `goal`, or is
cancelled with a memory that shows the tape, or still goes on after `bound` steps. -/
def Follows (next : α → σ → Progress σ α β) (leaves : Tape → β → Prop) (goal : Tape → α → Prop)
    (bound : Nat) (a : α) (h : σ) : Result σ → Prop
  | .finished t h' => ∃ n a', iterate next n a h = running a' h' ∧ goal t a'
  | .cancelled t h' => ∃ n b, iterate next n a h = ended .cancelled b h' ∧ leaves t b
  | .unfinished _ h' => ∃ n a', bound ≤ n ∧ iterate next n a h = running a' h'

/-- The whole run of a system does what the result of a program says: it ends in the same way, or
still goes on after `bound` steps. -/
def Performs (next : α → σ → Progress σ α β) (leaves : Tape → β → Prop) (bound : Nat) (a : α)
    (h : σ) : Result σ → Prop
  | .finished t h' => ∃ n b, iterate next n a h = ended .completed b h' ∧ leaves t b
  | .cancelled t h' => ∃ n b, iterate next n a h = ended .cancelled b h' ∧ leaves t b
  | .unfinished _ h' => ∃ n a', bound ≤ n ∧ iterate next n a h = running a' h'

variable {goal mid : Tape → α → Prop} {bound : Nat} {a a' : α} {h h' : σ} {r : Result σ}

theorem follows_finished {t : Tape} (hgoal : goal t a) :
    Follows next leaves goal bound a h (.finished t h) :=
  ⟨0, a, rfl, hgoal⟩

theorem follows_step {t : Tape} (hnext : next a h = running a' h') (hgoal : goal t a') :
    Follows next leaves goal bound a h (.finished t h') :=
  ⟨1, a', by rw [iterate_one, hnext], hgoal⟩

theorem follows_cancelled {t : Tape} {b : β} (hnext : next a h = ended .cancelled b h')
    (hleaves : leaves t b) : Follows next leaves goal bound a h (.cancelled t h') :=
  ⟨1, b, by rw [iterate_one, hnext], hleaves⟩

/-- Steps taken before count towards the bound. -/
theorem Follows.after {m : Nat} (hm : iterate next m a h = running a' h')
    (hr : Follows next leaves goal bound a' h' r) :
    Follows next leaves goal (bound + m) a h r := by
  have hiter (n : Nat) : iterate next (m + n) a h = iterate next n a' h' := iterate_of_running hm n
  -- Only an execution that is cut short speaks of the bound, which has to cover the first steps.
  cases r with
  | finished t h'' =>
    obtain ⟨n, a'', hn, hgoal⟩ := hr
    exact ⟨m + n, a'', by rw [hiter, hn], hgoal⟩
  | cancelled t h'' =>
    obtain ⟨n, b, hn, hleaves⟩ := hr
    exact ⟨m + n, b, by rw [hiter, hn], hleaves⟩
  | unfinished t h'' =>
    obtain ⟨n, a'', hbound, hn⟩ := hr
    exact ⟨m + n, a'', by omega, by rw [hiter, hn]⟩

theorem Follows.step (hnext : next a h = running a' h')
    (hr : Follows next leaves goal bound a' h' r) :
    Follows next leaves goal (bound + 1) a h r := by
  have hone : iterate next 1 a h = running a' h' := by rw [iterate_one, hnext]
  exact hr.after hone

theorem Follows.mono {lower : Nat} (hle : lower ≤ bound)
    (hr : Follows next leaves goal bound a h r) : Follows next leaves goal lower a h r := by
  cases r with
  | finished t h' => exact hr
  | cancelled t h' => exact hr
  | unfinished t h' =>
    obtain ⟨n, a', hbound, hn⟩ := hr
    exact ⟨n, a', Nat.le_trans hle hbound, hn⟩

/-- One part after the other. -/
theorem Follows.andThen {f : Tape → σ → Result σ} (hr : Follows next leaves mid bound a h r)
    (hf : ∀ t a' h', r = .finished t h' → mid t a' →
      Follows next leaves goal bound a' h' (f t h')) :
    Follows next leaves goal bound a h (r.andThen f) := by
  -- Unless the first part finishes, the second one is not executed.
  cases r with
  | cancelled t h' => exact hr
  | unfinished t h' => exact hr
  | finished t h' =>
    obtain ⟨m, a', hm, hmid⟩ := hr
    exact ((hf t a' h' rfl hmid).after hm).mono (Nat.le_add_right bound m)

/-- What holds of all states from the start on holds of all states from the goal on. -/
theorem Follows.always {P : α → Prop} {place : Tape → α} {t : Tape}
    (hr : Follows next leaves (fun t a => a = place t) bound a h r) (heq : r = .finished t h')
    (ha : Always P fun n => iterate next n a h) :
    Always P fun n => iterate next n (place t) h' := by
  subst heq
  obtain ⟨n, a', hn, rfl⟩ := hr
  exact ha.later hn

theorem Performs.after {m : Nat} (hm : iterate next m a h = running a' h')
    (hp : Performs next leaves bound a' h' r) : Performs next leaves bound a h r := by
  have hiter (n : Nat) : iterate next (m + n) a h = iterate next n a' h' := iterate_of_running hm n
  -- As for `Follows.after`, but here it is enough that the run reaches the bound.
  cases r with
  | finished t h'' =>
    obtain ⟨n, b, hn, hleaves⟩ := hp
    exact ⟨m + n, b, by rw [hiter, hn], hleaves⟩
  | cancelled t h'' =>
    obtain ⟨n, b, hn, hleaves⟩ := hp
    exact ⟨m + n, b, by rw [hiter, hn], hleaves⟩
  | unfinished t h'' =>
    obtain ⟨n, a'', hbound, hn⟩ := hp
    exact ⟨m + n, a'', by omega, by rw [hiter, hn]⟩

/-- A run that follows an execution performs it, if it ends behind the goal. -/
theorem Follows.performs {f : Tape → σ → Result σ} (hr : Follows next leaves mid bound a h r)
    (hf : ∀ t a' h', mid t a' → Performs next leaves bound a' h' (f t h')) :
    Performs next leaves bound a h (r.andThen f) := by
  cases r with
  | cancelled t h' => exact hr
  | unfinished t h' => exact hr
  | finished t h' =>
    obtain ⟨m, a', hm, hmid⟩ := hr
    exact (hf t a' h' hmid).after hm

/-! ### How a run ends -/

/-- A result of a program with an outcome is a run with that outcome. -/
theorem Performs.exists_iterate {o : Outcome} {t : Tape}
    (hp : Performs next leaves bound a h (o.result t h')) :
    ∃ n b, iterate next n a h = ended o b h' ∧ leaves t b := by
  cases o <;> exact hp

/-- **A run that ends is the execution with its length as the limit.** -/
theorem Performs.exists_result {n : Nat} {o : Outcome} {b : β}
    (hp : Performs next leaves n a h r) (hn : iterate next n a h = ended o b h') :
    ∃ t, r = o.result t h' ∧ leaves t b := by
  cases r with
  | finished t h₁ =>
    obtain ⟨m, b₁, hm, hleaves⟩ := hp
    obtain ⟨rfl, rfl, rfl⟩ := ended_unique hm hn
    exact ⟨t, rfl, hleaves⟩
  | cancelled t h₁ =>
    obtain ⟨m, b₁, hm, hleaves⟩ := hp
    obtain ⟨rfl, rfl, rfl⟩ := ended_unique hm hn
    exact ⟨t, rfl, hleaves⟩
  | unfinished t h₁ =>
    -- A run that has ended after `n` steps does not go on after as many or more.
    obtain ⟨m, a₁, hle, hm⟩ := hp
    rw [iterate_of_ended hn hle] at hm
    cases hm

end Progress

/-! ### Two systems -/

namespace Result

/-- Two executions come to the same end, with tapes and hosts that are related. -/
inductive Related (R : Tape → σ → Tape → τ → Prop) : Result σ → Result τ → Prop
  | finished {t h t' h'} (hR : R t h t' h') : Related R (.finished t h) (.finished t' h')
  | cancelled {t h t' h'} (hR : R t h t' h') : Related R (.cancelled t h) (.cancelled t' h')
  | unfinished {t h t' h'} (hR : R t h t' h') : Related R (.unfinished t h) (.unfinished t' h')

namespace Related

variable {ρ : Type} {R : Tape → σ → Tape → τ → Prop} {r : Result σ} {r' : Result τ}

theorem refl {R : Tape → σ → Tape → σ → Prop} (r : Result σ) (hR : ∀ t h, R t h t h) :
    Related R r r := by
  cases r with
  | finished t h => exact finished (hR t h)
  | cancelled t h => exact cancelled (hR t h)
  | unfinished t h => exact unfinished (hR t h)

theorem andThen {f : Tape → σ → Result σ} {f' : Tape → τ → Result τ} (hr : Related R r r')
    (hf : ∀ t h t' h', r = .finished t h → r' = .finished t' h' → R t h t' h' →
      Related R (f t h) (f' t' h')) :
    Related R (r.andThen f) (r'.andThen f') := by
  cases hr with
  | finished hR => exact hf _ _ _ _ rfl rfl hR
  | cancelled hR => exact cancelled hR
  | unfinished hR => exact unfinished hR

theorem branch {p p' : Prop} [Decidable p] [Decidable p'] {s : Result σ} {s' : Result τ}
    (hiff : p ↔ p') (hthen : p → Related R r r') (helse : ¬p → Related R s s') :
    Related R (if p then r else s) (if p' then r' else s') := by
  by_cases hp : p
  · rw [if_pos hp, if_pos (hiff.mp hp)]
    exact hthen hp
  · rw [if_neg hp, if_neg fun hp' => hp (hiff.mpr hp')]
    exact helse hp

theorem exists_tapes (hr : Related R r r') : ∃ t t', R t r.host t' r'.host := by
  cases hr with
  | finished hR => exact ⟨_, _, hR⟩
  | cancelled hR => exact ⟨_, _, hR⟩
  | unfinished hR => exact ⟨_, _, hR⟩

theorem of_outcome {o : Outcome} {t : Tape} {h : σ} (hr : Related R (o.result t h) r') :
    ∃ t' h', r' = o.result t' h' ∧ R t h t' h' := by
  cases o with
  | completed => cases hr with | finished hR => exact ⟨_, _, rfl, hR⟩
  | cancelled => cases hr with | cancelled hR => exact ⟨_, _, rfl, hR⟩

theorem flip (hr : Related R r r') : Related (fun t' h' t h => R t h t' h') r' r := by
  cases hr with
  | finished hR => exact finished hR
  | cancelled hR => exact cancelled hR
  | unfinished hR => exact unfinished hR

theorem trans {S : Tape → τ → Tape → ρ → Prop} {T : Tape → σ → Tape → ρ → Prop} {r'' : Result ρ}
    (hRS : ∀ {t h t' h' t'' h''}, R t h t' h' → S t' h' t'' h'' → T t h t'' h'')
    (hr : Related R r r') (hs : Related S r' r'') : Related T r r'' := by
  cases hr with
  | finished hR => cases hs with | finished hS => exact finished (hRS hR hS)
  | cancelled hR => cases hs with | cancelled hS => exact cancelled (hRS hR hS)
  | unfinished hR => cases hs with | unfinished hS => exact unfinished (hRS hR hS)

end Related
end Result

namespace Progress

variable {α β α' β' : Type} {next : α → Traced σ → Progress (Traced σ) α β}
  {leaves : Tape → β → Prop} {next' : α' → Traced τ → Progress (Traced τ) α' β'}
  {leaves' : Tape → β' → Prop} {a : α} {a' : α'} {h : Traced σ} {h' : Traced τ}

/-- The calls of an execution are made by the run, and those within the limit are among them. -/
theorem Performs.exists_calls (once : CallsOnce next) {bound : Nat} {r : Result (Traced σ)}
    (hp : Performs next leaves bound a h r) :
    ∃ n, (iterate next n a h).calls = r.host.events.toList ∧
      ∀ m ≤ bound, (iterate next m a h).calls <+: r.host.events.toList := by
  -- An execution that ended has all calls that the run ever makes. One that was cut short has all
  -- those of the first `bound` steps, since it has gone on for longer.
  cases r with
  | finished t h₁ =>
    obtain ⟨n, b, hn, -⟩ := hp
    exact ⟨n, by rw [hn]; rfl, fun m _ => once.calls_prefix_of_ended hn m⟩
  | cancelled t h₁ =>
    obtain ⟨n, b, hn, -⟩ := hp
    exact ⟨n, by rw [hn]; rfl, fun m _ => once.calls_prefix_of_ended hn m⟩
  | unfinished t h₁ =>
    obtain ⟨n, a₁, hle, hn⟩ := hp
    have hcalls : (iterate next n a h).calls = h₁.events.toList := by rw [hn]; rfl
    exact ⟨n, hcalls, fun m hm =>
      hcalls ▸ once.calls_iterate_prefix (Nat.le_trans hm hle) a h⟩

/-- Systems with related executions make related calls, however long their runs are. -/
theorem exists_calls_related {E : Event → Event → Prop}
    {r : Nat → Result (Traced σ)} {r' : Nat → Result (Traced τ)}
    (once : CallsOnce next) (once' : CallsOnce next') (hstart : h'.events = #[])
    (hp : ∀ limit, Performs next leaves limit a h (r limit))
    (hp' : ∀ limit, Performs next' leaves' limit a' h' (r' limit))
    (hrel : ∀ limit, List.Forall₂ E (r limit).host.events.toList (r' limit).host.events.toList)
    (n : Nat) :
    ∃ m, List.Forall₂ E (iterate next n a h).calls (iterate next' m a' h').calls := by
  -- The calls of `n` steps are among those of the execution with limit `n`, and the other system
  -- makes as many of its own at some time.
  obtain ⟨-, -, hpre⟩ := (hp n).exists_calls once
  obtain ⟨m', hm', -⟩ := (hp' n).exists_calls once'
  have htake := List.prefix_iff_eq_take.mp (hpre n (Nat.le_refl n))
  obtain ⟨m, hm⟩ := once'.exists_calls_iterate_eq_take a' hstart m'
    (iterate next n a h).calls.length
  refine ⟨m, ?_⟩
  rw [htake, hm, hm']
  exact List.forall₂_take _ (hrel n)

/-- Two runs agree: each makes the calls that the other makes, up to `E`, and if one of them
ends, then so does the other, with the same outcome and with memories related by `M`. -/
structure Agree (E : Event → Event → Prop) (M : β → β' → Prop)
    (run : Nat → Progress (Traced σ) α β) (run' : Nat → Progress (Traced τ) α' β') : Prop where
  /-- The calls of the first run at any time are those of the second one at some time. -/
  calls : ∀ n, ∃ m, List.Forall₂ E (run n).calls (run' m).calls
  /-- The calls of the second run at any time are those of the first one at some time. -/
  calls' : ∀ m, ∃ n, List.Forall₂ E (run n).calls (run' m).calls
  /-- The second run ends if the first one does. -/
  ends : ∀ {n o b t}, run n = ended o b t →
    ∃ m b' t', run' m = ended o b' t' ∧ M b b' ∧ List.Forall₂ E t.events.toList t'.events.toList
  /-- The first run ends if the second one does. -/
  ends' : ∀ {m o b' t'}, run' m = ended o b' t' →
    ∃ n b t, run n = ended o b t ∧ M b b' ∧ List.Forall₂ E t.events.toList t'.events.toList

/-- **Systems whose executions are related agree.** -/
theorem agree_of_related {E : Event → Event → Prop} {M : β → β' → Prop}
    {R : Tape → Traced σ → Tape → Traced τ → Prop}
    {r : Nat → Result (Traced σ)} {r' : Nat → Result (Traced τ)}
    (once : CallsOnce next) (once' : CallsOnce next') (hstart : h.events = #[])
    (hstart' : h'.events = #[])
    (hp : ∀ limit, Performs next leaves limit a h (r limit))
    (hp' : ∀ limit, Performs next' leaves' limit a' h' (r' limit))
    (hrel : ∀ limit, (r limit).Related R (r' limit))
    (hevents : ∀ {t h t' h'}, R t h t' h' → List.Forall₂ E h.events.toList h'.events.toList)
    (hmemory : ∀ {t h t' h' b b'}, R t h t' h' → leaves t b → leaves' t' b' → M b b') :
    Agree E M (fun n => iterate next n a h) (fun n => iterate next' n a' h') where
  calls := exists_calls_related once once' hstart' hp hp' fun limit => by
    obtain ⟨t, t', hR⟩ := (hrel limit).exists_tapes
    exact hevents hR
  -- The same with the two systems in each other's place, and all relations turned round.
  calls' m := by
    obtain ⟨n, hn⟩ := exists_calls_related (E := fun e e' => E e' e) once' once hstart hp' hp
      (fun limit => by
        obtain ⟨t, t', hR⟩ := (hrel limit).exists_tapes
        exact (hevents hR).flip) m
    exact ⟨n, hn.flip⟩
  ends {n o b t} hn := by
    -- A run that ends is the execution with its length as the limit.
    obtain ⟨tape, hr, hleaves⟩ := (hp n).exists_result hn
    have hrel' := hrel n
    rw [hr] at hrel'
    obtain ⟨tape', t', hr', hR⟩ := hrel'.of_outcome
    have hp'' := hp' n
    rw [hr'] at hp''
    obtain ⟨m, b', hm, hleaves'⟩ := hp''.exists_iterate
    exact ⟨m, b', t', hm, hmemory hR hleaves hleaves', hevents hR⟩
  -- A run of the second system that ends has the length `m`, so `m` is the limit here.
  ends' {m o b' t'} hm := by
    obtain ⟨tape', hr', hleaves'⟩ := (hp' m).exists_result hm
    have hrel' := (hrel m).flip
    rw [hr'] at hrel'
    obtain ⟨tape, t, hr, hR⟩ := hrel'.of_outcome
    have hp'' := hp m
    rw [hr] at hp''
    obtain ⟨n, b, hn, hleaves⟩ := hp''.exists_iterate
    exact ⟨n, b, t, hn, hmemory hR hleaves hleaves', hevents hR⟩

end Progress
end TapeLang
