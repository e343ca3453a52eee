import TapeLang.Proofs.Answers
import TapeLang.Proofs.Transitions

/-!
# One program, two hosts

A program is run twice, against hosts of different kinds.  The machine knows its host by the answers
only: as long as the second host gives the answers of the first one, the two runs go *in step*, with
the same state and the same calls after every number of steps (`Together`).

Which answers those are is said of single calls.  The hosts are in a relation that may look at the
calls so far, and each call that is answered by the first host is answered alike by the second one
and keeps the relation (`Host.Mirrors`).  This may be asked of a limited number of calls only: then
the runs go in step for as long as the calls of the first run are within the limit
(`recorded_together`).
-/

namespace TapeLang

variable {σ τ α β : Type}

namespace Host

/-- The host gives the answer that the call was written down with. -/
def Gives (host : Host σ) (h : σ) : Event → Prop
  | .input answer => (host.input h).1 = answer
  | .poll cancel => (host.poll h).1 = cancel
  | .output _ => True
  | .dump _ _ => True

/-- The second host does as the first one: what the first one answers, the second one answers,
and the relation between the calls so far and the two hosts is kept.  Calls are looked at only as
far as they are `allowed`. -/
def Mirrors (host : Host σ) (host' : Host τ) (allowed : List Event → Prop)
    (R : List Event → σ → τ → Prop) : Prop :=
  ∀ (es : List Event) (h : σ) (h' : τ) (e : Event), R es h h' → host.Gives h e →
    allowed (es ++ [e]) → host'.Gives h' e ∧ R (es ++ [e]) (host.take h e) (host'.take h' e)

end Host

namespace Progress

/-- The runs are in step: they are in the same state, or ended alike, after the same calls, and
their hosts are related. -/
inductive Together (R : List Event → σ → τ → Prop) :
    Progress (Traced σ) α β → Progress (Traced τ) α β → Prop
  | running {a : α} {t : Traced σ} {t' : Traced τ} (calls : t.events = t'.events)
      (hosts : R t.events.toList t.host t'.host) : Together R (.running a t) (.running a t')
  | ended {o : Outcome} {b : β} {t : Traced σ} {t' : Traced τ} (calls : t.events = t'.events)
      (hosts : R t.events.toList t.host t'.host) : Together R (.ended o b t) (.ended o b t')

variable {R R' : List Event → σ → τ → Prop} {p : Progress (Traced σ) α β}
  {p' : Progress (Traced τ) α β}

theorem Together.mono (h : Together R p p') (hmono : ∀ es h h', R es h h' → R' es h h') :
    Together R' p p' := by
  cases h with
  | running calls hosts => exact .running calls (hmono _ _ _ hosts)
  | ended calls hosts => exact .ended calls (hmono _ _ _ hosts)

theorem Together.of_running {a : α} {t : Traced σ} (h : Together R (.running a t) p') :
    ∃ t', p' = .running a t' ∧ t.events = t'.events ∧ R t.events.toList t.host t'.host := by
  cases h with
  | running calls hosts => exact ⟨_, rfl, calls, hosts⟩

theorem Together.of_ended {o : Outcome} {b : β} {t : Traced σ}
    (h : Together R (.ended o b t) p') :
    ∃ t', p' = .ended o b t' ∧ t.events = t'.events ∧ R t.events.toList t.host t'.host := by
  cases h with
  | ended calls hosts => exact ⟨_, rfl, calls, hosts⟩

end Progress

namespace Machine

open Progress

variable {range : CellRange} {host : Host σ} {host' : Host τ} {allowed : List Event → Prop}
  {R : List Event → σ → τ → Prop} {t : Traced σ} {t' : Traced τ}

/-- A call that both hosts have had, written down. -/
theorem related_push (hmirrors : host.Mirrors host' allowed R) (calls : t.events = t'.events)
    (hosts : R t.events.toList t.host t'.host) {e : Event} (hgives : host.Gives t.host e)
    (hallowed : allowed (t.events.push e).toList) :
    host'.Gives t'.host e ∧ t.events.push e = t'.events.push e ∧
      R (t.events.push e).toList (host.take t.host e) (host'.take t'.host e) := by
  rw [Array.toList_push] at hallowed ⊢
  obtain ⟨hgives', hR⟩ := hmirrors _ _ _ e hosts hgives hallowed
  exact ⟨hgives', by rw [calls], hR⟩

/-- One step keeps the runs in step, if its call is within the limit. -/
theorem together_advance (hmirrors : host.Mirrors host' allowed R) (s : State)
    (calls : t.events = t'.events) (hosts : R t.events.toList t.host t'.host)
    (hallowed : allowed (advance range host.traced s t).calls) :
    Together R (advance range host.traced s t) (advance range host'.traced s t') := by
  unfold advance at hallowed ⊢
  cases hstep : s.step range with
  | halt => exact .ended calls hosts
  | silent next => exact .running calls hosts
  | output value next =>
    rw [hstep] at hallowed
    obtain ⟨-, hcalls, hR⟩ := related_push hmirrors calls hosts
      (e := .output value) trivial hallowed
    exact .running hcalls hR
  | dump next =>
    rw [hstep] at hallowed
    obtain ⟨-, hcalls, hR⟩ := related_push hmirrors calls hosts
      (e := .dump s.tape.cells s.tape.pointer) trivial hallowed
    exact .running hcalls hR
  | input next =>
    simp only [hstep, Host.traced_input] at hallowed ⊢
    cases hanswer : (host.input t.host).1 with
    | none =>
      have hgives : host.Gives t.host (.input none) := hanswer
      simp only [hanswer] at hallowed ⊢
      obtain ⟨hgives', hcalls, hR⟩ := related_push hmirrors calls hosts hgives hallowed
      rw [show (host'.input t'.host).1 = none from hgives']
      exact .ended hcalls hR
    | some b =>
      have hgives : host.Gives t.host (.input (some b)) := hanswer
      simp only [hanswer] at hallowed ⊢
      obtain ⟨hgives', hcalls, hR⟩ := related_push hmirrors calls hosts hgives hallowed
      rw [show (host'.input t'.host).1 = some b from hgives']
      exact .running hcalls hR
  | poll next =>
    simp only [hstep, Host.traced_poll] at hallowed ⊢
    cases hanswer : (host.poll t.host).1 with
    | true =>
      have hgives : host.Gives t.host (.poll true) := hanswer
      simp only [hanswer] at hallowed ⊢
      obtain ⟨hgives', hcalls, hR⟩ := related_push hmirrors calls hosts hgives hallowed
      rw [show (host'.poll t'.host).1 = true from hgives']
      exact .ended hcalls hR
    | false =>
      have hgives : host.Gives t.host (.poll false) := hanswer
      simp only [hanswer] at hallowed ⊢
      obtain ⟨hgives', hcalls, hR⟩ := related_push hmirrors calls hosts hgives hallowed
      rw [show (host'.poll t'.host).1 = false from hgives']
      exact .running hcalls hR

/-- **Runs against hosts that do alike go in step**, for as long as the calls are within the
limit. -/
theorem recorded_together (hmirrors : host.Mirrors host' allowed R)
    (hinitial : ∀ es es', es <+: es' → allowed es' → allowed es) (program : Block) {h : σ}
    {h' : τ} (hstart : R [] h h') (n : Nat)
    (hallowed : allowed (recorded range host program h n).calls) :
    Together R (recorded range host program h n) (recorded range host' program h' n) := by
  induction n with
  | zero => exact .running rfl hstart
  | succ n ih =>
    -- The limit is said of the calls so far, and fewer of them are within it too.
    have htogether := ih (hinitial _ _ (calls_recorded_of_le (Nat.le_succ n)) hallowed)
    rw [recorded_succ] at hallowed
    rw [recorded_succ, recorded_succ]
    cases hn : recorded range host program h n with
    | running s t =>
      rw [hn] at htogether hallowed
      generalize recorded range host' program h' n = p' at htogether
      cases htogether with
      | running calls hosts => exact together_advance hmirrors s calls hosts hallowed
    | ended o tape t =>
      rw [hn] at htogether
      generalize recorded range host' program h' n = p' at htogether
      cases htogether with
      | ended calls hosts => exact .ended calls hosts

end Machine

/-! ### A run and its host -/

/-- The calls are answered by the host as they are written down. -/
def Host.Gave (host : Host σ) (h : σ) (events : List Event) : Prop :=
  ∀ before e after, events = before ++ e :: after → host.Gives (host.after h before) e

theorem Host.Gave.concat {host : Host σ} {h : σ} {events : List Event} {e : Event}
    (hgave : host.Gave h events) (hgives : host.Gives (host.after h events) e) :
    host.Gave h (events ++ [e]) := by
  intro before e' after heq
  rcases after.eq_nil_or_concat' with rfl | ⟨middle, last, rfl⟩
  · obtain ⟨rfl, hlast⟩ := List.append_inj' heq rfl
    obtain rfl := List.singleton_inj.mp hlast
    exact hgives
  · rw [← List.cons_append, ← List.append_assoc] at heq
    exact hgave before e' middle (List.append_inj' heq rfl).1

/-- A run leaves its host behind its calls, and they are answered by this host. -/
theorem Machine.recorded_gave (range : CellRange) (host : Host σ) (program : Block) (h : σ)
    (n : Nat) :
    (recorded range host program h n).host.host =
        host.after h (recorded range host program h n).calls ∧
      host.Gave h (recorded range host program h n).calls := by
  -- The run is in step with itself, and its host is the one behind the calls so far.
  have hmirrors : host.Mirrors host (fun _ => True)
      (fun es h₁ h₂ => h₁ = h₂ ∧ h₁ = host.after h es ∧ host.Gave h es) := by
    rintro es h₁ _ e ⟨rfl, rfl, hgave⟩ hgives -
    exact ⟨hgives, rfl, (host.after_concat h es e).symm, hgave.concat hgives⟩
  have hstart : host.Gave h [] := fun before e after heq => by simp at heq
  have htogether : Progress.Together _ (recorded range host program h n)
      (recorded range host program h n) :=
    recorded_together hmirrors (fun _ _ _ _ => trivial) program ⟨rfl, rfl, hstart⟩ n trivial
  generalize recorded range host program h n = p at htogether
  cases htogether with
  | running _ hosts => exact hosts.2
  | ended _ hosts => exact hosts.2

end TapeLang
