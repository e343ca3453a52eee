import TapeLang.Proofs.Following
import TapeLang.Proofs.FrameStack

/-!
# Runs of related programs

Two programs may be compared by their executions, limit by limit, and the machine left aside: if
the executions of their blocks are related for every limit, and a poll keeps the relation, then the
runs agree (`agree_of_execute_related`).

One program may also be executed twice, with other tapes, other hosts or another range.  If a
relation between the two is kept by every operation and by a poll, and if it says which cells are
zero, then it is kept by every block (`Congruence.execute`): the two executions take the same way
through the program.
-/

namespace TapeLang

variable {σ τ : Type}

/-- A relation between two executions that is kept by all that a machine does. -/
structure Congruence (range range' : CellRange) (host : Host σ) (host' : Host τ)
    (R : Tape → σ → Tape → τ → Prop) : Prop where
  /-- Both selected cells are zero, or none is. -/
  here : ∀ {t h t' h'}, R t h t' h' → (t.here = 0 ↔ t'.here = 0)
  op : ∀ (o : Op) {t h t' h'}, R t h t' h' →
    Result.Related R (o.execute range host t h) (o.execute range' host' t' h')
  poll : ∀ {t h t' h'}, R t h t' h' →
    Result.Related R (host.polled t h) (host'.polled t' h')

namespace Congruence

open Block Result

variable {range range' : CellRange} {host : Host σ} {host' : Host τ}
  {R : Tape → σ → Tape → τ → Prop} {t t' : Tape} {h : σ} {h' : τ}

theorem turns (hc : Congruence range range' host host' R) {body : Tape → σ → Result σ}
    {body' : Tape → τ → Result τ}
    (hbody : ∀ {t h t' h'}, R t h t' h' → Related R (body t h) (body' t' h')) (n : Nat)
    (hR : R t h t' h') : Related R (turns host body n t h) (turns host' body' n t' h') := by
  induction n generalizing t h t' h' with
  | zero => exact .unfinished hR
  | succ n ih =>
    rw [Block.turns, Block.turns]
    refine (hbody hR).andThen fun t₁ h₁ t₁' h₁' _ _ hR₁ => ?_
    refine (hc.poll hR₁).andThen fun t₂ h₂ t₂' h₂' _ _ hR₂ => ?_
    exact .branch (hc.here hR₂) (fun _ => .finished hR₂) fun _ => ih hR₂

theorem repeated (hc : Congruence range range' host host' R) {body : Tape → σ → Result σ}
    {body' : Tape → τ → Result τ}
    (hbody : ∀ {t h t' h'}, R t h t' h' → Related R (body t h) (body' t' h')) (limit : Nat)
    (hR : R t h t' h') :
    Related R (repeated host body limit t h) (repeated host' body' limit t' h') :=
  .branch (hc.here hR) (fun _ => .finished hR) fun _ => hc.turns hbody limit hR

/-- A block keeps the relation. -/
theorem execute (hc : Congruence range range' host host' R) (limit : Nat) (b : Block)
    (hR : R t h t' h') :
    Related R (b.execute range host limit t h) (b.execute range' host' limit t' h') := by
  induction b generalizing t h t' h' with
  | done => exact .finished hR
  | op o next ih =>
    rw [Block.execute, Block.execute]
    exact (hc.op o hR).andThen fun t₁ h₁ t₁' h₁' _ _ hR₁ => ih hR₁
  | loop body next ihBody ihNext =>
    rw [Block.execute, Block.execute]
    exact (hc.repeated ihBody limit hR).andThen fun t₁ h₁ t₁' h₁' _ _ hR₁ => ihNext hR₁

end Congruence

/-! ### From executions to runs -/

namespace Machine

open Progress Result

variable {range range' : CellRange} {host : Host σ} {host' : Host τ} {h₀ : σ} {h₀' : τ}
  {program program' : Block} {R : Tape → Traced σ → Tape → Traced τ → Prop}
  {E : Event → Event → Prop} {M : Tape → Tape → Prop}

/-- **Programs whose executions are related have runs that agree.** -/
theorem agree_of_execute_related
    (hexecute : ∀ limit, Related R
      (program.execute range host.traced limit .fresh { host := h₀ })
      (program'.execute range' host'.traced limit .fresh { host := h₀' }))
    (hpoll : ∀ {t h t' h'}, R t h t' h' →
      Related R (host.traced.polled t h) (host'.traced.polled t' h'))
    (hevents : ∀ {t h t' h'}, R t h t' h' → List.Forall₂ E h.events.toList h'.events.toList)
    (hmemory : ∀ {t h t' h'}, R t h t' h' → M t t') :
    Agree E M (recorded range host program h₀) (recorded range' host' program' h₀') := by
  -- Behind the program there is one more poll, which keeps the relation as well.
  have hprogram (limit : Nat) : Related R
      (program.executeProgram range host.traced limit { host := h₀ })
      (program'.executeProgram range' host'.traced limit { host := h₀' }) :=
    (hexecute limit).andThen fun t h t' h' _ _ hR => hpoll hR
  simp only [recorded_eq_iterate]
  exact agree_of_related callsOnce_advance callsOnce_advance rfl rfl
    (fun limit => performs_executeProgram limit program _)
    (fun limit => performs_executeProgram limit program' _) hprogram hevents
    (fun hR hleaves hleaves' => by rw [← hleaves, ← hleaves']; exact hmemory hR)

end Machine
end TapeLang
