import TapeLang.Proofs.Agreement
import TapeLang.Proofs.Answers

/-!
# A run that tracks another one

`Tracks` is what relates a run of a program to a run of the reduced program at the same place: the
tapes are the same up to zeros at the end, and so are all tapes shown so far; no other call differs.
If the answers of the host do not depend on dumps, then the next answer is the same, too, and every
instruction keeps the relation (`congruence_tracks`).
-/

namespace TapeLang

open Result

variable {σ : Type}

/-- The first execution is where the second one is, up to zeros at the end of tapes.  Both hosts
were in the state `h₀` at the start. -/
structure Tracks (range : CellRange) (host : Host σ) (h₀ : σ) (t : Tape) (h : Traced σ) (t' : Tape)
    (h' : Traced σ) : Prop where
  tape : t.Extends t'
  inRange : t.InRange range
  events : List.Forall₂ Event.Similar h.events.toList h'.events.toList
  /-- The first host is in the state after its calls. -/
  reached : h.host = host.after h₀ h.events.toList
  /-- The second host is in the state after its calls. -/
  reached' : h'.host = host.after h₀ h'.events.toList

namespace Tracks

variable {range : CellRange} {host : Host σ} {h₀ : σ} {t t' t'' : Tape} {h h' h'' : Traced σ}

theorem start (range : CellRange) (host : Host σ) (h₀ : σ) :
    Tracks range host h₀ .fresh { host := h₀ } .fresh { host := h₀ } where
  tape := .refl _
  inRange := Tape.inRange_fresh
  events := .nil
  reached := rfl
  reached' := rfl

theorem right (hR : Tracks range host h₀ t h t' h') : Tracks range host h₀ t' h' t' h' where
  tape := .refl t'
  inRange := hR.inRange.of_extends hR.tape
  events := List.forall₂_same.mpr fun e _ => .refl e
  reached := hR.reached'
  reached' := hR.reached'

theorem trans (hR : Tracks range host h₀ t h t' h') (hR' : Tracks range host h₀ t' h' t'' h'') :
    Tracks range host h₀ t h t'' h'' where
  tape := hR.tape.trans hR'.tape
  inRange := hR.inRange
  events := Event.similar_trans hR.events hR'.events
  reached := hR.reached
  reached' := hR'.reached'

theorem withTape (hR : Tracks range host h₀ t h t' h') {u u' : Tape} (htape : u.Extends u')
    (hrange : u.InRange range) : Tracks range host h₀ u h u' h' :=
  { hR with tape := htape, inRange := hrange }

theorem call (hR : Tracks range host h₀ t h t' h') {e e' : Event} (he : e.Similar e') :
    Tracks range host h₀ t ⟨host.take h.host e, h.events.push e⟩ t'
      ⟨host.take h'.host e', h'.events.push e'⟩ where
  tape := hR.tape
  inRange := hR.inRange
  events := by
    simpa using List.rel_append hR.events (.cons he .nil)
  reached := by simp [hR.reached]
  reached' := by simp [hR.reached']

end Tracks

/-- **Every instruction keeps the relation**, if the host's answers do not depend on dumps. -/
theorem congruence_tracks {range : CellRange} {host : Host σ} {h₀ : σ}
    (answers : host.AnswersBy (!·.isDump) h₀) :
    Congruence range range host.traced host.traced (Tracks range host h₀) where
  here hR := by rw [hR.tape.here_eq]
  op o {t h t' h'} hR := by
    cases o with
    | increment =>
      refine .finished (hR.withTape ?_ (hR.inRange.write _))
      rw [hR.tape.here_eq]
      exact hR.tape.write _
    | decrement =>
      refine .finished (hR.withTape ?_ (hR.inRange.write _))
      rw [hR.tape.here_eq]
      exact hR.tape.write _
    | left => exact .finished (hR.withTape hR.tape.moveLeft hR.inRange.moveLeft)
    | right => exact .finished (hR.withTape hR.tape.moveRight hR.inRange.moveRight)
    | output =>
      have hcall : Event.Similar (.output t.here) (.output t'.here) := by
        rw [hR.tape.here_eq]
        exact .refl _
      exact .finished (hR.call hcall)
    | dump =>
      -- The second tape may be shorter by zeros, which is what makes the dumps similar and not
      -- equal.
      have hcall : Event.Similar (.dump t.cells t.pointer) (.dump t'.cells t'.pointer) := hR.tape
      exact .finished (hR.call hcall)
    | input =>
      -- Up to dumps both hosts have had the same calls, and by these they answer.
      have hanswer := answers.input (Event.filter_eq_of_similar hR.events)
      rw [← hR.reached, ← hR.reached'] at hanswer
      simp only [Op.execute, Host.traced_input, ← hanswer]
      cases (host.input h.host).1 with
      | none => exact .cancelled (hR.call (.refl (.input none)))
      | some b =>
        have hcall := hR.call (.refl (.input (some b)))
        exact .finished (hcall.withTape (hR.tape.write _) (hR.inRange.write _))
  poll {t h t' h'} hR := by
    have hanswer := answers.poll (Event.filter_eq_of_similar hR.events)
    rw [← hR.reached, ← hR.reached'] at hanswer
    simp only [Host.polled, Host.traced_poll, ← hanswer]
    cases (host.poll h.host).1 with
    | true => exact .cancelled (hR.call (.refl (.poll true)))
    | false => exact .finished (hR.call (.refl (.poll false)))

end TapeLang
