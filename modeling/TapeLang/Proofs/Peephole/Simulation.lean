import TapeLang.Proofs.Agreement
import TapeLang.Proofs.FrameStack
import TapeLang.Proofs.Peephole.Reduction

/-!
# Reduced programs, executed

A program and a reduced one are executed side by side.  Whatever a reduction drops, a relation that
every instruction keeps is kept, provided that operations that cancel each other come to nothing
(`Droppable`).  They may do so only in some states of the machine, and then every state that the run
of the first program comes to has to be one of these.

Main statement: `execute_related_of_reduces`, by induction on the reduction.  Where operations are
dropped, the reduced program is first compared with itself, behind the two operations and before
them.  A loop dropped behind another one is never entered, since that one leaves a zero behind.
-/

namespace TapeLang.Block

open Machine Progress Result

variable {σ : Type} {range : CellRange} {host : Host σ} {cancels : Op → Op → Prop}
  {ok : State → Prop} {R : Tape → σ → Tape → σ → Prop}

/-- Where the first program is in a state that is `ok`, operations that cancel each other come to
nothing in the second one. -/
def Droppable (range : CellRange) (host : Host σ) (cancels : Op → Op → Prop) (ok : State → Prop)
    (R : Tape → σ → Tape → σ → Prop) : Prop :=
  ∀ {o o' next next'}, cancels o o' → Reduces cancels next (.op o' next') →
    ∀ {block outer t h t' h'}, ok (inFrame block (.op o next) outer t) → R t h t' h' →
      ∃ t₁ t₂, o.execute range host t' h' = .finished t₁ h' ∧
        o'.execute range host t₁ h' = .finished t₂ h' ∧ R t₂ h' t' h'

variable {limit : Nat} {body body' next : Block} {outer : List Frame}

theorem turns_related_of_reduces (hc : Congruence range range host host R) {frame : Frame}
    (hbody : ∀ {t h t' h'}, R t h t' h' →
      Always ok (fun n => iterate (advance range host) n
        (inFrame body body (frame :: outer) t) h) →
      Related R (body.execute range host limit t h) (body'.execute range host limit t' h'))
    (n : Nat) {t t' : Tape} {h h' : σ} (hR : R t h t' h')
    (ha : Always ok fun n => iterate (advance range host) n
      (inFrame body body (frame :: outer) t) h) :
    Related R (turns host (body.execute range host limit) n t h)
      (turns host (body'.execute range host limit) n t' h') := by
  induction n generalizing t h t' h' with
  | zero => exact .unfinished hR
  | succ n ih =>
    rw [turns, turns]
    refine (hbody hR ha).andThen fun t₁ h₁ t₁' h₁' heq₁ _ hR₁ => ?_
    have ha₁ := (follows_execute limit body body (frame :: outer) t h).always heq₁ ha
    refine (hc.poll hR₁).andThen fun t₂ h₂ t₂' h₂' heq₂ _ hR₂ => ?_
    refine .branch (hc.here hR₂) (fun _ => .finished hR₂) fun hzero => ih hR₂ ?_
    -- The poll was answered by no, and so the frame of the body starts anew.
    have ha₂ := (follows_leave 0 body (frame :: outer) t₁ h₁).always heq₂ ha₁
    rwa [leave_of_here_ne_zero hzero] at ha₂

theorem loop_related_of_reduces (hc : Congruence range range host host R) {block : Block}
    (hbody : ∀ {frame t h t' h'}, R t h t' h' →
      Always ok (fun n => iterate (advance range host) n
        (inFrame body body (frame :: outer) t) h) →
      Related R (body.execute range host limit t h) (body'.execute range host limit t' h'))
    {t t' : Tape} {h h' : σ} (hR : R t h t' h')
    (ha : Always ok fun n => iterate (advance range host) n
      (inFrame block (.loop body next) outer t) h) :
    Related R (repeated host (body.execute range host limit) limit t h)
      (repeated host (body'.execute range host limit) limit t' h') :=
  .branch (hc.here hR) (fun _ => .finished hR) fun hzero =>
    turns_related_of_reduces hc hbody limit hR (always_enter hzero ha)

/-- **A program and the reduced one are executed alike.** -/
theorem execute_related_of_reduces (hc : Congruence range range host host R)
    (htrans : ∀ {t h t' h' t'' h''}, R t h t' h' → R t' h' t'' h'' → R t h t'' h'')
    (hdrop : Droppable range host cancels ok R) {b b' : Block} (hreduces : Reduces cancels b b')
    {block : Block} {t t' : Tape} {h h' : σ} (hR : R t h t' h')
    (ha : Always ok fun n => iterate (advance range host) n (inFrame block b outer t) h)
    (limit : Nat) :
    Related R (b.execute range host limit t h) (b'.execute range host limit t' h') := by
  induction hreduces generalizing block outer t h t' h' with
  | done => exact .finished hR
  | @op o next next' _ ih =>
    rw [execute, execute]
    refine (hc.op o hR).andThen fun t₁ h₁ t₁' h₁' heq _ hR₁ => ?_
    exact ih hR₁ ((follows_op 0 block next outer o t h).always heq ha)
  | @cancel o o' next next' ho hnext ih =>
    obtain ⟨t₁, t₂, ho₁, ho₂, hR₂⟩ := hdrop ho hnext ha.start hR
    -- The first program goes over the operation, and so does the second one, for comparison.
    have hdetour : Related R ((op o next).execute range host limit t h)
        (next'.execute range host limit t₂ h') := by
      have hop := hc.op o hR
      rw [ho₁] at hop
      have hrel := hop.andThen fun t₃ h₃ t₁' h₁' heq _ hR₁ =>
        ih hR₁ ((follows_op 0 block next outer o t h).always heq ha)
      rwa [Result.andThen_finished, execute, ho₂, Result.andThen_finished] at hrel
    exact Related.trans (R := R) (S := R) (fun hR hR' => htrans hR hR') hdetour
      (hc.execute limit next' hR₂)
  | @loop body body' next next' _ _ ihBody ihNext =>
    rw [execute, execute]
    refine (loop_related_of_reduces hc ihBody hR ha).andThen fun t₁ h₁ t₁' h₁' heq _ hR₁ => ?_
    exact ihNext hR₁ ((follows_loop limit block body next outer t h).always heq ha)
  | @deadLoop body body' dead next next' _ _ ihBody ihNext =>
    rw [execute, execute]
    refine (loop_related_of_reduces hc ihBody hR ha).andThen fun t₁ h₁ t₁' h₁' heq heq' hR₁ => ?_
    have hrel := ihNext hR₁ ((follows_loop limit block body next outer t h).always heq ha)
    -- The first loop leaves a zero behind, and so the dead one is skipped.
    have hzero := here_of_repeated_eq_finished heq'
    rwa [execute, repeated, if_pos hzero, Result.andThen_finished] at hrel

end TapeLang.Block
