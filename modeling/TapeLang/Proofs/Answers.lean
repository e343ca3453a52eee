import Mathlib.Data.List.Forall2
import TapeLang.Host.Basic
import TapeLang.Proofs.Extension

/-!
# What the answers of a host depend on

The state of a host after some calls is `Host.after`.  A host *answers by* the calls of some kind if
it gives the same answers after calls that differ in others only.  In `Host.AnswersBy` the kind is a
predicate on calls; `Event.isDump` is the one that matters for dumps.

Two lists of calls that are `Event.Similar` one by one differ in the zeros at the end of the tapes
shown, and so in nothing that is not a dump (`filter_eq_of_similar`).
-/

namespace TapeLang

variable {σ : Type}

namespace Event

/-- The call shows the tape. -/
def isDump : Event → Bool
  | dump _ _ => true
  | input _ => false
  | output _ => false
  | poll _ => false

/-- The same call, but a tape shown by the first one may have more zeros at its end. -/
def Similar : Event → Event → Prop
  | dump cells pointer, dump cells' pointer' => pointer = pointer' ∧ Padded cells cells'
  | e, e' => e = e'

theorem Similar.refl (e : Event) : Similar e e := by
  cases e with
  | dump cells pointer => exact ⟨rfl, .refl cells⟩
  | input answer => rfl
  | output value => rfl
  | poll cancel => rfl

theorem Similar.trans {e e' e'' : Event} (h : Similar e e') (h' : Similar e' e'') :
    Similar e e'' := by
  cases e with
  | dump cells pointer =>
    cases e' with
    | dump cells' pointer' =>
      cases e'' with
      | dump cells'' pointer'' => exact ⟨h.1.trans h'.1, h.2.trans h'.2⟩
      | _ => cases h'
    | _ => cases h
  | _ => cases h; exact h'

theorem Similar.isDump_eq {e e' : Event} (h : Similar e e') : e.isDump = e'.isDump := by
  cases e <;> cases e' <;> first | rfl | cases h

theorem Similar.eq_of_isDump {e e' : Event} (h : Similar e e') (he : e.isDump = false) :
    e = e' := by
  cases e with
  | dump cells pointer => cases he
  | _ => exact h

theorem similar_trans {es es' es'' : List Event} (h : List.Forall₂ Similar es es')
    (h' : List.Forall₂ Similar es' es'') : List.Forall₂ Similar es es'' := by
  induction h generalizing es'' with
  | nil => exact h'
  | cons he _ ih =>
    cases h' with
    | cons he' h' => exact .cons (he.trans he') (ih h')

/-- Similar calls differ in dumps only. -/
theorem filter_eq_of_similar {es es' : List Event} (h : List.Forall₂ Similar es es') :
    es.filter (!·.isDump) = es'.filter (!·.isDump) := by
  induction h with
  | nil => rfl
  | @cons e e' es es' he _ ih =>
    simp only [List.filter_cons, ← he.isDump_eq, ih]
    split
    · next hdump => rw [he.eq_of_isDump (by simpa using hdump)]
    · rfl

end Event

namespace Host

/-- The state of a host after one call. -/
def take (host : Host σ) (h : σ) : Event → σ
  | .input _ => (host.input h).2
  | .output value => host.output value h
  | .dump cells pointer => host.dump cells pointer h
  | .poll _ => (host.poll h).2

theorem traced_input (host : Host σ) (t : Traced σ) :
    host.traced.input t = ((host.input t.host).1,
      ⟨host.take t.host (.input (host.input t.host).1),
        t.events.push (.input (host.input t.host).1)⟩) := rfl

theorem traced_poll (host : Host σ) (t : Traced σ) :
    host.traced.poll t = ((host.poll t.host).1,
      ⟨host.take t.host (.poll (host.poll t.host).1),
        t.events.push (.poll (host.poll t.host).1)⟩) := rfl

/-- The state of a host after some calls. -/
def after (host : Host σ) (h : σ) (events : List Event) : σ := events.foldl host.take h

@[simp]
theorem after_concat (host : Host σ) (h : σ) (events : List Event) (e : Event) :
    host.after h (events ++ [e]) = host.take (host.after h events) e := by
  simp [after]

/-- The answers depend only on the calls before that are seen. -/
structure AnswersBy (seen : Event → Bool) (host : Host σ) (h : σ) : Prop where
  input : ∀ {es es' : List Event}, es.filter seen = es'.filter seen →
    (host.input (host.after h es)).1 = (host.input (host.after h es')).1
  poll : ∀ {es es' : List Event}, es.filter seen = es'.filter seen →
    (host.poll (host.after h es)).1 = (host.poll (host.after h es')).1

/-- A host that answers by a part of its state, if **the calls that are not seen leave this part
alone**. -/
theorem answersBy_of_view {ρ : Type} {seen : Event → Bool} {host : Host σ} (view : σ → ρ)
    (hinput : ∀ h h', view h = view h' → (host.input h).1 = (host.input h').1)
    (hpoll : ∀ h h', view h = view h' → (host.poll h).1 = (host.poll h').1)
    (hseen : ∀ h h' e, view h = view h' → view (host.take h e) = view (host.take h' e))
    (hunseen : ∀ h e, seen e = false → view (host.take h e) = view h) (h : σ) :
    host.AnswersBy seen h := by
  -- By induction on the calls: those that are not seen may be left out.
  have hafter (es : List Event) (h h' : σ) (hview : view h = view h') :
      view (host.after h es) = view (host.after h' (es.filter seen)) := by
    unfold after
    induction es generalizing h h' with
    | nil => exact hview
    | cons e es ih =>
      cases he : seen e with
      | true =>
        rw [List.filter_cons_of_pos he]
        exact ih _ _ (hseen h h' e hview)
      | false =>
        rw [List.filter_cons_of_neg (by simp [he])]
        exact ih _ _ ((hunseen h e he).trans hview)
  have hsame {es es' : List Event} (heq : es.filter seen = es'.filter seen) :
      view (host.after h es) = view (host.after h es') := by
    rw [hafter es h h rfl, heq, ← hafter es' h h rfl]
  exact ⟨fun heq => hinput _ _ (hsame heq), fun heq => hpoll _ _ (hsame heq)⟩

/-- A host whose state is not changed by the calls that are not seen. -/
theorem answersBy_of_take {seen : Event → Bool} {host : Host σ}
    (htake : ∀ h e, seen e = false → host.take h e = h) (h : σ) : host.AnswersBy seen h := by
  refine answersBy_of_view id ?_ ?_ ?_ htake h
  · rintro h _ rfl
    rfl
  · rintro h _ rfl
    rfl
  · rintro h _ e rfl
    rfl

end Host

/-- The host with input and output only does not look at dumps. -/
theorem Bare.answersBy_host (b : Bare) : Bare.host.AnswersBy (!·.isDump) b := by
  refine Host.answersBy_of_take (fun b e he => ?_) b
  cases e with
  | dump cells pointer => rfl
  | input answer => cases he
  | output value => cases he
  | poll cancel => cases he

end TapeLang
