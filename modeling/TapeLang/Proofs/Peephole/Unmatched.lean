import TapeLang.Proofs.Brackets
import TapeLang.Proofs.Peephole.Reduction

/-!
# Brackets without a partner in reduced texts

The reduction drops brackets by looking at a few characters, whether the text is balanced or not.
Still it hides no bracket without a partner and leaves none behind, for dropping one pattern does
not change the number of loops left open: symbols that undo each other are no brackets, and a loop
behind a `]` opens and closes one more, if the `]` closes anything at all.  Otherwise the text is
refused at this `]` or before, whatever follows.

Main statement: a text and the reduced text are read or refused alike, and refused for the same kind
of bracket (`parse_reduce_fails_alike`).
-/

namespace TapeLang.Peephole

open Relation Block

/-- A text without brackets leaves open what is open. -/
theorem leftOpen_append_of_inner (opened : Nat) (cs : List Char) {inner : List Char}
    (hinner : ∀ c ∈ inner, isInner c) :
    leftOpen opened (inner ++ cs) = leftOpen opened cs := by
  induction inner with
  | nil => rfl
  | cons c inner ih =>
    rw [List.forall_mem_cons] at hinner
    obtain ⟨hopen, hclose⟩ : c ≠ '[' ∧ c ≠ ']' := by simpa [isInner] using hinner.1
    rw [List.cons_append, leftOpen_cons_of_ne _ _ hopen hclose, ih hinner.2]

/-- **Dropping a pattern leaves as many loops open.** -/
theorem leftOpen_eq_of_rewrites {text text' : List Char} (h : Rewrites (undoes · ·) text text')
    (opened : Nat) : leftOpen opened text = leftOpen opened text' := by
  cases h with
  | @cancel front back first second hundoes =>
    -- The symbols of operations are no brackets, and only brackets are counted.
    obtain ⟨o, o', hfirst, hsecond, -⟩ := cancelSymbols_of_undoes hundoes
    obtain ⟨hopen, hclose⟩ := ne_bracket_of_ofSymbol? hfirst
    obtain ⟨hopen', hclose'⟩ := ne_bracket_of_ofSymbol? hsecond
    simp only [leftOpen_append, leftOpen_cons_of_ne _ _ hopen hclose,
      leftOpen_cons_of_ne _ _ hopen' hclose']
  | @deadLoop front back inner hinner =>
    simp only [leftOpen_append opened]
    congr 1
    -- The `]` before the loop closes one, if any is open; the loop itself opens and closes one
    -- more.
    funext n
    cases n with
    | zero => rfl
    | succ outer =>
      simp only [leftOpen_close, leftOpen_open, leftOpen_append_of_inner _ _ hinner]

theorem leftOpen_eq_of_rewritings {text text' : List Char}
    (h : ReflTransGen (Rewrites (undoes · ·)) text text') (opened : Nat) :
    leftOpen opened text = leftOpen opened text' := by
  induction h with
  | refl => rfl
  | tail _ hstep ih => rw [ih, leftOpen_eq_of_rewrites hstep]

/-- **The reduction hides no bracket error and makes none**: the reduced text is read if and only if
the text is, and if both are refused, then for the same kind of bracket. -/
theorem parse_reduce_fails_alike (text : String) :
    ((∃ reduced, parse (reduce text) = .ok reduced) ↔ ∃ program, parse text = .ok program) ∧
      ∀ e e', parse text = .error e → parse (reduce text) = .error e' →
        ∃ bracket offset offset',
          e = .unmatched bracket offset ∧ e' = .unmatched bracket offset' := by
  have hreading := reading_parse text
  have hreduced := reading_parse (reduce text)
  rw [← leftOpen_eq_of_rewritings (rewrites_reduce text)] at hreduced
  refine ⟨hreduced.exists_ok_iff.trans hreading.exists_ok_iff.symm, fun e e' he he' => ?_⟩
  -- Both texts leave the same number open, and this number tells the kind of bracket.
  rw [he] at hreading
  rw [he'] at hreduced
  exact hreading.exists_unmatched hreduced

/-- A pair in front of a stray `]`, and a dead loop behind it. -/
theorem parse_reduce_fails_alike_stray :
    parse "+-][-]<>[[.]" = .error (.unmatched .closing 2) ∧
      parse (reduce "+-][-]<>[[.]") = .error (.unmatched .closing 0) ∧
      ∃ bracket offset offset', Error.unmatched .closing 2 = .unmatched bracket offset ∧
        Error.unmatched .closing 0 = .unmatched bracket offset' := by
  have hparse : parse "+-][-]<>[[.]" = .error (.unmatched .closing 2) := rfl
  have hreduced : parse (reduce "+-][-]<>[[.]") = .error (.unmatched .closing 0) := rfl
  exact ⟨hparse, hreduced, (parse_reduce_fails_alike _).2 _ _ hparse hreduced⟩

end TapeLang.Peephole
