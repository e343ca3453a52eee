import Mathlib.Tactic.Choose
import TapeLang.Proofs.Expansion.Code

/-!
# Repeats and calls in either order

A repeat copies the token before it, whatever that is.  So it does not matter what the tokens that
are not repeats stand for: other tokens put in their place, all at once, are copied as these were
(`expandRepeats_map`).  This is an invariant of the one pass for repeats: the tokens written so far
are, one by one, what stands for those that would have been written.

To expand calls that all have code is to put code in their place, one token for each call, however
long it is.  Hence it may be done before the repeats are copied or behind that, with the same tokens
or the same error.

Main statement: `expandCalls_expandRepeats_comm`.
-/

namespace TapeLang.Token

variable {site : String} {tokens written : List Token} {token : Token} {f : Token → Token}

/-! ### Other tokens in the place of tokens -/

/-- Each token is replaced by one, and repeats stay what they are, the only ones. -/
def KeepsRepeats (f : Token → Token) : Prop := ∀ token, (f token).count? = token.count?

theorem KeepsRepeats.apply_times (hf : KeepsRepeats f) (count : Nat) :
    f (times count) = times count :=
  eq_times_of_count? (hf (times count))

/-- One more token, behind what stands for the tokens written so far. -/
theorem pushRepeating_map (hf : KeepsRepeats f) (written : List Token) (token : Token) :
    pushRepeating site (written.map f) (f token) =
      (pushRepeating site written token).map (List.map f) := by
  -- A repeat is the same on both sides, and copies what stands for the last token.
  cases hcount : token.count? with
  | none =>
    have hcount' : (f token).count? = none := (hf token).trans hcount
    rw [pushRepeating_of_plain hcount', pushRepeating_of_plain hcount]
    rfl
  | some count =>
    obtain rfl := eq_times_of_count? hcount
    rw [hf.apply_times]
    cases written with
    | nil => rfl
    | cons last written =>
      simp only [List.map_cons, pushRepeating]
      split
      · rw [Except.map, List.map_append, List.map_replicate]
      · rfl

theorem foldlM_pushRepeating_map (hf : KeepsRepeats f) (tokens written : List Token) :
    (tokens.map f).foldlM (pushRepeating site) (written.map f) =
      (tokens.foldlM (pushRepeating site) written).map (List.map f) := by
  induction tokens generalizing written with
  | nil => rfl
  | cons token tokens ih =>
    rw [List.map_cons, List.foldlM_cons, List.foldlM_cons, pushRepeating_map hf]
    cases pushRepeating site written token with
    | error e => rfl
    | ok written' => exact ih written'

/-- **Repeats copy what stands for a token** as they copy the token. -/
theorem expandRepeats_map (hf : KeepsRepeats f) (tokens : List Token) :
    expandRepeats site (tokens.map f) = (expandRepeats site tokens).map (List.map f) := by
  have hfold : (tokens.map f).foldlM (pushRepeating site) [] =
      (tokens.foldlM (pushRepeating site) []).map (List.map f) :=
    foldlM_pushRepeating_map hf tokens []
  rw [expandRepeats, hfold, expandRepeats]
  cases tokens.foldlM (pushRepeating site) [] with
  | error e => rfl
  | ok written => rw [Except.map, Except.map, Except.map, Except.map, List.map_reverse]

/-- Repeats fail where nothing stands before one, or where there would be too many copies. -/
theorem eq_of_expandRepeats_eq_error {e : Error} (h : expandRepeats site tokens = .error e) :
    e = .nothingToRepeat site ∨
      ∃ count, times count ∈ tokens ∧ maxCopies < count ∧ e = .tooManyCopies site count.repr := by
  obtain ⟨written, token, hmem, hpush⟩ := foldlM_eq_error (map_eq_error h)
  unfold pushRepeating at hpush
  split at hpush
  · exact .inl (Except.error.inj hpush).symm
  · next count =>
    split at hpush
    · cases hpush
    · next hlarge =>
      exact .inr ⟨count, hmem, Nat.lt_of_not_le hlarge, (Except.error.inj hpush).symm⟩
  · cases hpush

/-! ### Code in the place of calls -/

/-- The token with code in its place if it is a call. -/
def withCode (codeOf : String → List String → String) : Token → Token
  | call name args => code (codeOf name args)
  | code symbols => code symbols
  | times count => times count

theorem keepsRepeats_withCode (codeOf : String → List String → String) :
    KeepsRepeats (withCode codeOf) := by
  intro token
  cases token <;> rfl

/-- Calls that all have code are replaced by it. -/
theorem expandCalls_eq_map {answers : String → List String → Except Error String}
    {codeOf : String → List String → String}
    (h : ∀ name args, call name args ∈ tokens → answers name args = .ok (codeOf name args)) :
    expandCalls answers tokens = .ok (tokens.map (withCode codeOf)) := by
  induction tokens with
  | nil => rfl
  | cons token tokens ih =>
    have hrest := ih fun name args hmem => h name args (List.mem_cons_of_mem token hmem)
    cases token with
    | code symbols =>
      have hstays : (code symbols).Stays := trivial
      rw [expandCalls_cons_of_stays answers hstays, hrest]
      rfl
    | times count =>
      have hstays : (times count).Stays := trivial
      rw [expandCalls_cons_of_stays answers hstays, hrest]
      rfl
    | call name args =>
      rw [expandCalls_cons_call, h name args List.mem_cons_self, hrest]
      rfl

/-- **Repeats and calls may be expanded in either order.**  If all calls among the tokens have code,
the answer is the same tokens or the same error; and the error is that there is nothing to repeat, as
long as there are not too many copies. -/
theorem expandCalls_expandRepeats_comm (site : String)
    {answers : String → List String → Except Error String}
    (hanswers : ∀ name args, call name args ∈ tokens → ∃ symbols, answers name args = .ok symbols) :
    (expandRepeats site tokens).bind (expandCalls answers) =
        (expandCalls answers tokens).bind (expandRepeats site) ∧
      ∀ e, (expandRepeats site tokens).bind (expandCalls answers) = .error e →
        e = .nothingToRepeat site ∨
          ∃ count, times count ∈ tokens ∧ maxCopies < count ∧ e = .tooManyCopies site count.repr := by
  choose! codeOf hcode using hanswers
  -- The copies hold no other calls than those among the tokens.
  have hcopies : (expandRepeats site tokens).bind (expandCalls answers) =
      (expandRepeats site tokens).map (List.map (withCode codeOf)) := by
    cases hrepeats : expandRepeats site tokens with
    | error e => rfl
    | ok copies =>
      exact expandCalls_eq_map fun name args hmem =>
        hcode name args (mem_of_expandRepeats hrepeats _ hmem)
  constructor
  · rw [hcopies, expandCalls_eq_map hcode]
    exact (expandRepeats_map (keepsRepeats_withCode codeOf) tokens).symm
  · -- Of both answers it is the repeats that fail, for all calls have code.
    intro e he
    rw [hcopies] at he
    exact eq_of_expandRepeats_eq_error (map_eq_error he)

/-- A call without symbols and one with three, repeated in chains; and a repeat that finds nothing
left. -/
theorem expandCalls_expandRepeats_comm_chained :
    let answers : String → List String → Except Error String := fun name _ =>
      if name = "a" then .ok "" else if name = "b" then .ok "<->" else .error (.undefinedMacro name)
    let tokens := [call "a" [], times 2, times 0, call "b" ["x"], times 3, times 0, times 2]
    let none := [call "a" [], times 0, times 2]
    (∀ name args, call name args ∈ tokens ++ none → ∃ symbols, answers name args = .ok symbols) ∧
      (expandCalls answers tokens).bind (expandRepeats "m") =
        .ok [code "", code "<->", code "<->", code "<->"] ∧
      (expandCalls answers none).bind (expandRepeats "m") = .error (.nothingToRepeat "m") := by
  intro answers tokens none
  have hanswers : ∀ name args, call name args ∈ tokens ++ none →
      ∃ symbols, answers name args = .ok symbols := by
    intro name args hmem
    obtain ⟨rfl, rfl⟩ | ⟨rfl, rfl⟩ | ⟨rfl, rfl⟩ :
        name = "a" ∧ args = [] ∨ name = "b" ∧ args = ["x"] ∨ name = "a" ∧ args = [] := by
      simpa [tokens, none] using hmem
    · exact ⟨"", rfl⟩
    · exact ⟨"<->", rfl⟩
    · exact ⟨"", rfl⟩
  have htokens := expandCalls_expandRepeats_comm "m" fun name args hmem =>
    hanswers name args (List.mem_append_left none hmem)
  have hnone := expandCalls_expandRepeats_comm "m" fun name args hmem =>
    hanswers name args (List.mem_append_right tokens hmem)
  rw [← htokens.1, ← hnone.1]
  exact ⟨hanswers, rfl, rfl⟩

end TapeLang.Token
