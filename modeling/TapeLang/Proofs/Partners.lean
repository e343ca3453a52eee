import Mathlib.Order.Bounds.Basic
import TapeLang.Proofs.Brackets

/-!
# Brackets without a partner

A `[` and a `]` are partners if the text between them is balanced (`Partners`).  In a balanced text
every `[` has one (`exists_partners_of_balanced`): the text behind it closes more loops than it
opens, and the `]` that does so first is the partner.

A text that is read up to some place falls into pieces: balanced ones, and between them each `[` of
a loop that is open there (`Opens`).  So the loop opened last has no partner, and no `[` behind it
is without one (`Opens.isGreatest`).  And if the next character is a `]` that closes nothing, all
the text before it is one balanced piece (`isLeast_overClosedAt`).

Main statement: a text is refused for the first `]` too many, or else for the last `[` without a
partner (`parse_blames`).
-/

namespace TapeLang.Block

/-! ### Partners -/

/-- The first part of the text that ends with the character at `i` closes more loops than it
opens. -/
def OverClosedAt (text : List Char) (i : Nat) : Prop :=
  i < text.length ∧ (text.take (i + 1)).count '[' < (text.take (i + 1)).count ']'

/-- The `[` at `i` and the `]` at `j` are partners: the text between them is balanced. -/
def Partners (text : List Char) (i j : Nat) : Prop :=
  ∃ front inner back, text = front ++ '[' :: (inner ++ ']' :: back) ∧ Balanced inner ∧
    front.length = i ∧ i + 1 + inner.length = j

/-- There is a `[` at `i`, and it has no partner. -/
def UnclosedAt (text : List Char) (i : Nat) : Prop :=
  text[i]? = some '[' ∧ ∀ j, ¬Partners text i j

variable {text front inner back cs : List Char} {i : Nat}

/-- A text is cut at a character of it. -/
theorem exists_eq_append_cons {c : Char} (h : text[i]? = some c) :
    ∃ front back, text = front ++ c :: back ∧ front.length = i := by
  obtain ⟨hi, rfl⟩ := List.getElem?_eq_some_iff.mp h
  refine ⟨text.take i, text.drop (i + 1), ?_, List.length_take_of_le (Nat.le_of_lt hi)⟩
  rw [List.getElem_cons_drop, List.take_append_drop]

/-! ### Balanced pieces -/

/-- A balanced text leaves open what is open. -/
theorem Balanced.leftOpen_eq (h : Balanced cs) (opened : Nat) :
    leftOpen opened cs = some opened := by
  have hcount := h.count_eq
  refine leftOpen_eq_some_iff.mpr ⟨fun n => ?_, by omega⟩
  have hle := h.count_le n
  omega

theorem balanced_nil : Balanced [] := balanced_iff_leftOpen.mpr rfl

theorem balanced_singleton {c : Char} (hopen : c ≠ '[') (hclose : c ≠ ']') : Balanced [c] := by
  rw [balanced_iff_leftOpen, leftOpen_cons_of_ne _ _ hopen hclose]
  rfl

theorem Balanced.append (h : Balanced front) (h' : Balanced back) : Balanced (front ++ back) := by
  rw [balanced_iff_leftOpen, leftOpen_append, h.leftOpen_eq, Option.bind_some, h'.leftOpen_eq]

/-- A loop over a balanced text is balanced. -/
theorem Balanced.bracketed (h : Balanced inner) : Balanced ('[' :: (inner ++ [']'])) := by
  rw [balanced_iff_leftOpen, leftOpen_open, leftOpen_append, h.leftOpen_eq, Option.bind_some]
  rfl

/-- A text that closes too much has a first `]` that closes nothing, behind a part that closes
all that is open. -/
theorem exists_eq_of_leftOpen_eq_none {opened : Nat} (h : leftOpen opened cs = none) :
    ∃ inner back, cs = inner ++ ']' :: back ∧ leftOpen opened inner = some 0 := by
  -- The number of loops open varies; where it would fall below none, the `]` is found.
  induction cs generalizing opened with
  | nil => cases h
  | cons c cs ih =>
    by_cases hopen : c = '['
    · subst hopen
      obtain ⟨inner, back, rfl, hinner⟩ := ih h
      exact ⟨'[' :: inner, back, rfl, hinner⟩
    by_cases hclose : c = ']'
    · subst hclose
      cases opened with
      | zero => exact ⟨[], cs, rfl, rfl⟩
      | succ outer =>
        obtain ⟨inner, back, rfl, hinner⟩ := ih h
        exact ⟨']' :: inner, back, rfl, hinner⟩
    rw [leftOpen_cons_of_ne _ _ hopen hclose] at h
    obtain ⟨inner, back, rfl, hinner⟩ := ih h
    refine ⟨c :: inner, back, rfl, ?_⟩
    rwa [leftOpen_cons_of_ne _ _ hopen hclose]

/-- In a balanced text every `[` has a partner. -/
theorem exists_partners_of_balanced (h : Balanced text) (hi : text[i]? = some '[') :
    ∃ j, Partners text i j := by
  obtain ⟨front, rest, rfl, hlength⟩ := exists_eq_append_cons hi
  -- The rest closes the loop at `i` too, so more than it opens.
  have hfront := h.count_le front.length
  have hcount := h.count_eq
  rw [List.take_left] at hfront
  simp only [List.count_append, List.count_cons_self,
    List.count_cons_of_ne (show '[' ≠ ']' by decide)] at hcount
  have hnone : leftOpen 0 rest = none := by
    cases hleft : leftOpen 0 rest with
    | none => rfl
    | some n =>
      have hrest := (leftOpen_eq_some_iff.mp hleft).2
      omega
  obtain ⟨inner, back, rfl, hinner⟩ := exists_eq_of_leftOpen_eq_none hnone
  exact ⟨_, front, inner, back, rfl, balanced_iff_leftOpen.mpr hinner, hlength, rfl⟩

/-- A `]` behind a balanced text is the first one that closes nothing. -/
theorem isLeast_overClosedAt (h : Balanced front) (back : List Char) :
    IsLeast {i | OverClosedAt (front ++ ']' :: back) i} front.length := by
  constructor
  · have htake : (front ++ ']' :: back).take (front.length + 1) = front ++ [']'] := by
      rw [List.append_cons]
      exact List.take_left' (by simp)
    have hcount := h.count_eq
    refine ⟨by simp, ?_⟩
    rw [htake, List.count_append, List.count_append, List.count_singleton_self, hcount]
    simp
  · -- An earlier place lies in the balanced text, which closes nothing too much.
    intro i hi
    by_contra hlt
    have htake : (front ++ ']' :: back).take (i + 1) = front.take (i + 1) :=
      List.take_append_of_le_length (by omega)
    have hle := h.count_le (i + 1)
    have hover := hi.2
    rw [htake] at hover
    omega

/-- A text closes nothing too much if the number of loops it leaves open has an answer. -/
theorem not_overClosedAt_of_leftOpen {n : Nat} (h : leftOpen 0 text = some n) (i : Nat) :
    ¬OverClosedAt text i := by
  rintro ⟨-, hover⟩
  have hle := (leftOpen_eq_some_iff.mp h).1 (i + 1)
  omega

/-! ### What is open -/

/-- The text is one that opens the loops and leaves them open, innermost first: behind the `[`
of each, at the offset of the loop, there is a balanced text. -/
inductive Opens : List OpenLoop → List Char → Prop
  | outside {front : List Char} (h : Balanced front) : Opens [] front
  | inside {innermost : OpenLoop} {outer : List OpenLoop} {front inner : List Char}
      (houter : Opens outer front) (hoffset : innermost.offset = front.length)
      (h : Balanced inner) : Opens (innermost :: outer) (front ++ '[' :: inner)

namespace Opens

variable {innermost : OpenLoop} {outer enclosing : List OpenLoop}

theorem append (h : Opens enclosing front) (hback : Balanced back) :
    Opens enclosing (front ++ back) := by
  cases h with
  | outside hfront => exact outside (hfront.append hback)
  | inside houter hoffset hinner =>
    rw [List.append_assoc, List.cons_append]
    exact inside houter hoffset (hinner.append hback)

/-- A `[` opens one more loop. -/
theorem enter (h : Opens enclosing front) (hoffset : innermost.offset = front.length) :
    Opens (innermost :: enclosing) (front ++ ['[']) :=
  inside h hoffset balanced_nil

/-- A `]` closes the loop that was opened last. -/
theorem leave (h : Opens (innermost :: outer) front) : Opens outer (front ++ [']']) := by
  cases h with
  | inside houter _ hinner =>
    rw [List.append_assoc, List.cons_append]
    exact houter.append hinner.bracketed

/-- As many loops are left open as there are. -/
theorem leftOpen_eq (h : Opens enclosing text) : leftOpen 0 text = some enclosing.length := by
  induction h with
  | outside h => exact h.leftOpen_eq 0
  | inside _ _ hinner ih =>
    rw [leftOpen_append, ih, Option.bind_some, leftOpen_open, hinner.leftOpen_eq, List.length_cons]

/-- The loop opened last is the last one without a partner. -/
theorem isGreatest (h : Opens (innermost :: outer) text) :
    IsGreatest {i | UnclosedAt text i} innermost.offset := by
  cases h with
  | @inside _ _ front inner _ hoffset hinner =>
    rw [hoffset]
    refine ⟨⟨by simp, ?_⟩, ?_⟩
    · rintro j ⟨front', inner', back, heq, hinner', hlength, -⟩
      obtain ⟨rfl, hrest⟩ := List.append_inj heq hlength.symm
      obtain rfl := (List.cons.inj hrest).2
      -- A partner would close more than the text behind the `[` opens.
      have hstray := hinner.leftOpen_eq 0
      rw [leftOpen_append, hinner'.leftOpen_eq, Option.bind_some, leftOpen_close_zero] at hstray
      cases hstray
    · -- A `[` behind the innermost one stands in a balanced text, where it has a partner.
      rintro i ⟨hi, hunclosed⟩
      by_contra hlt
      have hbehind : inner[i - (front.length + 1)]? = some '[' := by
        rw [List.append_cons, List.getElem?_append_right (by simp; omega)] at hi
        simpa using hi
      obtain ⟨_, before, body, back, rfl, hbody, hlength, -⟩ :=
        exists_partners_of_balanced hinner hbehind
      refine hunclosed _ ⟨front ++ '[' :: before, body, back, by simp, hbody, ?_, rfl⟩
      simp only [List.length_append, List.length_cons]
      omega

end Opens

/-! ### Which bracket is blamed -/

/-- What is answered about a text, by its brackets. -/
inductive Blames (text : List Char) : Except Error Block → Prop
  | program (b : Block) (h : Balanced text) : Blames text (.ok b)
  | stray {k : Nat} (h : IsLeast {i | OverClosedAt text i} k) :
      Blames text (.error (.unmatched .closing k))
  | unclosed {k : Nat} (hover : ∀ i, ¬OverClosedAt text i) (hbalanced : ¬Balanced text)
      (h : IsGreatest {i | UnclosedAt text i} k) : Blames text (.error (.unmatched .opening k))

theorem blames_parseFrom {enclosing : List OpenLoop} (h : Opens enclosing front)
    (current : List Instruction) (cs : List Char) :
    Blames (front ++ cs) (parseFrom front.length enclosing current cs) := by
  -- What is open is told by the brackets read, and this is kept character by character.
  induction cs generalizing enclosing front current with
  | nil =>
    rw [List.append_nil]
    have hleft := h.leftOpen_eq
    cases enclosing with
    | nil => exact .program _ (balanced_iff_leftOpen.mpr hleft)
    | cons innermost outer =>
      refine .unclosed (not_overClosedAt_of_leftOpen hleft) ?_ h.isGreatest
      rw [balanced_iff_leftOpen, hleft]
      simp
  | cons c cs ih =>
    have hnext : front.length + 1 = (front ++ [c]).length := by simp
    by_cases hopen : c = '['
    · subst hopen
      rw [parseFrom_open, List.append_cons, hnext]
      exact ih (h.enter rfl) []
    by_cases hclose : c = ']'
    · subst hclose
      cases enclosing with
      | nil =>
        rw [parseFrom_close_nil]
        -- Nothing is open, so all that was read is balanced and this `]` is the first one too many.
        exact .stray (isLeast_overClosedAt (balanced_iff_leftOpen.mpr h.leftOpen_eq) cs)
      | cons innermost outer =>
        rw [parseFrom_close, List.append_cons, hnext]
        exact ih h.leave _
    have hbehind := h.append (balanced_singleton hopen hclose)
    cases hop : Op.ofSymbol? c with
    | none =>
      rw [parseFrom_comment _ _ _ hop hopen hclose, List.append_cons, hnext]
      exact ih hbehind current
    | some o =>
      rw [parseFrom_op _ _ _ hop, List.append_cons, hnext]
      exact ih hbehind (.op o :: current)

theorem blames_parse (text : String) : Blames text.toList (parse text) :=
  blames_parseFrom (.outside balanced_nil) [] text.toList

theorem Balanced.not_overClosedAt (h : Balanced text) (i : Nat) : ¬OverClosedAt text i :=
  not_overClosedAt_of_leftOpen (balanced_iff_leftOpen.mp h) i

namespace Blames

variable {answer : Except Error Block} {k : Nat}

/-- **A `]` is blamed** if and only if it is the first that closes nothing. -/
theorem closing_iff (h : Blames text answer) :
    answer = .error (.unmatched .closing k) ↔ IsLeast {i | OverClosedAt text i} k := by
  cases h with
  | program b hbalanced =>
    simp only [reduceCtorEq, false_iff]
    exact fun hleast => hbalanced.not_overClosedAt k hleast.1
  | stray hleast =>
    simp only [Except.error.injEq, Error.unmatched.injEq, true_and]
    exact ⟨fun heq => heq ▸ hleast, fun hleast' => hleast.unique hleast'⟩
  | unclosed hover _ _ =>
    simp only [Except.error.injEq, Error.unmatched.injEq, reduceCtorEq, false_and, false_iff]
    exact fun hleast => hover k hleast.1

/-- **A `[` is blamed** if and only if no `]` is, and it is the last without a partner. -/
theorem opening_iff (h : Blames text answer) :
    answer = .error (.unmatched .opening k) ↔
      (∀ i, ¬OverClosedAt text i) ∧ ¬Balanced text ∧ IsGreatest {i | UnclosedAt text i} k := by
  cases h with
  | program b hbalanced => simp [hbalanced]
  | stray hleast =>
    simp only [Except.error.injEq, Error.unmatched.injEq, reduceCtorEq, false_and, false_iff]
    exact fun hopening => hopening.1 _ hleast.1
  | unclosed hover hbalanced hgreatest =>
    simp only [Except.error.injEq, Error.unmatched.injEq, true_and]
    exact ⟨fun heq => heq ▸ ⟨hover, hbalanced, hgreatest⟩,
      fun hopening => hgreatest.unique hopening.2.2⟩

theorem ok_iff (h : Blames text answer) :
    (∃ program, answer = .ok program) ↔ Balanced text := by
  cases h with
  | program b hbalanced => exact iff_of_true ⟨b, rfl⟩ hbalanced
  | stray hleast =>
    exact iff_of_false (by simp) fun hbalanced => hbalanced.not_overClosedAt _ hleast.1
  | unclosed _ hbalanced _ => exact iff_of_false (by simp) hbalanced

theorem ok_or_unmatched (h : Blames text answer) :
    (∃ program, answer = .ok program) ∨ ∃ bracket k, answer = .error (.unmatched bracket k) := by
  cases h with
  | program b _ => exact .inl ⟨b, rfl⟩
  | stray _ => exact .inr ⟨_, _, rfl⟩
  | unclosed _ _ _ => exact .inr ⟨_, _, rfl⟩

end Blames

/-- **A text is read, or the right bracket is blamed.**  A text is refused for a `]` if and only if
it is the first one that closes nothing.  It is refused for a `[` if and only if there is no such
`]`, the brackets are not balanced, and the `[` is the last one without a partner.  Any other text
is read, and these are the texts with balanced brackets.  All characters count, comments too. -/
theorem parse_blames (text : String) :
    (∀ k, parse text = .error (.unmatched .closing k) ↔
      IsLeast {i | OverClosedAt text.toList i} k) ∧
    (∀ k, parse text = .error (.unmatched .opening k) ↔
      (∀ i, ¬OverClosedAt text.toList i) ∧ ¬Balanced text.toList ∧
        IsGreatest {i | UnclosedAt text.toList i} k) ∧
    ((∃ program, parse text = .ok program) ↔ Balanced text.toList) ∧
    ((∃ program, parse text = .ok program) ∨
      ∃ bracket k, parse text = .error (.unmatched bracket k)) := by
  have hblames := blames_parse text
  exact ⟨fun _ => hblames.closing_iff, fun _ => hblames.opening_iff, hblames.ok_iff,
    hblames.ok_or_unmatched⟩

/-- Of two brackets without a partner the last one is blamed, and a comment counts. -/
example : parse "[[-]à[+[.]" = .error (.unmatched .opening 5) := rfl

end TapeLang.Block
