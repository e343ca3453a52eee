import Mathlib.Data.List.Basic
import TapeLang.Program.Parser

/-!
# Texts with balanced brackets

`Balanced` is a property of the text alone: no first part of it closes more loops than it opens, and
the whole closes as many as it opens.  `Spells` relates a program to its texts, comments included.

A text is refused for a `]` that closes nothing, or else for a `[` that is never closed.  Which of
the two it is can be told without a tree: `leftOpen` counts the loops that a text leaves open and
stops at a `]` where none is.  That number is zero for the texts with balanced brackets and no
others (`balanced_iff_leftOpen`), and `Reading` says what the parser makes of it
(`reading_parseFrom`).

So a text is read as a program if and only if it is balanced (`exists_parse_iff_balanced`), and it
spells the program that is read from it (`spells_of_parse`).  In the proof of the latter, `Reads`
says what the open blocks of a half-read text are worth.
-/

namespace TapeLang.Block

/-- A text with balanced brackets. -/
structure Balanced (text : List Char) : Prop where
  /-- No first part closes more loops than it opens. -/
  count_le : ∀ n, (text.take n).count ']' ≤ (text.take n).count '['
  /-- As many loops are closed as opened. -/
  count_eq : text.count ']' = text.count '['

/-- Only as many first parts as the text is long need to be looked at. -/
theorem balanced_iff {text : List Char} :
    Balanced text ↔ (∀ n < text.length, (text.take n).count ']' ≤ (text.take n).count '[') ∧
      text.count ']' = text.count '[' := by
  refine ⟨fun h => ⟨fun n _ => h.count_le n, h.count_eq⟩, fun h => ⟨fun n => ?_, h.2⟩⟩
  rcases Nat.lt_or_ge n text.length with hn | hn
  · exact h.1 n hn
  · rw [List.take_of_length_le hn]
    exact Nat.le_of_eq h.2

instance (text : List Char) : Decidable (Balanced text) := decidable_of_iff _ balanced_iff.symm

/-- The text is one of those that spell the program: its symbols in order, with comments
anywhere between them. -/
inductive Spells : Block → List Char → Prop
  | done : Spells done []
  /-- A comment spells nothing. -/
  | comment {b c cs} (hop : Op.ofSymbol? c = none) (hopen : c ≠ '[') (hclose : c ≠ ']')
      (next : Spells b cs) : Spells b (c :: cs)
  /-- An operation is spelled by its symbol. -/
  | op {o next c cs} (hop : Op.ofSymbol? c = some o) (rest : Spells next cs) :
      Spells (op o next) (c :: cs)
  /-- A loop is spelled by its body in brackets. -/
  | loop {body next inner cs} (hbody : Spells body inner) (rest : Spells next cs) :
      Spells (loop body next) ('[' :: (inner ++ ']' :: cs))

/-! ### The parser, character by character -/

section Parser

variable (offset : Nat) (enclosing : List OpenLoop) (current : List Instruction)

theorem parseFrom_op {c : Char} {o : Op} (hop : Op.ofSymbol? c = some o) (cs : List Char) :
    parseFrom offset enclosing current (c :: cs) =
      parseFrom (offset + 1) enclosing (.op o :: current) cs := by
  simp only [parseFrom, hop]

theorem parseFrom_open (cs : List Char) :
    parseFrom offset enclosing current ('[' :: cs) =
      parseFrom (offset + 1) (⟨current, offset⟩ :: enclosing) [] cs := rfl

theorem parseFrom_close (innermost : OpenLoop) (cs : List Char) :
    parseFrom offset (innermost :: enclosing) current (']' :: cs) =
      parseFrom (offset + 1) enclosing (.loop (ofReversed current) :: innermost.before) cs := rfl

theorem parseFrom_close_nil (cs : List Char) :
    parseFrom offset [] current (']' :: cs) = .error (.unmatched .closing offset) := rfl

theorem parseFrom_comment {c : Char} (hop : Op.ofSymbol? c = none) (hopen : c ≠ '[')
    (hclose : c ≠ ']') (cs : List Char) :
    parseFrom offset enclosing current (c :: cs) =
      parseFrom (offset + 1) enclosing current cs := by
  simp only [parseFrom, hop, hopen, hclose, if_false]

end Parser

theorem ne_bracket_of_ofSymbol? {c : Char} {o : Op} (hop : Op.ofSymbol? c = some o) :
    c ≠ '[' ∧ c ≠ ']' := by
  rw [← Op.symbol_of_ofSymbol? hop]
  cases o <;> decide

/-- A text read up to a place: what the parser has open there does not depend on the rest. -/
theorem exists_parseFrom_append (offset : Nat) (enclosing : List OpenLoop)
    (current : List Instruction) (front : List Char) :
    (∃ enclosing' current', ∀ cs, parseFrom offset enclosing current (front ++ cs) =
      parseFrom (offset + front.length) enclosing' current' cs) ∨
    ∃ e, ∀ cs, parseFrom offset enclosing current (front ++ cs) = .error e := by
  -- Character by character, as the parser goes; only a `]` with no loop open ends it.
  induction front generalizing offset enclosing current with
  | nil => exact .inl ⟨enclosing, current, fun cs => rfl⟩
  | cons c front ih =>
    simp only [List.cons_append, List.length_cons, Nat.add_comm front.length, ← Nat.add_assoc]
    by_cases hopen : c = '['
    · subst hopen
      simp only [parseFrom_open]
      exact ih _ _ _
    by_cases hclose : c = ']'
    · subst hclose
      cases enclosing with
      | nil => exact .inr ⟨_, fun cs => parseFrom_close_nil offset current (front ++ cs)⟩
      | cons innermost outer =>
        simp only [parseFrom_close]
        exact ih _ _ _
    cases hop : Op.ofSymbol? c with
    | none =>
      simp only [parseFrom_comment _ _ _ hop hopen hclose]
      exact ih _ _ _
    | some o =>
      simp only [parseFrom_op _ _ _ hop]
      exact ih _ _ _

/-! ### Loops left open -/

/-- How many loops are open behind one more character; none is the answer if it closes a loop and
there is none to close. -/
def openBehind (opened : Nat) (c : Char) : Option Nat :=
  if c = '[' then some (opened + 1)
  else if c = ']' then
    match opened with
    | 0 => none
    | outer + 1 => some outer
  else some opened

/-- How many loops a text leaves open, of those open before it and its own; there is no answer
if it closes one too many. -/
def leftOpen (opened : Nat) (cs : List Char) : Option Nat := cs.foldlM openBehind opened

section

variable (opened : Nat) (cs : List Char)

theorem leftOpen_open : leftOpen opened ('[' :: cs) = leftOpen (opened + 1) cs := rfl

theorem leftOpen_close : leftOpen (opened + 1) (']' :: cs) = leftOpen opened cs := rfl

theorem leftOpen_close_zero : leftOpen 0 (']' :: cs) = none := rfl

theorem leftOpen_cons_of_ne {c : Char} (hopen : c ≠ '[') (hclose : c ≠ ']') :
    leftOpen opened (c :: cs) = leftOpen opened cs := by
  simp [leftOpen, openBehind, hopen, hclose]

theorem leftOpen_append (front : List Char) :
    leftOpen opened (front ++ cs) = (leftOpen opened front).bind fun n => leftOpen n cs :=
  List.foldlM_append

end

/-- A text leaves so many loops open if no first part of it closes more than there are, and what
it opens is closed but for so many. -/
theorem leftOpen_eq_some_iff {opened n : Nat} {cs : List Char} :
    leftOpen opened cs = some n ↔
      (∀ i, (cs.take i).count ']' ≤ opened + (cs.take i).count '[') ∧
        cs.count ']' + n = opened + cs.count '[' := by
  -- The induction is on the text, and the number of loops that are open before it varies.
  induction cs generalizing opened with
  | nil =>
    have hnil : leftOpen opened [] = some opened := rfl
    simp only [hnil, Option.some.injEq, List.take_nil, List.count_nil, Nat.zero_le, implies_true,
      true_and, Nat.zero_add, Nat.add_zero]
    exact eq_comm
  | cons c cs ih =>
    -- The first part without any character closes nothing, and any other one starts with `c`.
    have htake : (∀ i, ((c :: cs).take i).count ']' ≤ opened + ((c :: cs).take i).count '[') ↔
        ∀ i, (c :: cs.take i).count ']' ≤ opened + (c :: cs.take i).count '[' := by
      refine ⟨fun h i => h (i + 1), fun h i => ?_⟩
      cases i with
      | zero => simp
      | succ i => exact h i
    rw [htake]
    by_cases hopen : c = '['
    · subst hopen
      simp only [leftOpen_open, ih, List.count_cons, beq_self_eq_true, if_true,
        show ('[' == ']') = false from rfl, Bool.false_eq_true, if_false]
      refine and_congr (forall_congr' fun i => ?_) ?_ <;> omega
    by_cases hclose : c = ']'
    · subst hclose
      simp only [List.count_cons, beq_self_eq_true, if_true, show (']' == '[') = false from rfl,
        Bool.false_eq_true, if_false]
      cases opened with
      | zero =>
        -- With no loop open the `]` itself is a first part that closes too much.
        rw [leftOpen_close_zero]
        constructor
        · intro h
          cases h
        · intro h
          have hfirst := h.1 0
          simp at hfirst
      | succ outer =>
        rw [leftOpen_close, ih]
        refine and_congr (forall_congr' fun i => ?_) ?_ <;> omega
    · rw [leftOpen_cons_of_ne _ _ hopen hclose, ih]
      simp [hopen, hclose]

theorem balanced_iff_leftOpen {cs : List Char} : Balanced cs ↔ leftOpen 0 cs = some 0 := by
  rw [leftOpen_eq_some_iff]
  simp only [Nat.zero_add, Nat.add_zero]
  exact ⟨fun h => ⟨h.count_le, h.count_eq⟩, fun h => ⟨h.1, h.2⟩⟩

/-! ### What reading comes to -/

/-- What reading comes to, by the number of loops left open. -/
inductive Reading : Option Nat → Except Error Block → Prop
  | program (b : Block) : Reading (some 0) (.ok b)
  | unclosed (n offset : Nat) : Reading (some (n + 1)) (.error (.unmatched .opening offset))
  | stray (offset : Nat) : Reading none (.error (.unmatched .closing offset))

theorem reading_parseFrom (offset : Nat) (enclosing : List OpenLoop) (current : List Instruction)
    (cs : List Char) :
    Reading (leftOpen enclosing.length cs) (parseFrom offset enclosing current cs) := by
  -- The parser and the count go through the text together, with as many loops open.
  induction cs generalizing offset enclosing current with
  | nil =>
    cases enclosing with
    | nil => exact .program (ofReversed current)
    | cons innermost outer => exact .unclosed outer.length innermost.offset
  | cons c cs ih =>
    by_cases hopen : c = '['
    · subst hopen
      exact ih (offset + 1) (⟨current, offset⟩ :: enclosing) []
    by_cases hclose : c = ']'
    · subst hclose
      cases enclosing with
      | nil => exact .stray offset
      | cons innermost outer => exact ih (offset + 1) outer _
    rw [leftOpen_cons_of_ne _ _ hopen hclose]
    cases hop : Op.ofSymbol? c with
    | none =>
      rw [parseFrom_comment _ _ _ hop hopen hclose]
      exact ih (offset + 1) enclosing current
    | some o =>
      rw [parseFrom_op _ _ _ hop]
      exact ih (offset + 1) enclosing (.op o :: current)

theorem reading_parse (text : String) : Reading (leftOpen 0 text.toList) (parse text) :=
  reading_parseFrom 0 [] [] text.toList

theorem Reading.exists_ok_iff {left : Option Nat} {result : Except Error Block}
    (h : Reading left result) : (∃ program, result = .ok program) ↔ left = some 0 := by
  cases h <;> simp

/-- Results for the same number are both errors for the same kind of bracket, or none is one. -/
theorem Reading.exists_unmatched {left : Option Nat} {e e' : Error}
    (h : Reading left (.error e)) (h' : Reading left (.error e')) :
    ∃ bracket offset offset', e = .unmatched bracket offset ∧ e' = .unmatched bracket offset' := by
  cases h with
  | unclosed n offset => cases h' with | unclosed n offset' => exact ⟨_, _, _, rfl, rfl⟩
  | stray offset => cases h' with | stray offset' => exact ⟨_, _, _, rfl, rfl⟩

/-- **A text is read if and only if its brackets are balanced.** -/
theorem exists_parse_iff_balanced {text : String} :
    (∃ program, parse text = .ok program) ↔ Balanced text.toList := by
  rw [(reading_parse text).exists_ok_iff, balanced_iff_leftOpen]

/-- A text with balanced brackets is a program. -/
theorem exists_parse_of_balanced {text : String} (h : Balanced text.toList) :
    ∃ program, parse text = .ok program :=
  exists_parse_iff_balanced.mpr h

/-! ### A text spells the program read from it -/

/-- The text spells the instructions, whatever follows it; the last instruction comes first. -/
def SpellsBefore (instructions : List Instruction) (front : List Char) : Prop :=
  ∀ b cs, Spells b cs → Spells (instructions.foldl Instruction.before b) (front ++ cs)

theorem spellsBefore_nil : SpellsBefore [] [] := fun _ _ hb => hb

/-- A text that was read so far spells the open blocks. -/
inductive Reads : List OpenLoop → List Instruction → List Char → Prop
  | top {current front} (h : SpellsBefore current front) : Reads [] current front
  | inside {innermost outer current front inner} (hbefore : Reads outer innermost.before front)
      (h : SpellsBefore current inner) :
      Reads (innermost :: outer) current (front ++ '[' :: inner)

theorem Reads.append {enclosing : List OpenLoop} {current current' : List Instruction}
    {front more : List Char} (hr : Reads enclosing current front)
    (hmore : ∀ inner, SpellsBefore current inner → SpellsBefore current' (inner ++ more)) :
    Reads enclosing current' (front ++ more) := by
  cases hr with
  | top h => exact top (hmore _ h)
  | inside hbefore h =>
    rw [List.append_assoc, List.cons_append]
    exact inside hbefore (hmore _ h)

/-- What is read so far, and the rest of the text. -/
theorem Reads.spells {offset : Nat} {enclosing : List OpenLoop} {current : List Instruction}
    {front cs : List Char} {program : Block} (hr : Reads enclosing current front)
    (hp : parseFrom offset enclosing current cs = .ok program) : Spells program (front ++ cs) := by
  induction cs generalizing offset enclosing current front with
  | nil =>
    cases hr with
    | top h =>
      obtain rfl : ofReversed current = program := by simpa [parseFrom] using hp
      exact h .done [] .done
    | inside => simp [parseFrom] at hp
  | cons c cs ih =>
    rw [List.append_cons]
    by_cases hopen : c = '['
    · subst hopen
      rw [parseFrom_open] at hp
      exact ih (.inside hr spellsBefore_nil) hp
    by_cases hclose : c = ']'
    · subst hclose
      cases hr with
      | top => simp [parseFrom_close_nil] at hp
      | @inside innermost outer _ front inner hbefore h =>
        -- The innermost block is complete: its text in brackets spells a loop of the outer one.
        rw [parseFrom_close] at hp
        have hbody : Spells (ofReversed current) inner := by
          simpa [ofReversed] using h .done [] .done
        have hloop : Reads outer (.loop (ofReversed current) :: innermost.before)
            (front ++ ('[' :: inner ++ [']'])) :=
          hbefore.append fun x hx b cs hb => by
            simpa [Instruction.before] using hx _ _ (Spells.loop hbody hb)
        simpa using ih hloop hp
    cases hop : Op.ofSymbol? c with
    | none =>
      rw [parseFrom_comment offset enclosing current hop hopen hclose] at hp
      refine ih (hr.append fun x hx b cs hb => ?_) hp
      simpa using hx _ _ (Spells.comment hop hopen hclose hb)
    | some o =>
      rw [parseFrom_op offset enclosing current hop] at hp
      refine ih (hr.append fun x hx b cs hb => ?_) hp
      simpa [Instruction.before] using hx _ _ (Spells.op hop hb)

/-- **A text spells the program that is read from it.** -/
theorem spells_of_parse {text : String} {program : Block} (hp : parse text = .ok program) :
    Spells program text.toList :=
  Reads.spells (.top spellsBefore_nil) hp

end TapeLang.Block
