import Mathlib.Data.List.Forall2
import TapeLang.Proofs.Brackets
import TapeLang.Proofs.Peephole.Rewriting

/-!
# Reduced programs

`Block.Reduces` says what the rules of the reduction do to a program: any number of patterns, at any
depth, are dropped.  Which operations cancel each other is a parameter.  A pattern may show only
after others are dropped, and so the rules look at what the rest of a block has been reduced to.
The relation is reflexive and transitive.

Main statement: a text and what it is reduced to are programs together, and the second program is
the first one reduced (`exists_parse_reduce`).  One rewriting of a text is one pattern dropped in
the innermost block that the parser has open there; what it reads afterwards keeps the blocks
related (`parseFrom_reduces`).
-/

namespace TapeLang

/-- The operation that undoes this one. -/
def Op.inverse? : Op → Option Op
  | increment => some decrement
  | decrement => some increment
  | left => some right
  | right => some left
  | output => none
  | input => none
  | dump => none

/-- The second operation undoes the first one. -/
def Op.Undoes (o o' : Op) : Prop := o.inverse? = some o'

theorem Op.Undoes.symm {o o' : Op} (h : o.Undoes o') : o'.Undoes o := by
  cases o <;> simp only [Undoes, inverse?, Option.some.injEq, reduceCtorEq] at h <;> subst h <;> rfl

namespace Block

/-- A program reduced: any patterns are dropped. -/
inductive Reduces (cancels : Op → Op → Prop) : Block → Block → Prop
  | done : Reduces cancels done done
  | op (o : Op) {next next' : Block} (h : Reduces cancels next next') :
      Reduces cancels (op o next) (op o next')
  /-- Operations that cancel each other are dropped. -/
  | cancel {o o' : Op} {next next' : Block} (ho : cancels o o')
      (h : Reduces cancels next (op o' next')) : Reduces cancels (op o next) next'
  | loop {body body' next next' : Block} (hbody : Reduces cancels body body')
      (h : Reduces cancels next next') : Reduces cancels (loop body next) (loop body' next')
  /-- A loop behind a loop is dropped. -/
  | deadLoop {body body' dead next next' : Block} (hbody : Reduces cancels body body')
      (h : Reduces cancels next (loop dead next')) :
      Reduces cancels (loop body next) (loop body' next')

variable {cancels : Op → Op → Prop}

namespace Reduces

theorem refl (b : Block) : Reduces cancels b b := by
  induction b with
  | done => exact done
  | op o next ih => exact op o ih
  | loop body next ihBody ihNext => exact loop ihBody ihNext

/-- Reducing again is reducing. -/
theorem trans {a b c : Block} (hab : Reduces cancels a b) (hbc : Reduces cancels b c) :
    Reduces cancels a c := by
  -- The induction is on the first reduction. The second one starts with what is left by it, and so
  -- its cases follow those of the first.
  induction hab generalizing c with
  | done => exact hbc
  | op o _ ih =>
    cases hbc with
    | op _ h => exact op o (ih h)
    | cancel ho h => exact cancel ho (ih h)
  | @cancel o o' next next' ho _ ih =>
    -- What is reduced further stands behind the operation that is still to be cancelled.
    exact cancel ho (ih (op o' hbc))
  | loop _ _ ihBody ihNext =>
    cases hbc with
    | loop hbody h => exact loop (ihBody hbody) (ihNext h)
    | deadLoop hbody h => exact deadLoop (ihBody hbody) (ihNext h)
  | @deadLoop body body' dead next next' _ _ ihBody ihNext =>
    cases hbc with
    | loop hbody h => exact deadLoop (ihBody hbody) (ihNext (loop (refl dead) h))
    | deadLoop hbody h => exact deadLoop (ihBody hbody) (ihNext (deadLoop (refl dead) h))

end Reduces

/-! ### Reading a rewritten text -/

/-- In front of any rest of the block, the second instructions are the first ones reduced; the last
instruction comes first. -/
def ReducesBefore (cancels : Op → Op → Prop) (is js : List Instruction) : Prop :=
  ∀ next next', Reduces cancels next next' →
    Reduces cancels (is.foldl Instruction.before next) (js.foldl Instruction.before next')

theorem ReducesBefore.refl (is : List Instruction) : ReducesBefore cancels is is := by
  intro next next' h
  induction is generalizing next next' with
  | nil => exact h
  | cons i is ih =>
    cases i with
    | op o => exact ih _ _ (.op o h)
    | loop body => exact ih _ _ (.loop (.refl body) h)

theorem ReducesBefore.op {is js : List Instruction} (h : ReducesBefore cancels is js) (o : Op) :
    ReducesBefore cancels (.op o :: is) (.op o :: js) :=
  fun _ _ hnext => h _ _ (.op o hnext)

theorem ReducesBefore.loop {is js : List Instruction} (h : ReducesBefore cancels is js)
    {body body' : Block} (hbody : Reduces cancels body body') :
    ReducesBefore cancels (.loop body :: is) (.loop body' :: js) :=
  fun _ _ hnext => h _ _ (.loop hbody hnext)

/-- The same text read into reduced blocks gives a reduced program. -/
theorem parseFrom_reduces {offset offset' : Nat} {enclosing enclosing' : List OpenLoop}
    {current current' : List Instruction} {cs : List Char} {program : Block}
    (henclosing : List.Forall₂ (fun l l' => ReducesBefore cancels l.before l'.before) enclosing
      enclosing')
    (hcurrent : ReducesBefore cancels current current')
    (hp : parseFrom offset enclosing current cs = .ok program) :
    ∃ program', parseFrom offset' enclosing' current' cs = .ok program' ∧
      Reduces cancels program program' := by
  -- The texts are the same, so both readings go on with the same kind of symbol; what is open and
  -- what was read before varies.
  induction cs generalizing offset offset' enclosing enclosing' current current' with
  | nil =>
    cases henclosing with
    | nil =>
      obtain rfl : ofReversed current = program := by simpa [parseFrom] using hp
      exact ⟨ofReversed current', rfl, hcurrent _ _ .done⟩
    | cons => simp [parseFrom] at hp
  | cons c cs ih =>
    by_cases hopen : c = '['
    · subst hopen
      rw [parseFrom_open] at hp ⊢
      exact ih (.cons hcurrent henclosing) (.refl []) hp
    by_cases hclose : c = ']'
    · subst hclose
      cases henclosing with
      | nil => simp [parseFrom_close_nil] at hp
      | cons hbefore houter =>
        rw [parseFrom_close] at hp ⊢
        exact ih houter (hbefore.loop (hcurrent _ _ .done)) hp
    cases hop : Op.ofSymbol? c with
    | none =>
      rw [parseFrom_comment _ _ _ hop hopen hclose] at hp ⊢
      exact ih henclosing hcurrent hp
    | some o =>
      rw [parseFrom_op _ _ _ hop] at hp ⊢
      exact ih henclosing (hcurrent.op o) hp

/-- The two symbols are operations that cancel each other. -/
def CancelSymbols (cancels : Op → Op → Prop) (first second : Char) : Prop :=
  ∃ o o', Op.ofSymbol? first = some o ∧ Op.ofSymbol? second = some o' ∧ cancels o o'

/-- Symbols that undo each other are operations that undo each other. -/
theorem cancelSymbols_of_undoes {first second : Char} (h : Peephole.undoes first second) :
    CancelSymbols Op.Undoes first second := by
  simp only [Peephole.undoes, Bool.or_eq_true, Bool.and_eq_true, beq_iff_eq] at h
  rcases h with ((⟨rfl, rfl⟩ | ⟨rfl, rfl⟩) | ⟨rfl, rfl⟩) | ⟨rfl, rfl⟩
  · exact ⟨.left, .right, rfl, rfl, rfl⟩
  · exact ⟨.right, .left, rfl, rfl, rfl⟩
  · exact ⟨.increment, .decrement, rfl, rfl, rfl⟩
  · exact ⟨.decrement, .increment, rfl, rfl, rfl⟩

/-- A text without brackets adds to the innermost block. -/
theorem exists_parseFrom_inner (offset : Nat) (enclosing : List OpenLoop)
    (current : List Instruction) {inner : List Char} (hinner : ∀ c ∈ inner, Peephole.isInner c) :
    ∃ current', ∀ cs, parseFrom offset enclosing current (inner ++ cs) =
      parseFrom (offset + inner.length) enclosing current' cs := by
  induction inner generalizing offset current with
  | nil => exact ⟨current, fun cs => rfl⟩
  | cons c inner ih =>
    simp only [List.cons_append, List.length_cons, Nat.add_comm inner.length, ← Nat.add_assoc]
    have hrest : ∀ c ∈ inner, Peephole.isInner c := fun c hc => hinner c (List.mem_cons_of_mem _ hc)
    obtain ⟨hopen, hclose⟩ : c ≠ '[' ∧ c ≠ ']' := by
      simpa [Peephole.isInner] using hinner c List.mem_cons_self
    cases hop : Op.ofSymbol? c with
    | none =>
      simp only [parseFrom_comment _ _ _ hop hopen hclose]
      exact ih _ _ hrest
    | some o =>
      simp only [parseFrom_op _ _ _ hop]
      exact ih _ _ hrest

/-- A rewritten program is a program, and the first one reduced. -/
theorem exists_parseFrom_of_rewrites {text text' : List Char} {program : Block}
    (h : Peephole.Rewrites (CancelSymbols cancels) text text')
    (hp : parseFrom 0 [] [] text = .ok program) :
    ∃ program', parseFrom 0 [] [] text' = .ok program' ∧ Reduces cancels program program' := by
  have hsame (enclosing : List OpenLoop) :
      List.Forall₂ (fun l l' => ReducesBefore cancels l.before l'.before) enclosing enclosing :=
    List.forall₂_same.mpr fun l _ => .refl l.before
  cases h with
  | @cancel front back first second hcancels =>
    -- The parser comes to the pattern with the same blocks open, and drops two operations.
    obtain ⟨o, o', ho, ho', hcancels⟩ := hcancels
    rcases exists_parseFrom_append 0 [] [] front with ⟨enclosing, current, hfront⟩ | ⟨e, hfront⟩
    · rw [hfront, parseFrom_op _ _ _ ho, parseFrom_op _ _ _ ho'] at hp
      rw [hfront]
      refine parseFrom_reduces (hsame enclosing) (fun next next' hnext => ?_) hp
      exact ReducesBefore.refl current _ _ (.cancel hcancels (.op o' hnext))
    · simp [hfront] at hp
  | @deadLoop front back inner hinner =>
    rcases exists_parseFrom_append 0 [] [] front with ⟨enclosing, current, hfront⟩ | ⟨e, hfront⟩
    · rw [hfront] at hp ⊢
      cases enclosing with
      | nil => simp [parseFrom_close_nil] at hp
      | cons innermost outer =>
        -- The first `]` ends a loop, and so the dead loop stands behind it in the same block.
        rw [parseFrom_close, parseFrom_open] at hp
        obtain ⟨dead, hdead⟩ := exists_parseFrom_inner (0 + front.length + 1 + 1)
          (⟨.loop (ofReversed current) :: innermost.before, 0 + front.length + 1⟩ :: outer) []
          hinner
        rw [hdead, parseFrom_close] at hp
        rw [parseFrom_close]
        refine parseFrom_reduces (hsame outer) (fun next next' hnext => ?_) hp
        exact ReducesBefore.refl innermost.before _ _
          (.deadLoop (.refl _) (.loop (.refl (ofReversed dead)) hnext))
    · simp [hfront] at hp

theorem exists_parseFrom_of_rewritings {text text' : List Char} {program : Block}
    (h : Relation.ReflTransGen (Peephole.Rewrites (CancelSymbols cancels)) text text')
    (hp : parseFrom 0 [] [] text = .ok program) :
    ∃ program', parseFrom 0 [] [] text' = .ok program' ∧ Reduces cancels program program' := by
  induction h with
  | refl => exact ⟨program, hp, .refl program⟩
  | tail _ hstep ih =>
    obtain ⟨program', hp', hreduces⟩ := ih
    obtain ⟨program'', hp'', hreduces'⟩ := exists_parseFrom_of_rewrites hstep hp'
    exact ⟨program'', hp'', hreduces.trans hreduces'⟩

/-- **A reduced text is a program** if the text is, and it is the program reduced. -/
theorem exists_parse_reduce {text : String} {program : Block} (hp : parse text = .ok program) :
    ∃ reduced, parse (Peephole.reduce text) = .ok reduced ∧ Reduces Op.Undoes program reduced := by
  have hrewrites : Relation.ReflTransGen (Peephole.Rewrites (CancelSymbols Op.Undoes)) text.toList
      (Peephole.reduce text).toList :=
    (Peephole.rewrites_reduce text).lift id fun _ _ h => h.mono fun _ _ => cancelSymbols_of_undoes
  exact exists_parseFrom_of_rewritings hrewrites hp

end Block
end TapeLang
