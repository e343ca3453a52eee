import Mathlib.Data.List.TakeWhile
import TapeLang.Proofs.Expansion.Code

/-!
# What a lexeme stands for

The rules of the lexer are programs; here they are a grammar.  A lexeme *stands* as a word in front
of a rest (`Lexeme.Stands`).  The rest matters where a rule takes all it can get: a name and blanks
are as long as can be, a name takes the list in parentheses behind it, and a space is part of the
repeat behind it.

The lexer reads what stands there (`next?_eq_some_iff`).  Behind a shorter rest the same lexeme
stands (`Stands.of_append`), and where nothing can be read, nothing can be read of a first part
either (`next?_eq_none_of_append`).
-/

namespace TapeLang.Lexeme

/-! ### The grammar -/

/-- At most one space. -/
def IsGap (space : List Char) : Prop := space = [] ∨ space = [' ']

/-- At least one digit, and digits only. -/
def IsNumeral (digits : List Char) : Prop := digits ≠ [] ∧ ∀ d ∈ digits, d.isDigit = true

/-- A name that can be called: a word that starts with no digit. -/
def IsName : List Char → Prop
  | [] => False
  | c :: cs => Text.isWordStart c = true ∧ ∀ d ∈ cs, Text.isWordChar d = true

/-- The lexeme stands as the word in front of the rest. -/
inductive Stands : Lexeme → List Char → List Char → Prop
  | symbol {c rest} (h : isSymbol c = true) : Stands (symbol c) [c] rest
  | times {space digits rest} (hspace : IsGap space) (hdigits : IsNumeral digits) :
      Stands (times digits) (space ++ '{' :: (digits ++ ['}'])) rest
  /-- A name, and a list of arguments behind it. -/
  | list {name space list rest} (hname : IsName name) (hspace : IsGap space)
      (hlist : ∀ c ∈ list, isListChar c = true) :
      Stands (call name (some list)) (name ++ (space ++ '(' :: (list ++ [')']))) rest
  /-- A name that ends where the rest starts, and no list of arguments there. -/
  | name {name rest} (hname : IsName name) (hend : ∀ c ∈ rest.head?, Text.isWordChar c = false)
      (hlist : list? rest = none) : Stands (call name none) name rest
  /-- Blanks that end where the rest starts, and no repeat that the first of them is part of. -/
  | blanks {c cs rest} (hblank : ∀ d ∈ c :: cs, Text.isBlank d = true)
      (hend : ∀ d ∈ rest.head?, Text.isBlank d = false) (htimes : times? (c :: cs ++ rest) = none) :
      Stands layout (c :: cs) rest
  | comment {inner rest} (h : '#' ∉ inner) : Stands layout ('#' :: (inner ++ ['#'])) rest

variable {lexeme : Lexeme} {cs rest more word name list digits space : List Char} {c : Char}

/-! ### Characters -/

/-- Symbols start no name and are no blanks. -/
theorem of_isSymbol (h : isSymbol c = true) :
    Text.isWordStart c = false ∧ Text.isBlank c = false := by
  simp only [isSymbol, Bool.or_eq_true, beq_iff_eq] at h
  obtain (((((((rfl | rfl) | rfl) | rfl) | rfl) | rfl) | rfl) | rfl) | rfl := h <;> decide

theorem isSymbol_of_isWordStart (h : Text.isWordStart c = true) : isSymbol c = false := by
  cases hsymbol : isSymbol c with
  | false => rfl
  | true => rw [(of_isSymbol hsymbol).1] at h; cases h

theorem isSymbol_of_isBlank (h : Text.isBlank c = true) : isSymbol c = false := by
  cases hsymbol : isSymbol c with
  | false => rfl
  | true => rw [(of_isSymbol hsymbol).2] at h; cases h

theorem isWordStart_of_isBlank (h : Text.isBlank c = true) : Text.isWordStart c = false := by
  cases hword : Text.isWordStart c with
  | false => rfl
  | true =>
    simp only [Text.isWordStart, Bool.or_eq_true, beq_iff_eq] at hword
    obtain hletter | rfl := hword
    · -- No blank lies between the letters: it is below them or above.
      have hcases : (decide (c.val ≥ 'A'.val ∧ c.val ≤ 'Z'.val) ||
          (decide (c.val ≥ 'a'.val) && decide (c.val ≤ 'z'.val))) = true := hletter
      simp only [Bool.or_eq_true, Bool.and_eq_true, decide_eq_true_eq, ge_iff_le,
        UInt32.le_iff_toNat_le] at hcases
      simp only [Text.isBlank, Bool.or_eq_true, Bool.and_eq_true, decide_eq_true_eq,
        beq_iff_eq] at h
      have hval : c.toNat = c.val.toNat := rfl
      have hA : 'A'.val.toNat = 65 := rfl
      have hZ : 'Z'.val.toNat = 90 := rfl
      have ha : 'a'.val.toNat = 97 := rfl
      have hz : 'z'.val.toNat = 122 := rfl
      obtain hupper | hlower := hcases <;> omega
    · cases h

/-! ### Runs of characters -/

section

variable {p : Char → Bool} {front : List Char}

theorem takeWhile_append_of_head? (h : ∀ c ∈ front, p c = true)
    (hend : ∀ c ∈ rest.head?, p c = false) : (front ++ rest).takeWhile p = front := by
  rw [List.takeWhile_append_of_pos h]
  cases rest with
  | nil => simp
  | cons c rest => simp [hend c rfl]

theorem dropWhile_append_of_head? (h : ∀ c ∈ front, p c = true)
    (hend : ∀ c ∈ rest.head?, p c = false) : (front ++ rest).dropWhile p = rest := by
  rw [List.dropWhile_append_of_pos h]
  cases rest with
  | nil => rfl
  | cons c rest => simp [hend c rfl]

/-- What is left behind a run does not continue it. -/
theorem eq_false_of_mem_head?_dropWhile : ∀ c ∈ (cs.dropWhile p).head?, p c = false := by
  intro c hc
  have hnot := List.head?_dropWhile_not p cs
  rw [Option.mem_def.mp hc] at hnot
  simpa using hnot

end

/-! ### The parts of the rules -/

theorem exists_eq_append_skipSpace (cs : List Char) :
    ∃ space, IsGap space ∧ cs = space ++ skipSpace cs := by
  unfold skipSpace
  split
  · exact ⟨[' '], .inr rfl, rfl⟩
  · exact ⟨[], .inl rfl, rfl⟩

theorem skipSpace_append (hspace : IsGap space) (hc : c ≠ ' ') (cs : List Char) :
    skipSpace (space ++ c :: cs) = c :: cs := by
  obtain rfl | rfl := hspace
  · unfold skipSpace
    split
    · next heq => exact absurd (List.cons.inj heq).1 hc
    · rfl
  · rfl

/-- A repeat is digits in braces. -/
theorem times?_eq_some_iff : times? cs = some (digits, rest) ↔
    ∃ space, IsGap space ∧ IsNumeral digits ∧ cs = space ++ '{' :: (digits ++ '}' :: rest) := by
  constructor
  · intro h
    obtain ⟨space, hspace, heq⟩ := exists_eq_append_skipSpace cs
    unfold times? at h
    split at h
    · next inner hinner =>
      split at h
      · next d ds after htake hdrop =>
        obtain ⟨rfl, rfl⟩ : d :: ds = digits ∧ after = rest := by simpa using h
        have hinner' := List.takeWhile_append_dropWhile (p := Char.isDigit) (l := inner)
        rw [htake, hdrop] at hinner'
        refine ⟨space, hspace, ⟨List.cons_ne_nil _ _, fun c hc => ?_⟩, ?_⟩
        · rw [← htake] at hc
          exact List.mem_takeWhile_imp hc
        · rw [heq, hinner, hinner']
      · cases h
    · cases h
  · rintro ⟨space, hspace, ⟨hne, hdigits⟩, rfl⟩
    have hend : ∀ c ∈ ('}' :: rest).head?, c.isDigit = false := by simp
    unfold times?
    rw [skipSpace_append hspace (by decide)]
    simp only [takeWhile_append_of_head? hdigits hend, dropWhile_append_of_head? hdigits hend]
    cases digits with
    | nil => exact absurd rfl hne
    | cons d ds => rfl

/-- A list stands in parentheses and has none inside. -/
theorem list?_eq_some_iff : list? cs = some (list, rest) ↔
    ∃ space, IsGap space ∧ (∀ c ∈ list, isListChar c = true) ∧
      cs = space ++ '(' :: (list ++ ')' :: rest) := by
  constructor
  · intro h
    obtain ⟨space, hspace, heq⟩ := exists_eq_append_skipSpace cs
    unfold list? at h
    split at h
    · next inner hinner =>
      split at h
      · next after hdrop =>
        obtain ⟨rfl, rfl⟩ : inner.takeWhile isListChar = list ∧ after = rest := by simpa using h
        have hinner' := List.takeWhile_append_dropWhile (p := isListChar) (l := inner)
        rw [hdrop] at hinner'
        refine ⟨space, hspace, fun c hc => List.mem_takeWhile_imp hc, ?_⟩
        rw [heq, hinner, hinner']
      · cases h
    · cases h
  · rintro ⟨space, hspace, hlist, rfl⟩
    have hend : ∀ c ∈ (')' :: rest).head?, isListChar c = false := by simp [isListChar]
    unfold list?
    rw [skipSpace_append hspace (by decide)]
    simp only [takeWhile_append_of_head? hlist hend, dropWhile_append_of_head? hlist hend]

/-- A comment ends at the next `#`. -/
theorem afterComment?_eq_some_iff : afterComment? cs = some rest ↔
    ∃ inner, '#' ∉ inner ∧ cs = '#' :: (inner ++ '#' :: rest) := by
  constructor
  · intro h
    unfold afterComment? at h
    split at h
    · next behind =>
      split at h
      · next c after hdrop =>
        obtain rfl := Option.some.inj h
        have hbehind := List.takeWhile_append_dropWhile (p := (· != '#')) (l := behind)
        -- The rest starts with the character at which the comment was left.
        have hc : c = '#' := by
          have hnot : ∀ d ∈ (behind.dropWhile (· != '#')).head?, (d != '#') = false :=
            eq_false_of_mem_head?_dropWhile
          rw [hdrop] at hnot
          simpa using hnot c rfl
        rw [hdrop, hc] at hbehind
        refine ⟨behind.takeWhile (· != '#'), fun hmem => ?_, by rw [hbehind]⟩
        simpa using List.mem_takeWhile_imp hmem
      · cases h
    · cases h
  · rintro ⟨inner, hinner, rfl⟩
    have hdrop : (inner ++ '#' :: rest).dropWhile (· != '#') = '#' :: rest :=
      dropWhile_append_of_head? (by grind) (by simp)
    simp only [afterComment?, hdrop]

theorem times?_append (h : times? cs = some (digits, rest)) (more : List Char) :
    times? (cs ++ more) = some (digits, rest ++ more) := by
  obtain ⟨space, hspace, hdigits, rfl⟩ := times?_eq_some_iff.mp h
  exact times?_eq_some_iff.mpr ⟨space, hspace, hdigits, by simp⟩

theorem list?_append (h : list? cs = some (list, rest)) (more : List Char) :
    list? (cs ++ more) = some (list, rest ++ more) := by
  obtain ⟨space, hspace, hlist, rfl⟩ := list?_eq_some_iff.mp h
  exact list?_eq_some_iff.mpr ⟨space, hspace, hlist, by simp⟩

theorem times?_eq_none_of_append (h : times? (cs ++ more) = none) : times? cs = none := by
  rw [Option.eq_none_iff_forall_ne_some]
  intro pair hpair
  rw [times?_append hpair] at h
  cases h

theorem list?_eq_none_of_append (h : list? (cs ++ more) = none) : list? cs = none := by
  rw [Option.eq_none_iff_forall_ne_some]
  intro pair hpair
  rw [list?_append hpair] at h
  cases h

/-- No repeat starts with a character that is neither a space nor a brace. -/
theorem times?_cons_eq_none (hspace : c ≠ ' ') (hbrace : c ≠ '{') (cs : List Char) :
    times? (c :: cs) = none := by
  have hskip : skipSpace (c :: cs) = c :: cs := skipSpace_append (.inl rfl) hspace cs
  unfold times?
  rw [hskip]
  split
  · next heq => exact absurd (List.cons.inj heq).1 hbrace
  · rfl

/-! ### Each rule where it fits -/

theorem next?_of_times? (h : times? cs = some (digits, rest)) :
    next? cs = some (times digits, rest) := by
  obtain ⟨space, hspace, -, rfl⟩ := times?_eq_some_iff.mp h
  obtain rfl | rfl := hspace
  · rw [List.nil_append] at h ⊢
    have hbrace : isSymbol '{' = false := rfl
    simp only [next?, hbrace, Bool.false_eq_true, if_false, h]
  · rw [List.singleton_append] at h ⊢
    have hblank : isSymbol ' ' = false := rfl
    simp only [next?, hblank, Bool.false_eq_true, if_false, h]

theorem next?_of_isWordStart (h : Text.isWordStart c = true) (cs : List Char) :
    next? (c :: cs) =
      some (callOf (c :: cs.takeWhile Text.isWordChar) (cs.dropWhile Text.isWordChar)) := by
  have htimes : times? (c :: cs) = none := by
    refine times?_cons_eq_none ?_ ?_ cs <;> rintro rfl <;> revert h <;> decide
  simp only [next?, isSymbol_of_isWordStart h, htimes, h, Bool.false_eq_true, if_false, if_true]

theorem next?_of_isBlank (h : Text.isBlank c = true) (htimes : times? (c :: cs) = none) :
    next? (c :: cs) = some (layout, Text.trimStart cs) := by
  simp only [next?, isSymbol_of_isBlank h, htimes, isWordStart_of_isBlank h, h, Bool.false_eq_true,
    if_false, if_true]

theorem next?_of_afterComment? (h : afterComment? cs = some rest) :
    next? cs = some (layout, rest) := by
  obtain ⟨inner, -, rfl⟩ := afterComment?_eq_some_iff.mp h
  have htimes : times? ('#' :: (inner ++ '#' :: rest)) = none :=
    times?_cons_eq_none (by decide) (by decide) _
  have hsymbol : isSymbol '#' = false := rfl
  have hword : Text.isWordStart '#' = false := rfl
  have hblank : Text.isBlank '#' = false := rfl
  simp only [next?, hsymbol, hword, hblank, htimes, h, Bool.false_eq_true, if_false,
    Option.map_some]

/-- Behind a name a list is read if there is one. -/
theorem stands_of_callOf (hname : IsName name)
    (hend : ∀ c ∈ cs.head?, Text.isWordChar c = false) (h : callOf name cs = (lexeme, rest)) :
    ∃ word, name ++ cs = word ++ rest ∧ Stands lexeme word rest := by
  unfold callOf at h
  split at h
  · next list after hlist =>
    obtain ⟨rfl, rfl⟩ := Prod.mk.inj h
    obtain ⟨space, hspace, hchars, rfl⟩ := list?_eq_some_iff.mp hlist
    exact ⟨_, by simp, .list hname hspace hchars⟩
  · next hnone =>
    obtain ⟨rfl, rfl⟩ := Prod.mk.inj h
    exact ⟨name, rfl, .name hname hend hnone⟩

theorem exists_stands_of_next? (h : next? cs = some (lexeme, rest)) :
    ∃ word, cs = word ++ rest ∧ Stands lexeme word rest := by
  unfold next? at h
  split at h
  · cases h
  · next c cs =>
    split at h
    · next hsymbol =>
      obtain ⟨rfl, rfl⟩ := Prod.mk.inj (Option.some.inj h)
      exact ⟨[c], rfl, .symbol hsymbol⟩
    split at h
    · next digits after htimes =>
      obtain ⟨rfl, rfl⟩ := Prod.mk.inj (Option.some.inj h)
      obtain ⟨space, hspace, hdigits, heq⟩ := times?_eq_some_iff.mp htimes
      exact ⟨_, by simp [heq], .times hspace hdigits⟩
    next hfits =>
    -- From here on no rule reads a repeat, as layout asks for it too.
    have hnone : times? (c :: cs) = none := by
      rw [Option.eq_none_iff_forall_ne_some]
      exact fun pair hpair => hfits pair.1 pair.2 hpair
    split at h
    · next hword =>
      have hname : IsName (c :: cs.takeWhile Text.isWordChar) :=
        ⟨hword, fun d hd => List.mem_takeWhile_imp hd⟩
      obtain ⟨word, heq, hstands⟩ :=
        stands_of_callOf hname eq_false_of_mem_head?_dropWhile (Option.some.inj h)
      rw [List.cons_append, List.takeWhile_append_dropWhile] at heq
      exact ⟨word, heq, hstands⟩
    split at h
    · next hblank =>
      obtain ⟨rfl, rfl⟩ := Prod.mk.inj (Option.some.inj h)
      have heq : c :: cs = (c :: cs.takeWhile Text.isBlank) ++ Text.trimStart cs := by
        rw [List.cons_append, Text.takeWhile_append_trimStart]
      refine ⟨_, heq, .blanks ?_ eq_false_of_mem_head?_dropWhile (heq ▸ hnone)⟩
      exact List.forall_mem_cons.mpr ⟨hblank, fun d hd => List.mem_takeWhile_imp hd⟩
    · obtain ⟨after, hafter, hpair⟩ := Option.map_eq_some_iff.mp h
      obtain ⟨rfl, rfl⟩ := Prod.mk.inj hpair
      obtain ⟨inner, hinner, heq⟩ := afterComment?_eq_some_iff.mp hafter
      exact ⟨_, by simp [heq], .comment hinner⟩

/-- A name and a character that cannot go on with it are told apart. -/
theorem next?_of_isName (hname : IsName name) (hend : ∀ c ∈ rest.head?, Text.isWordChar c = false) :
    next? (name ++ rest) = some (callOf name rest) := by
  cases name with
  | nil => exact hname.elim
  | cons c cs =>
    rw [List.cons_append, next?_of_isWordStart hname.1, takeWhile_append_of_head? hname.2 hend,
      dropWhile_append_of_head? hname.2 hend]

/-- What stands there is read. -/
theorem Stands.next?_eq (h : Stands lexeme word rest) :
    next? (word ++ rest) = some (lexeme, rest) := by
  cases h with
  | symbol h => exact next?_of_isSymbol h rest
  | @times space digits _ hspace hdigits =>
    exact next?_of_times? (times?_eq_some_iff.mpr ⟨space, hspace, hdigits, by simp⟩)
  | @list name space list _ hname hspace hlist =>
    have hfound : list? (space ++ '(' :: (list ++ ')' :: rest)) = some (list, rest) :=
      list?_eq_some_iff.mpr ⟨space, hspace, hlist, rfl⟩
    -- A list is read only where the name is at its end, and neither a space nor a parenthesis is
    -- part of a name.
    have hend : ∀ c ∈ (space ++ '(' :: (list ++ ')' :: rest)).head?, Text.isWordChar c = false := by
      obtain rfl | rfl := hspace <;> simp [Text.isWordChar]
    have hnext := next?_of_isName hname hend
    rw [callOf, hfound] at hnext
    simpa using hnext
  | name hname hend hlist => rw [next?_of_isName hname hend, callOf, hlist]
  | @blanks c cs _ hblank hend htimes =>
    rw [List.forall_mem_cons] at hblank
    have hnext : next? (c :: (cs ++ rest)) = some (layout, Text.trimStart (cs ++ rest)) :=
      next?_of_isBlank hblank.1 htimes
    rwa [Text.trimStart, dropWhile_append_of_head? hblank.2 hend] at hnext
  | comment h => exact next?_of_afterComment? (afterComment?_eq_some_iff.mpr ⟨_, h, by simp⟩)

/-- **The lexer reads what stands there**, and nothing else. -/
theorem next?_eq_some_iff : next? cs = some (lexeme, rest) ↔
    ∃ word, cs = word ++ rest ∧ Stands lexeme word rest := by
  constructor
  · exact exists_stands_of_next?
  · rintro ⟨word, rfl, h⟩
    exact h.next?_eq

/-! ### Shorter texts -/

/-- A character that may not come next may not do so if less comes. -/
theorem of_mem_head?_append {p : Char → Bool} (h : ∀ c ∈ (rest ++ more).head?, p c = false) :
    ∀ c ∈ rest.head?, p c = false := by
  cases rest with
  | nil => simp
  | cons c rest => exact h

/-- Behind less of the rest the same lexeme stands. -/
theorem Stands.of_append (h : Stands lexeme word (rest ++ more)) : Stands lexeme word rest := by
  -- Only a name and blanks ask for something of what follows them, and less of it asks for less.
  cases h with
  | symbol h => exact symbol h
  | times hspace hdigits => exact times hspace hdigits
  | list hname hspace hlist => exact list hname hspace hlist
  | name hname hend hlist =>
    exact name hname (of_mem_head?_append hend) (list?_eq_none_of_append hlist)
  | blanks hblank hend htimes =>
    rw [← List.append_assoc] at htimes
    exact blanks hblank (of_mem_head?_append hend) (times?_eq_none_of_append htimes)
  | comment h => exact comment h

/-- Where a lexeme stands, something is read with more behind the rest, if not the same. -/
theorem Stands.isSome_next?_append (h : Stands lexeme word rest) (more : List Char) :
    (next? (word ++ (rest ++ more))).isSome := by
  -- With more behind it a name may gain a list, and blanks may turn out to be part of a repeat; all
  -- else is read as before.
  cases h with
  | symbol h => rw [Stands.next?_eq (.symbol h)]; rfl
  | times hspace hdigits => rw [Stands.next?_eq (.times hspace hdigits)]; rfl
  | list hname hspace hlist => rw [Stands.next?_eq (.list hname hspace hlist)]; rfl
  | name hname _ _ =>
    cases word with
    | nil => exact hname.elim
    | cons c cs => rw [List.cons_append, next?_of_isWordStart hname.1]; rfl
  | @blanks c cs _ hblank _ _ =>
    have hc : Text.isBlank c = true := hblank c List.mem_cons_self
    rw [List.cons_append]
    cases htimes : times? (c :: (cs ++ (rest ++ more))) with
    | none => rw [next?_of_isBlank hc htimes]; rfl
    | some pair => rw [next?_of_times? htimes]; rfl
  | comment h => rw [Stands.next?_eq (.comment h)]; rfl

/-- **Where nothing can be read**, nothing can be read of a first part. -/
theorem next?_eq_none_of_append (h : next? (cs ++ more) = none) : next? cs = none := by
  rw [Option.eq_none_iff_forall_ne_some]
  rintro ⟨lexeme, rest⟩ hsome
  obtain ⟨word, rfl, hstands⟩ := exists_stands_of_next? hsome
  have hfits := hstands.isSome_next?_append more
  rw [← List.append_assoc, h] at hfits
  cases hfits

end TapeLang.Lexeme
