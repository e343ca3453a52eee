import Mathlib.Algebra.Group.Nat.Defs
import Mathlib.Order.Bounds.Basic
import TapeLang.Proofs.Token.Lexemes

/-!
# Where reading stops

The tokens of a text are read one lexeme after another, up to a place where reading stops (`Stops`):
the text ends there, or no lexeme stands there, or a repeat whose count has no 64 bits.  What is
read up to that place is read too if less follows (`Reads.of_append`), and where no lexeme stands,
none stands in what is left of the rest.  So if reading stops for want of a lexeme, then it is
behind the longest first part of the text that can be read at all.

Main statement: `lex_stops`.
-/

namespace TapeLang.Token

open Lexeme

/-- The tokens are read from the first part of a text, with the rest behind it. -/
inductive Reads (site : String) : List Token → List Char → List Char → Prop
  | nothing {rest : List Char} : Reads site [] [] rest
  | lexeme {lexeme : Lexeme} {word front rest : List Char} {here later : List Token}
      (hstands : lexeme.Stands word (front ++ rest)) (hhere : lexeme.tokens site = .ok here)
      (hlater : Reads site later front rest) : Reads site (here ++ later) (word ++ front) rest

/-- Reading stops where the rest starts. -/
inductive Stops : List Char → Prop
  | atEnd : Stops []
  /-- No lexeme stands there. -/
  | unreadable {rest : List Char} (hne : rest ≠ []) (h : next? rest = none) : Stops rest
  /-- A repeat stands there, and its count is too large. -/
  | tooMany {space digits rest : List Char} (hspace : IsGap space) (hdigits : IsNumeral digits)
      (hbound : countBound ≤ Decimal.value digits) :
      Stops (space ++ '{' :: (digits ++ '}' :: rest))

variable {site : String} {tokens : List Token} {front rest more digits space : List Char}

/-! ### Up to where it stops -/

theorem lexFrom_of_reads (h : Reads site tokens front rest) (size : Nat) :
    lexFrom site size (front ++ rest) = (lexFrom site size rest).map (tokens ++ ·) := by
  induction h with
  | @nothing rest =>
    rw [List.nil_append]
    cases lexFrom site size rest <;> rfl
  | @lexeme lexeme word front rest here later hstands hhere _ ih =>
    rw [List.append_assoc, lexFrom_of_next? hstands.next?_eq, hhere, ih]
    cases lexFrom site size rest with
    | error e => rfl
    | ok tokens => exact congrArg Except.ok (List.append_assoc here later tokens).symm

/-- What is read is read too if less follows. -/
theorem Reads.of_append (h : Reads site tokens front (rest ++ more)) :
    Reads site tokens front rest := by
  generalize hbehind : rest ++ more = behind at h
  induction h with
  | nothing => exact nothing
  | lexeme hstands hhere _ ih =>
    subst hbehind
    rw [← List.append_assoc] at hstands
    exact lexeme hstands.of_append hhere (ih rfl)

/-- A lexeme without tokens is a repeat of too many copies. -/
theorem eq_times_of_tokens_eq_error {lexeme : Lexeme} {e : Error}
    (h : lexeme.tokens site = .error e) :
    ∃ digits, lexeme = .times digits ∧ countBound ≤ Decimal.value digits := by
  cases lexeme with
  | times digits =>
    simp only [Lexeme.tokens] at h
    split at h
    · cases h
    · next hbound => exact ⟨digits, rfl, Nat.le_of_not_lt hbound⟩
  | symbol c => cases h
  | call name list => cases h
  | layout => cases h

/-- **Every text is read** up to where reading stops. -/
theorem exists_reads (site : String) (cs : List Char) :
    ∃ tokens front rest, cs = front ++ rest ∧ Reads site tokens front rest ∧ Stops rest := by
  -- The induction follows the reading of the text: it stops with the first lexeme that has no
  -- tokens.
  induction cs using lexFrom.induct with
  | case1 => exact ⟨[], [], [], rfl, .nothing, .atEnd⟩
  | case2 cs hne hnone => exact ⟨[], [], cs, rfl, .nothing, .unreadable hne hnone⟩
  | case3 cs _ lexeme behind hnext ih =>
    obtain ⟨word, rfl, hstands⟩ := next?_eq_some_iff.mp hnext
    cases hhere : lexeme.tokens site with
    | ok here =>
      obtain ⟨later, front, rest, rfl, hlater, hstops⟩ := ih
      refine ⟨here ++ later, word ++ front, rest, ?_, .lexeme hstands hhere hlater, hstops⟩
      rw [List.append_assoc]
    | error e =>
      obtain ⟨digits, rfl, hbound⟩ := eq_times_of_tokens_eq_error hhere
      refine ⟨[], [], word ++ behind, rfl, .nothing, ?_⟩
      cases hstands with
      | times hspace hdigits =>
        rw [List.append_assoc, List.cons_append, List.append_assoc]
        exact .tooMany hspace hdigits hbound

/-! ### What is answered there -/

theorem lex_of_reads (h : Reads site tokens front []) :
    lex site (String.ofList front) = .ok tokens := by
  have hread := lexFrom_of_reads h front.length
  rw [List.append_nil, lexFrom_nil] at hread
  rw [lex, String.toList_ofList, hread]
  exact congrArg Except.ok (List.append_nil tokens)

theorem lex_of_unreadable (h : Reads site tokens front rest) (hne : rest ≠ [])
    (hnone : next? rest = none) : lex site (String.ofList (front ++ rest)) =
      .error (.unreadable site front.length (String.ofList (rest.take excerptLength))) := by
  rw [lex, String.toList_ofList, lexFrom_of_reads h, lexFrom, if_neg hne]
  split
  · rw [List.length_append, Nat.add_sub_cancel]
    rfl
  · next hsome => rw [hnone] at hsome; cases hsome

theorem lex_of_tooMany (h : Reads site tokens front (space ++ '{' :: (digits ++ '}' :: rest)))
    (hspace : IsGap space) (hdigits : IsNumeral digits)
    (hbound : countBound ≤ Decimal.value digits) :
    lex site (String.ofList (front ++ (space ++ '{' :: (digits ++ '}' :: rest)))) =
      .error (.tooManyCopies site (String.ofList digits)) := by
  have hnext : next? (space ++ '{' :: (digits ++ '}' :: rest)) = some (.times digits, rest) :=
    next?_of_times? (times?_eq_some_iff.mpr ⟨space, hspace, hdigits, rfl⟩)
  have htokens : (Lexeme.times digits).tokens site =
      .error (.tooManyCopies site (String.ofList digits)) := if_neg (Nat.not_lt_of_le hbound)
  rw [lex, String.toList_ofList, lexFrom_of_reads h, lexFrom_of_next? hnext, htokens]
  rfl

/-- The tokens of a text are those read from all of it. -/
theorem reads_of_lex {text : String} (h : lex site text = .ok tokens) :
    Reads site tokens text.toList [] := by
  -- Of the three ways to stop, only the end of the text gives an answer.
  obtain ⟨tokens', front, rest, htext, hreads, hstops⟩ := exists_reads site text.toList
  obtain rfl := (String.ofList_toList (s := text)).symm.trans (congrArg String.ofList htext)
  cases hstops with
  | atEnd =>
    rw [List.append_nil] at h ⊢
    obtain rfl := Except.ok.inj ((lex_of_reads hreads).symm.trans h)
    rwa [String.toList_ofList]
  | unreadable hne hnone =>
    rw [lex_of_unreadable hreads hne hnone] at h
    cases h
  | tooMany hspace hdigits hbound =>
    rw [lex_of_tooMany hreads hspace hdigits hbound] at h
    cases h

/-! ### Readable first parts -/

/-- The first so many characters of the text can be read. -/
def ReadableUpTo (site text : String) (j : Nat) : Prop :=
  j ≤ text.length ∧ ∃ tokens, lex site (String.ofList (text.toList.take j)) = .ok tokens

/-- **Where no lexeme stands**, the longest readable first part of the text ends. -/
theorem isGreatest_readableUpTo (h : Reads site tokens front rest) (hnone : next? rest = none) :
    IsGreatest {j | ReadableUpTo site (String.ofList (front ++ rest)) j} front.length := by
  constructor
  · have hfront : Reads site tokens front ([] ++ rest) := h
    refine ⟨by simp, tokens, ?_⟩
    rw [String.toList_ofList, List.take_left]
    exact lex_of_reads hfront.of_append
  · -- A longer first part would be read past the place where reading stops.
    rintro j ⟨hj, tokens', hread⟩
    by_contra hlt
    -- The part of the rest that is left is not empty, and no lexeme stands there either.
    have hcut : rest.take (j - front.length) ++ rest.drop (j - front.length) = rest :=
      List.take_append_drop _ _
    have hne : rest.take (j - front.length) ≠ [] := by
      have hlength : j ≤ front.length + rest.length := by simpa using hj
      rw [← List.length_pos_iff, List.length_take]
      omega
    have hpart : Reads site tokens front (rest.take (j - front.length)) :=
      Reads.of_append (hcut.symm ▸ h)
    have hnone' : next? (rest.take (j - front.length)) = none :=
      next?_eq_none_of_append (hcut.symm ▸ hnone)
    rw [String.toList_ofList, List.take_append, List.take_of_length_le (by omega),
      lex_of_unreadable hpart hne hnone'] at hread
    cases hread

/-- **A text is read, or refused where it must be.**  If it is refused as unreadable at an offset,
then the characters before the offset are the longest first part of it that can be read, and not all
of it; the excerpt is made of the next ten characters, or of as many as there are.  A text that is
neither read nor unreadable has a repeat whose count does not fit 64 bits. -/
theorem lex_stops (site text : String) :
    (∀ site' k excerpt, lex site text = .error (.unreadable site' k excerpt) →
      site' = site ∧ k < text.length ∧ IsGreatest {j | ReadableUpTo site text j} k ∧
        excerpt = String.ofList ((text.toList.drop k).take 10)) ∧
    ((∃ tokens, lex site text = .ok tokens) ∨
      (∃ k excerpt, lex site text = .error (.unreadable site k excerpt)) ∨
      ∃ front digits back, text.toList = front ++ '{' :: (digits ++ '}' :: back) ∧
        IsNumeral digits ∧ 2 ^ 64 ≤ Decimal.value digits ∧
        lex site text = .error (.tooManyCopies site (String.ofList digits))) := by
  obtain ⟨tokens, front, rest, htext, hreads, hstops⟩ := exists_reads site text.toList
  obtain rfl := (String.ofList_toList (s := text)).symm.trans (congrArg String.ofList htext)
  cases hstops with
  | atEnd =>
    rw [List.append_nil] at *
    rw [lex_of_reads hreads]
    exact ⟨by simp, .inl ⟨tokens, rfl⟩⟩
  | unreadable hne hnone =>
    rw [lex_of_unreadable hreads hne hnone]
    refine ⟨?_, .inr (.inl ⟨_, _, rfl⟩)⟩
    rintro site' k excerpt herror
    obtain ⟨rfl, rfl, rfl⟩ := Error.unreadable.inj (Except.error.inj herror)
    refine ⟨rfl, ?_, isGreatest_readableUpTo hreads hnone, ?_⟩
    · have hpos := List.length_pos_iff.mpr hne
      simp
      omega
    · rw [String.toList_ofList, List.drop_left]
      rfl
  | @tooMany space digits rest hspace hdigits hbound =>
    rw [lex_of_tooMany hreads hspace hdigits hbound]
    refine ⟨by simp, .inr (.inr ⟨front ++ space, digits, rest, ?_, hdigits, hbound, rfl⟩)⟩
    rw [String.toList_ofList, List.append_assoc]

/-- A list of arguments that is not closed, behind a comment and a repeat. -/
theorem lex_stops_open_list :
    lex "m" "# \x7b # + \x7b2\x7d\tf (x, +++++++++" = .error (.unreadable "m" 14 "(x, ++++++") ∧
      IsGreatest {j | ReadableUpTo "m" "# \x7b # + \x7b2\x7d\tf (x, +++++++++" j} 14 := by
  have hlex : lex "m" "# \x7b # + \x7b2\x7d\tf (x, +++++++++" =
      .error (.unreadable "m" 14 "(x, ++++++") := by decide +kernel
  exact ⟨hlex, ((lex_stops _ _).1 _ _ _ hlex).2.2.1⟩

end TapeLang.Token
