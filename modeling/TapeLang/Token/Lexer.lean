import TapeLang.Decimal
import TapeLang.Text.Classes
import TapeLang.Token.Basic

/-!
# Reading tokens

At each place of a text the first of five rules that fits decides what stands there:

1. a symbol of the tape machine;
2. digits in braces, with at most one space in front: a repeat;
3. a word, with at most one space and a list in parentheses behind it: a call;
4. blanks, as many as there are;
5. a comment from `#` to the next `#`.

A rule either fits and leaves a shorter rest (`length_of_next?`) or does not.  Where none fits, the
text is unreadable from there on.
-/

namespace TapeLang

/-- A lexeme: what one rule reads. -/
inductive Lexeme
  | symbol (c : Char)
  /-- The digits between two braces. -/
  | times (digits : List Char)
  /-- A word, and what stands in the parentheses behind it. -/
  | call (name : List Char) (list : Option (List Char))
  | layout
  deriving DecidableEq, Repr

namespace Lexeme

/-! ### The rules -/

def isSymbol (c : Char) : Bool :=
  c == '[' || c == ']' || c == '+' || c == '-' || c == ',' || c == '.' || c == '<' || c == '>' ||
    c == '~'

def skipSpace : List Char → List Char
  | ' ' :: rest => rest
  | cs => cs

/-- A character that may stand in a list of arguments. -/
def isListChar (c : Char) : Bool := c != '(' && c != ')'

/-- Digits in braces. -/
def times? (cs : List Char) : Option (List Char × List Char) :=
  match skipSpace cs with
  | '{' :: rest =>
    match rest.takeWhile Char.isDigit, rest.dropWhile Char.isDigit with
    | d :: ds, '}' :: after => some (d :: ds, after)
    | _, _ => none
  | _ => none

/-- A list in parentheses. -/
def list? (cs : List Char) : Option (List Char × List Char) :=
  match skipSpace cs with
  | '(' :: rest =>
    match rest.dropWhile isListChar with
    | ')' :: after => some (rest.takeWhile isListChar, after)
    | _ => none
  | _ => none

/-- What stands behind the second `#` of a comment. -/
def afterComment? : List Char → Option (List Char)
  | '#' :: rest =>
    match rest.dropWhile (· != '#') with
    | _ :: after => some after
    | [] => none
  | _ => none

/-- The call whose word ends where `rest` starts. -/
def callOf (name rest : List Char) : Lexeme × List Char :=
  match list? rest with
  | some (list, after) => (.call name (some list), after)
  | none => (.call name none, rest)

/-- The lexeme that a text starts with, and the text behind it. -/
def next? : List Char → Option (Lexeme × List Char)
  | [] => none
  | c :: cs =>
    if isSymbol c then some (.symbol c, cs)
    -- A space in front of a repeat is part of it, hence this rule comes before the one for blanks.
    else if let some (digits, rest) := times? (c :: cs) then some (.times digits, rest)
    else if Text.isWordStart c then
      some (callOf (c :: cs.takeWhile Text.isWordChar) (cs.dropWhile Text.isWordChar))
    else if Text.isBlank c then some (.layout, Text.trimStart cs)
    else (afterComment? (c :: cs)).map fun rest => (.layout, rest)

/-! ### Each rule takes something -/

theorem length_skipSpace_le (cs : List Char) : (skipSpace cs).length ≤ cs.length := by
  unfold skipSpace
  split <;> simp

theorem length_dropWhile_le (p : Char → Bool) (cs : List Char) :
    (cs.dropWhile p).length ≤ cs.length :=
  (List.dropWhile_sublist p).length_le

theorem length_of_times? {cs digits rest : List Char} (h : times? cs = some (digits, rest)) :
    rest.length < cs.length := by
  have hskip := length_skipSpace_le cs
  unfold times? at h
  split at h
  · next inner hinner =>
    split at h
    · next d ds after htake hdrop =>
      have hlen := length_dropWhile_le Char.isDigit inner
      rw [hdrop] at hlen
      rw [hinner] at hskip
      simp only [Option.some.injEq, Prod.mk.injEq] at h
      obtain ⟨_, rfl⟩ := h
      simp only [List.length_cons] at hlen hskip
      omega
    · simp at h
  · simp at h

theorem length_of_list? {cs list rest : List Char} (h : list? cs = some (list, rest)) :
    rest.length < cs.length := by
  have hskip := length_skipSpace_le cs
  unfold list? at h
  split at h
  · next inner hinner =>
    split at h
    · next after hdrop =>
      have hlen := length_dropWhile_le isListChar inner
      rw [hdrop] at hlen
      rw [hinner] at hskip
      simp only [Option.some.injEq, Prod.mk.injEq] at h
      obtain ⟨_, rfl⟩ := h
      simp only [List.length_cons] at hlen hskip
      omega
    · simp at h
  · simp at h

/-- A list behind a word takes from the rest, if anything. -/
theorem length_callOf_le (name rest : List Char) : (callOf name rest).2.length ≤ rest.length := by
  unfold callOf
  split
  · next list after hlist => exact Nat.le_of_lt (length_of_list? hlist)
  · exact Nat.le_refl _

theorem length_of_afterComment? {cs rest : List Char} (h : afterComment? cs = some rest) :
    rest.length < cs.length := by
  unfold afterComment? at h
  split at h
  · next inner =>
    split at h
    · next c after hdrop =>
      have hlen := length_dropWhile_le (· != '#') inner
      rw [hdrop] at hlen
      obtain rfl := Option.some.inj h
      simp only [List.length_cons] at hlen ⊢
      omega
    · simp at h
  · simp at h

/-- A lexeme is never empty: what is left behind it is shorter. -/
theorem length_of_next? {cs rest : List Char} {lexeme : Lexeme}
    (h : next? cs = some (lexeme, rest)) : rest.length < cs.length := by
  unfold next? at h
  split at h
  · simp at h
  · next c cs =>
    split at h
    · simp only [Option.some.injEq, Prod.mk.injEq] at h
      simp [← h.2]
    split at h
    · next digits after htimes =>
      simp only [Option.some.injEq, Prod.mk.injEq] at h
      exact h.2 ▸ length_of_times? htimes
    split at h
    · have hword := length_dropWhile_le Text.isWordChar cs
      have hcall := length_callOf_le (c :: cs.takeWhile Text.isWordChar)
        (cs.dropWhile Text.isWordChar)
      rw [Option.some.inj h] at hcall
      rw [List.length_cons]
      exact Nat.lt_succ_of_le (Nat.le_trans hcall hword)
    split at h
    · have hblank := length_dropWhile_le Text.isBlank cs
      simp only [Option.some.injEq, Prod.mk.injEq] at h
      rw [← h.2, List.length_cons]
      exact Nat.lt_succ_of_le hblank
    · obtain ⟨after, hafter, hpair⟩ := Option.map_eq_some_iff.mp h
      simp only [Prod.mk.injEq] at hpair
      exact hpair.2 ▸ length_of_afterComment? hafter

/-! ### Tokens of lexemes -/

/-- A count is below this bound, so that it fits 64 bits. -/
def countBound : Nat := 18446744073709551616

/-- The arguments in a list: none if it is blank, else what stands between commas, trimmed. -/
def arguments (list : List Char) : List String :=
  if Text.trim list = [] then []
  else (list.splitOn ',').map fun arg => String.ofList (Text.trim arg)

/-- The tokens of a lexeme: one, or none for layout. -/
def tokens (site : String) : Lexeme → Except Error (List Token)
  | symbol c => .ok [.code (String.ofList [c])]
  | times digits =>
    if Decimal.value digits < countBound then .ok [.times (Decimal.value digits)]
    else .error (.tooManyCopies site (String.ofList digits))
  | call name list => .ok [.call (String.ofList name) ((list.map arguments).getD [])]
  | layout => .ok []

end Lexeme

namespace Token

def excerptLength : Nat := 10

/-- The tokens of the rest `cs` of a text of `size` characters; the rest starts at the offset
`size - cs.length`. -/
def lexFrom (site : String) (size : Nat) (cs : List Char) : Except Error (List Token) :=
  if cs = [] then .ok []
  else
    match _found : Lexeme.next? cs with
    | none =>
      .error (.unreadable site (size - cs.length) (String.ofList (cs.take excerptLength)))
    | some (lexeme, rest) => do
      let here ← lexeme.tokens site
      let later ← lexFrom site size rest
      return here ++ later
termination_by cs.length
decreasing_by exact Lexeme.length_of_next? _found

/-- **The tokens of a text.** -/
def lex (site text : String) : Except Error (List Token) :=
  lexFrom site text.toList.length text.toList

end Token
end TapeLang
