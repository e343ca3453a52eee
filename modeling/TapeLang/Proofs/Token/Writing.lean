import Mathlib.Data.List.Forall2
import TapeLang.Proofs.Lists
import TapeLang.Proofs.Token.Unreadable

/-!
# Writing tokens

A list of tokens has many texts.  A token is written as a word of its own (`Spells`), with any
blanks around the arguments of a call, and before, between and behind the words there may be blanks
and comments (`IsLayout`).  All of these texts are read as the tokens (`lexFrom_of_writes`), for
layout does not change what is read behind it (`lexFrom_layout`), not even if its last space is read
as part of a repeat.

Not every list of tokens can be read from a text: a token of code is one symbol, a name starts with
no digit, an argument has no comma (`Readable`).  What is read is always of this kind
(`readable_of_reads`), and what is of this kind is read from its plainest text (`render`).

Main statement: `lex_inverts_writing`.
-/

namespace TapeLang

namespace Lexeme

/-- Layout is blanks and comments, one after another. -/
inductive IsLayout : List Char → Prop
  | nothing : IsLayout []
  | blank {c cs} (h : Text.isBlank c = true) (rest : IsLayout cs) : IsLayout (c :: cs)
  | comment {inner cs} (h : '#' ∉ inner) (rest : IsLayout cs) :
      IsLayout ('#' :: (inner ++ '#' :: cs))

end Lexeme

namespace Token

open Lexeme

/-! ### Tokens that can be read -/

/-- An argument has no blanks at its ends, no parentheses and no commas. -/
structure IsArgument (arg : String) : Prop where
  trim_eq : Text.trim arg.toList = arg.toList
  not_delimiter : ∀ c ∈ arg.toList, c ≠ '(' ∧ c ≠ ')' ∧ c ≠ ','

/-- The token is one that a text can have.  A call with one empty argument is none of them, for
its list would be the empty one. -/
def Readable : Token → Prop
  | code symbols => ∃ c, isSymbol c = true ∧ symbols = String.ofList [c]
  | times count => count < 2 ^ 64
  | call name args => IsName name.toList ∧ (∀ arg ∈ args, IsArgument arg) ∧ args ≠ [""]

/-! ### Texts of tokens -/

/-- The argument with blanks around it. -/
def Pads (arg : String) (part : List Char) : Prop :=
  ∃ front back, (∀ c ∈ front, Text.isBlank c = true) ∧ (∀ c ∈ back, Text.isBlank c = true) ∧
    part = front ++ arg.toList ++ back

/-- A list of arguments as it is written: with commas between them and any blanks around. -/
inductive SpellsList : List String → List Char → Prop
  | nothing {blanks : List Char} (h : ∀ c ∈ blanks, Text.isBlank c = true) : SpellsList [] blanks
  | parts {args : List String} {parts : List (List Char)} (hne : args ≠ [])
      (h : List.Forall₂ Pads args parts) : SpellsList args ([','].intercalate parts)

/-- A token as it is written: a symbol, a count in braces, or a name with a list in
parentheses. -/
inductive Spells : Token → List Char → Prop
  | code (symbols : String) : Spells (code symbols) symbols.toList
  | times (count : Nat) : Spells (times count) ('{' :: (count.repr.toList ++ ['}']))
  | call (name : String) {args : List String} {list : List Char} (hlist : SpellsList args list) :
      Spells (call name args) (name.toList ++ '(' :: (list ++ [')']))

/-- Tokens as they are written, with layout before, between and behind them. -/
inductive Writes : List Token → List Char → Prop
  | nothing {layout : List Char} (h : IsLayout layout) : Writes [] layout
  | token {layout word cs : List Char} {token : Token} {tokens : List Token}
      (hlayout : IsLayout layout) (htoken : Spells token word) (hrest : Writes tokens cs) :
      Writes (token :: tokens) (layout ++ (word ++ cs))

/-- The plainest way to write a token. -/
def word : Token → List Char
  | code symbols => symbols.toList
  | times count => '{' :: (count.repr.toList ++ ['}'])
  | call name args =>
    name.toList ++ '(' :: ([','].intercalate (args.map String.toList) ++ [')'])

/-- The text of tokens, without any layout. -/
def render (tokens : List Token) : String := String.ofList (tokens.flatMap word)

variable {site : String} {size : Nat} {token : Token} {tokens : List Token} {args : List String}
  {arg : String} {cs list layout part : List Char}

theorem pads_self (arg : String) : Pads arg arg.toList :=
  ⟨[], [], by simp, by simp, by simp⟩

theorem spells_word (token : Token) : Spells token token.word := by
  cases token with
  | code symbols => exact .code symbols
  | times count => exact .times count
  | call name args =>
    refine .call name ?_
    cases args with
    | nil => exact .nothing (by simp)
    | cons arg args =>
      refine .parts (List.cons_ne_nil arg args) ?_
      rw [List.forall₂_map_right_iff, List.forall₂_same]
      exact fun arg _ => pads_self arg

theorem writes_render (tokens : List Token) : Writes tokens (render tokens).toList := by
  rw [render, String.toList_ofList]
  induction tokens with
  | nil => exact .nothing .nothing
  | cons token tokens ih => exact .token .nothing (spells_word token) ih

/-! ### Layout -/

/-- Blanks do not change what is read behind them.  A space may be part of a repeat, but the
repeat is the same without it. -/
theorem lexFrom_trimStart (cs : List Char) :
    lexFrom site size (Text.trimStart cs) = lexFrom site size cs := by
  cases cs with
  | nil => rfl
  | cons c cs =>
    cases hblank : Text.isBlank c with
    | false => rw [Text.trimStart, List.dropWhile_cons_of_neg (by simp [hblank])]
    | true =>
      have htrim : Text.trimStart (c :: cs) = Text.trimStart cs :=
        List.dropWhile_cons_of_pos hblank
      rw [htrim]
      -- Before a space that is part of a repeat it is this rule that reads, and not the one for
      -- blanks.
      cases htimes : times? (c :: cs) with
      | none =>
        rw [lexFrom_of_next? (next?_of_isBlank hblank htimes)]
        show _ = (lexFrom site size (Text.trimStart cs)).map ([] ++ ·)
        cases lexFrom site size (Text.trimStart cs) <;> rfl
      | some pair =>
        obtain ⟨digits, rest⟩ := pair
        obtain ⟨space, hspace | hspace, hdigits, heq⟩ := times?_eq_some_iff.mp htimes
        · rw [hspace] at heq
          obtain ⟨rfl, -⟩ := List.cons.inj heq
          cases hblank
        · rw [hspace] at heq
          obtain ⟨-, hcs⟩ := List.cons.inj heq
          have hbrace : times? cs = some (digits, rest) :=
            times?_eq_some_iff.mpr ⟨[], .inl rfl, hdigits, hcs⟩
          have htrim : Text.trimStart cs = cs := by rw [hcs]; rfl
          rw [htrim, lexFrom_of_next? (next?_of_times? htimes),
            lexFrom_of_next? (next?_of_times? hbrace)]

/-- **Layout does not change what is read behind it.** -/
theorem lexFrom_layout (h : IsLayout layout) (cs : List Char) :
    lexFrom site size (layout ++ cs) = lexFrom site size cs := by
  induction h with
  | nothing => rfl
  | @blank c layout hblank _ ih =>
    have htrim : Text.trimStart (c :: (layout ++ cs)) = Text.trimStart (layout ++ cs) :=
      List.dropWhile_cons_of_pos hblank
    rw [List.cons_append, ← lexFrom_trimStart, htrim, lexFrom_trimStart, ih]
  | @comment inner layout hinner _ ih =>
    have hafter : afterComment? ('#' :: (inner ++ '#' :: layout) ++ cs) = some (layout ++ cs) :=
      afterComment?_eq_some_iff.mpr ⟨inner, hinner, by simp⟩
    rw [lexFrom_of_next? (next?_of_afterComment? hafter), ih]
    show (lexFrom site size cs).map ([] ++ ·) = _
    cases lexFrom site size cs <;> rfl

/-! ### Lists of arguments -/

/-- A padded argument has no parentheses and no commas. -/
theorem Pads.not_delimiter (hpads : Pads arg part) (harg : IsArgument arg) :
    ∀ c ∈ part, c ≠ '(' ∧ c ≠ ')' ∧ c ≠ ',' := by
  obtain ⟨front, back, hfront, hback, rfl⟩ := hpads
  have hblank : ∀ c, Text.isBlank c = true → c ≠ '(' ∧ c ≠ ')' ∧ c ≠ ',' := by
    intro c hc
    refine ⟨?_, ?_, ?_⟩ <;> rintro rfl <;> cases hc
  intro c hc
  simp only [List.mem_append] at hc
  obtain (hc | hc) | hc := hc
  · exact hblank c (hfront c hc)
  · exact harg.not_delimiter c hc
  · exact hblank c (hback c hc)

theorem Pads.trim_eq (hpads : Pads arg part) (harg : IsArgument arg) :
    Text.trim part = arg.toList := by
  obtain ⟨front, back, hfront, hback, rfl⟩ := hpads
  rw [Text.trim_append_append hfront hback, harg.trim_eq]

section

variable {parts : List (List Char)} (hargs : ∀ arg ∈ args, IsArgument arg)
  (hpads : List.Forall₂ Pads args parts)

include hargs hpads

theorem not_delimiter_of_pads : ∀ part ∈ parts, ∀ c ∈ part, c ≠ '(' ∧ c ≠ ')' ∧ c ≠ ',' := by
  induction hpads with
  | nil => simp
  | cons hpad _ ih =>
    rw [List.forall_mem_cons] at hargs
    exact List.forall_mem_cons.mpr ⟨hpad.not_delimiter hargs.1, ih hargs.2⟩

/-- The parts are trimmed to the arguments. -/
theorem map_trim_of_pads : parts.map (fun part => String.ofList (Text.trim part)) = args := by
  induction hpads with
  | nil => rfl
  | cons hpad _ ih =>
    rw [List.forall_mem_cons] at hargs
    rw [List.map_cons, ih hargs.2, hpad.trim_eq hargs.1, String.ofList_toList]

end

/-- Parts with commas between them are blank only if there is one part, and it is. -/
theorem exists_eq_singleton_of_blank {parts : List (List Char)} (hne : parts ≠ [])
    (h : ∀ c ∈ [','].intercalate parts, Text.isBlank c = true) :
    ∃ part, parts = [part] ∧ Text.trim part = [] := by
  -- With two parts there is a comma between them, which is no blank.
  cases parts with
  | nil => exact absurd rfl hne
  | cons part parts =>
    cases parts with
    | nil =>
      rw [List.intercalate_singleton] at h
      exact ⟨part, rfl, Text.trim_eq_nil_iff.mpr h⟩
    | cons next parts =>
      rw [List.intercalate_cons_cons] at h
      have hcomma : Text.isBlank ',' = true := h ',' (by simp)
      cases hcomma

/-- The arguments are read as they are written. -/
theorem arguments_of_spellsList (hargs : ∀ arg ∈ args, IsArgument arg) (hempty : args ≠ [""])
    (h : SpellsList args list) : arguments list = args := by
  cases h with
  | nothing h => rw [arguments, if_pos (Text.trim_eq_nil_iff.mpr h)]
  | @parts _ parts hne hpads =>
    -- Trimmed, the parts are the arguments, so that they must not be a single empty one, which
    -- would be read as no argument.
    have htrim := map_trim_of_pads hargs hpads
    have hparts : parts ≠ [] := by
      rintro rfl
      exact hne htrim.symm
    have hcomma : ∀ part ∈ parts, ',' ∉ part := fun part hpart hmem =>
      (not_delimiter_of_pads hargs hpads part hpart ',' hmem).2.2 rfl
    have hblank : Text.trim ([','].intercalate parts) ≠ [] := by
      intro hnil
      obtain ⟨part, rfl, hpart⟩ :=
        exists_eq_singleton_of_blank hparts (Text.trim_eq_nil_iff.mp hnil)
      rw [List.map_singleton, hpart] at htrim
      exact hempty htrim.symm
    rw [arguments, if_neg hblank, List.splitOn_intercalate ',' hcomma hparts, htrim]

/-- What stands between commas, or is a comma. -/
theorem mem_intercalate {parts : List (List Char)} {c : Char}
    (h : c ∈ [','].intercalate parts) : c = ',' ∨ ∃ part ∈ parts, c ∈ part := by
  induction parts with
  | nil => cases h
  | cons part parts ih =>
    by_cases hne : parts = []
    · subst hne
      rw [List.intercalate_singleton] at h
      exact .inr ⟨part, List.mem_cons_self, h⟩
    · rw [List.intercalate_cons_of_ne_nil hne, List.mem_append, List.mem_append,
        List.mem_singleton] at h
      obtain (h | rfl) | h := h
      · exact .inr ⟨part, List.mem_cons_self, h⟩
      · exact .inl rfl
      · obtain rfl | ⟨other, hother, hc⟩ := ih h
        · exact .inl rfl
        · exact .inr ⟨other, List.mem_cons_of_mem _ hother, hc⟩

theorem isListChar_of_isBlank {c : Char} (h : Text.isBlank c = true) : isListChar c = true := by
  have hopen : c ≠ '(' := by
    rintro rfl
    cases h
  have hclose : c ≠ ')' := by
    rintro rfl
    cases h
  simp [isListChar, hopen, hclose]

/-- A list as it is written has no parentheses inside. -/
theorem isListChar_of_spellsList (hargs : ∀ arg ∈ args, IsArgument arg)
    (h : SpellsList args list) : ∀ c ∈ list, isListChar c = true := by
  intro c hc
  cases h with
  | nothing h => exact isListChar_of_isBlank (h c hc)
  | parts _ hpads =>
    obtain rfl | ⟨part, hpart, hmem⟩ := mem_intercalate hc
    · rfl
    · obtain ⟨hopen, hclose, -⟩ := not_delimiter_of_pads hargs hpads part hpart c hmem
      simp [isListChar, hopen, hclose]

/-! ### What is written is read -/

theorem isNumeral_toList_repr (n : Nat) : IsNumeral n.repr.toList :=
  ⟨by simp, fun _ hd => Decimal.isDigit_of_mem_toList_repr hd⟩

/-- A token stands as it is written, whatever follows. -/
theorem exists_stands_of_spells {word : List Char} (hreadable : token.Readable)
    (h : Spells token word) (site : String) :
    ∃ lexeme : Lexeme, (∀ rest, lexeme.Stands word rest) ∧ lexeme.tokens site = .ok [token] := by
  cases h with
  | code symbols =>
    obtain ⟨c, hc, rfl⟩ := hreadable
    rw [String.toList_ofList]
    exact ⟨.symbol c, fun rest => .symbol hc, rfl⟩
  | times count =>
    have hvalue := Decimal.value_toList_repr count
    refine ⟨.times count.repr.toList, fun rest => ?_, ?_⟩
    · exact .times (.inl rfl) (isNumeral_toList_repr count)
    · have hbound : Decimal.value count.repr.toList < countBound := hvalue.symm ▸ hreadable
      rw [Lexeme.tokens, if_pos hbound, hvalue]
  | @call name args list hlist =>
    obtain ⟨hname, hargs, hempty⟩ := hreadable
    refine ⟨.call name.toList (some list), fun rest => ?_, ?_⟩
    · exact .list hname (.inl rfl) (isListChar_of_spellsList hargs hlist)
    · have hread := arguments_of_spellsList hargs hempty hlist
      simp only [Lexeme.tokens, Option.map_some, Option.getD_some, hread, String.ofList_toList]

/-- **Tokens are read as they are written.** -/
theorem lexFrom_of_writes (hreadable : ∀ token ∈ tokens, token.Readable) (h : Writes tokens cs) :
    lexFrom site size cs = .ok tokens := by
  -- The induction is on how the text is written: layout in front of a token is skipped, and the
  -- token stands as it is written.
  induction h with
  | @nothing layout hlayout =>
    have hread : lexFrom site size (layout ++ []) = lexFrom site size [] :=
      lexFrom_layout hlayout []
    rwa [List.append_nil, lexFrom_nil] at hread
  | @token layout word cs token tokens hlayout htoken _ ih =>
    rw [List.forall_mem_cons] at hreadable
    obtain ⟨lexeme, hstands, htokens⟩ := exists_stands_of_spells hreadable.1 htoken site
    rw [lexFrom_layout hlayout, lexFrom_of_next? (hstands cs).next?_eq, htokens, ih hreadable.2]
    rfl

/-! ### What is read can be written -/

/-- What is read of a list is arguments. -/
theorem isArgument_of_mem_arguments (hlist : ∀ c ∈ list, isListChar c = true)
    (harg : arg ∈ arguments list) : IsArgument arg := by
  unfold arguments at harg
  split at harg
  · cases harg
  · obtain ⟨part, hpart, rfl⟩ := List.mem_map.mp harg
    -- A part may have blanks around, but what is left of it has no more delimiters than the part.
    obtain ⟨front, back, -, -, heq⟩ := Text.exists_eq_append_trim part
    refine ⟨by rw [String.toList_ofList, Text.trim_trim], fun c hc => ?_⟩
    rw [String.toList_ofList] at hc
    have hmem : c ∈ part := by
      rw [heq]
      exact List.mem_append_left _ (List.mem_append_right _ hc)
    obtain ⟨hin, hcomma⟩ := of_mem_splitOn hpart c hmem
    have hparen : c ≠ '(' ∧ c ≠ ')' := by simpa [isListChar] using hlist c hin
    exact ⟨hparen.1, hparen.2, hcomma⟩

/-- No list is read as one empty argument. -/
theorem arguments_ne_singleton_empty (list : List Char) : arguments list ≠ [""] := by
  unfold arguments
  split
  · simp
  · next hblank =>
    intro hone
    obtain ⟨part, hsplit, hpart⟩ := List.map_eq_singleton_iff.mp hone
    -- A single part is the list, which is not blank.
    have hlist : [','].intercalate (list.splitOn ',') = list := List.intercalate_splitOn ','
    rw [hsplit, List.intercalate_singleton] at hlist
    rw [hlist] at hpart
    exact hblank (by simpa using congrArg String.toList hpart)

theorem readable_of_stands {lexeme : Lexeme} {word rest : List Char}
    (hstands : lexeme.Stands word rest) (h : lexeme.tokens site = .ok tokens) :
    ∀ token ∈ tokens, token.Readable := by
  cases hstands with
  | @symbol c _ hsymbol =>
    obtain rfl := Except.ok.inj h
    exact List.forall_mem_singleton.mpr ⟨c, hsymbol, rfl⟩
  | times _ _ =>
    simp only [Lexeme.tokens] at h
    split at h
    · next hbound =>
      obtain rfl := Except.ok.inj h
      exact List.forall_mem_singleton.mpr hbound
    · cases h
  | list hname _ hlist =>
    obtain rfl := Except.ok.inj h
    refine List.forall_mem_singleton.mpr ⟨?_, ?_, arguments_ne_singleton_empty _⟩
    · rwa [String.toList_ofList]
    · exact fun arg harg => isArgument_of_mem_arguments hlist harg
  | name hname _ _ =>
    obtain rfl := Except.ok.inj h
    refine List.forall_mem_singleton.mpr ⟨?_, by simp⟩
    rwa [String.toList_ofList]
  | blanks _ _ _ =>
    obtain rfl := Except.ok.inj h
    simp
  | comment _ =>
    obtain rfl := Except.ok.inj h
    simp

/-- Only tokens that a text can have are read. -/
theorem readable_of_reads {front rest : List Char} (h : Reads site tokens front rest) :
    ∀ token ∈ tokens, token.Readable := by
  induction h with
  | nothing => simp
  | lexeme hstands hhere _ ih =>
    exact List.forall_mem_append.mpr ⟨readable_of_stands hstands hhere, ih⟩

/-- **Reading inverts writing, whatever the layout.**  Tokens that can be read are read from every
text that writes them.  And whatever is read from a text can be read: the tokens of any text are
those of each text that writes them, and there is one without layout. -/
theorem lex_inverts_writing (site : String) (tokens : List Token) :
    ((∀ token ∈ tokens, token.Readable) →
      ∀ text, Writes tokens text.toList → lex site text = .ok tokens) ∧
    (∀ text, lex site text = .ok tokens →
      (∀ token ∈ tokens, token.Readable) ∧ lex site (render tokens) = .ok tokens) ∧
    Writes tokens (render tokens).toList := by
  have hread : (∀ token ∈ tokens, token.Readable) →
      ∀ text, Writes tokens text.toList → lex site text = .ok tokens :=
    fun hreadable text hwrites => lexFrom_of_writes hreadable hwrites
  refine ⟨hread, fun text hlex => ?_, writes_render tokens⟩
  have hreadable := readable_of_reads (reads_of_lex hlex)
  exact ⟨hreadable, hread hreadable _ (writes_render tokens)⟩

/-- A comment with symbols in it, a space in front of a repeat, and blanks between arguments. -/
theorem lex_inverts_writing_layout :
    (∀ token ∈ [code "+", times 12, call "add" ["+ -", ""], call "f" []], token.Readable) ∧
      Writes [code "+", times 12, call "add" ["+ -", ""], call "f" []]
        "#-# + \x7b12\x7d\tadd(+ - ,  )#[#f( )".toList ∧
      lex "m" "#-# + \x7b12\x7d\tadd(+ - ,  )#[#f( )" =
        .ok [code "+", times 12, call "add" ["+ -", ""], call "f" []] := by
  have hreadable :
      ∀ token ∈ [code "+", times 12, call "add" ["+ -", ""], call "f" []], token.Readable := by
    have hfirst : IsArgument "+ -" := ⟨by decide, by simp⟩
    have hsecond : IsArgument "" := ⟨by decide, by simp⟩
    have hadd : IsName "add".toList := ⟨rfl, List.all_eq_true.mp rfl⟩
    have hf : IsName "f".toList := ⟨rfl, by simp⟩
    simp only [List.forall_mem_cons, List.not_mem_nil, false_implies, implies_true, and_true]
    refine ⟨⟨'+', rfl, rfl⟩, ?_, ⟨hadd, ?_, by decide⟩, ⟨hf, ?_⟩⟩
    · show 12 < 2 ^ 64
      decide
    · simp [hfirst, hsecond]
    · simp
  have hblank : ∀ c ∈ [' '], Text.isBlank c = true := List.all_eq_true.mp rfl
  have hlist : SpellsList ["+ -", ""] "+ - ,  ".toList := by
    have hfirst : Pads "+ -" "+ - ".toList := ⟨[], [' '], by simp, hblank, rfl⟩
    have hsecond : Pads "" "  ".toList := ⟨[' '], [' '], hblank, hblank, rfl⟩
    exact .parts (by simp) (.cons hfirst (.cons hsecond .nil))
  have hwrites : Writes [code "+", times 12, call "add" ["+ -", ""], call "f" []]
      "#-# + \x7b12\x7d\tadd(+ - ,  )#[#f( )".toList := by
    have hfront : IsLayout ('#' :: (['-'] ++ '#' :: [' '])) :=
      .comment (by decide) (.blank rfl .nothing)
    have hspace : IsLayout [' '] := .blank rfl .nothing
    have htab : IsLayout ['\t'] := .blank rfl .nothing
    have hcomment : IsLayout ('#' :: (['['] ++ '#' :: [])) := .comment (by decide) .nothing
    have hnone : SpellsList [] [' '] := .nothing hblank
    have hcalls := Writes.token htab (.call "add" hlist)
      (.token hcomment (.call "f" hnone) (.nothing .nothing))
    exact Writes.token hfront (.code "+") (.token hspace (.times 12) hcalls)
  exact ⟨hreadable, hwrites, (lex_inverts_writing "m" _).1 hreadable _ hwrites⟩

end Token
end TapeLang
