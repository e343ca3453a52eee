import TapeLang.Proofs.Expansion.Leftmost

/-!
# Code is what expansions end in

A text of symbols only is code.  Reading keeps symbols and nothing else for code, copying copies,
and joining joins, so that what any call expands to is code (`isCode_of_expands`).

Conversely code is left alone by every pass: it has no holes, it is read symbol by symbol, nothing
in it is repeated or called, and its symbols are joined in order.  A macro whose text is code
expands to that text, whatever the arguments (`expands_of_isCode`).
-/

namespace TapeLang

/-- The text consists of symbols of the tape machine only. -/
def IsCode (text : String) : Prop := ∀ c ∈ text.toList, Lexeme.isSymbol c = true

theorem isCode_append {front back : String} (hfront : IsCode front) (hback : IsCode back) :
    IsCode (front ++ back) := by
  intro c hc
  rw [String.toList_append, List.mem_append] at hc
  exact hc.elim (hfront c) (hback c)

namespace Lexeme

/-- What is read as a symbol is one. -/
theorem isSymbol_of_next? {cs rest : List Char} {c : Char}
    (h : next? cs = some (.symbol c, rest)) : isSymbol c = true := by
  -- The other rules read a repeat, a call, blanks or a comment, and no symbol.
  unfold next? at h
  split at h
  · cases h
  · next d ds =>
    split at h
    · next hsymbol =>
      obtain ⟨⟨rfl⟩, rfl⟩ : symbol d = symbol c ∧ ds = rest := by simpa using h
      exact hsymbol
    split at h
    · cases h
    split at h
    · unfold callOf at h
      split at h <;> cases h
    split at h
    · cases h
    · obtain ⟨after, _, hpair⟩ := Option.map_eq_some_iff.mp h
      cases hpair

theorem next?_of_isSymbol {c : Char} (h : isSymbol c = true) (cs : List Char) :
    next? (c :: cs) = some (.symbol c, cs) := by
  simp [next?, h]

end Lexeme

namespace Token

variable {site : String} {size : Nat} {cs rest : List Char} {tokens written : List Token}

/-! ### Expansions are code -/

/-- A token of code holds symbols only. -/
def WellFormed : Token → Prop
  | code symbols => IsCode symbols
  | times _ => True
  | call _ _ => True

theorem wellFormed_of_tokens {lexeme : Lexeme} (hnext : Lexeme.next? cs = some (lexeme, rest))
    (h : lexeme.tokens site = .ok tokens) : ∀ token ∈ tokens, token.WellFormed := by
  cases lexeme with
  | symbol c =>
    obtain rfl := Except.ok.inj h
    have hc := Lexeme.isSymbol_of_next? hnext
    simpa [WellFormed, IsCode] using hc
  | times digits =>
    simp only [Lexeme.tokens] at h
    split at h
    · obtain rfl := Except.ok.inj h
      simp [WellFormed]
    · cases h
  | call name list =>
    obtain rfl := Except.ok.inj h
    simp [WellFormed]
  | layout =>
    obtain rfl := Except.ok.inj h
    simp

/-- Reading takes symbols only for code. -/
theorem wellFormed_of_lexFrom (h : lexFrom site size cs = .ok tokens) :
    ∀ token ∈ tokens, token.WellFormed := by
  fun_induction lexFrom site size cs generalizing tokens with
  | case1 =>
    obtain rfl := Except.ok.inj h
    simp
  | case2 => cases h
  | case3 cs hne lexeme rest hnext ih =>
    obtain ⟨here, hhere, h⟩ := bind_eq_ok h
    obtain ⟨later, hlater, h⟩ := bind_eq_ok h
    obtain rfl := Except.ok.inj h
    intro token htoken
    rw [List.mem_append] at htoken
    exact htoken.elim (wellFormed_of_tokens hnext hhere token) (ih hlater token)

/-- A repeat copies the token before it and leaves none of its own. -/
theorem mem_of_pushRepeating {token : Token} {written' : List Token}
    (h : pushRepeating site written token = .ok written') :
    ∀ t ∈ written', t ∈ written ∨ t = token := by
  unfold pushRepeating at h
  split at h
  · cases h
  · -- The copies are of a token that was there already.
    next last written count =>
    split at h
    · obtain rfl := Except.ok.inj h
      intro t ht
      rw [List.mem_append, List.mem_replicate] at ht
      obtain ⟨_, rfl⟩ | ht := ht
      · exact .inl List.mem_cons_self
      · exact .inl (List.mem_cons_of_mem _ ht)
    · cases h
  · obtain rfl := Except.ok.inj h
    intro t ht
    rw [List.mem_cons] at ht
    exact ht.symm

/-- Repeats copy tokens and make no others. -/
theorem mem_of_expandRepeats {tokens' : List Token} (h : expandRepeats site tokens = .ok tokens') :
    ∀ t ∈ tokens', t ∈ tokens := by
  obtain ⟨written, hwritten, rfl⟩ := map_eq_ok h
  have hall : ∀ t ∈ written, t ∈ tokens := by
    refine foldlM_ok_induction (P := fun written => ∀ t ∈ written, t ∈ tokens) (by simp) ?_ hwritten
    intro token htoken written written' hmem hpush t ht
    obtain hold | rfl := mem_of_pushRepeating hpush t ht
    · exact hmem t hold
    · exact htoken
  intro t ht
  exact hall t (List.mem_reverse.mp ht)

/-- A call that is answered by code becomes a token of code. -/
theorem wellFormed_of_expanded {answers : Answers} {codes : List Token}
    (hanswers : ∀ name args symbols, answers name args (.ok symbols) → IsCode symbols)
    (htokens : ∀ token ∈ tokens, token.WellFormed)
    (h : Expanded answers tokens (.ok codes)) : ∀ token ∈ codes, token.WellFormed := by
  -- The result is kept as an equation, as each case of the derivation has its own.
  generalize hresult : Except.ok codes = result at h
  induction h generalizing codes with
  | nil =>
    obtain rfl := Except.ok.inj hresult
    exact htokens
  | @stays token tokens result hstays _ ih =>
    obtain ⟨rest, rfl, rfl⟩ := map_eq_ok hresult.symm
    have hrest := ih (fun t ht => htokens t (List.mem_cons_of_mem _ ht)) rfl
    exact List.forall_mem_cons.mpr ⟨htokens token List.mem_cons_self, hrest⟩
  | failed => cases hresult
  | @expanded name args tokens symbols result hcall _ ih =>
    obtain ⟨rest, rfl, rfl⟩ := map_eq_ok hresult.symm
    have hrest := ih (fun t ht => htokens t (List.mem_cons_of_mem _ ht)) rfl
    exact List.forall_mem_cons.mpr ⟨hanswers name args symbols hcall, hrest⟩

theorem isCode_of_assemble {symbols : String} (htokens : ∀ token ∈ tokens, token.WellFormed)
    (h : assemble site tokens = .ok symbols) : IsCode symbols := by
  -- What is written so far is code, whatever it is, and stays code.
  have hempty : IsCode "" := by simp [IsCode]
  unfold assemble at h
  generalize "" = joined at h hempty
  induction tokens generalizing joined with
  | nil =>
    obtain rfl := Except.ok.inj h
    exact hempty
  | cons token tokens ih =>
    rw [List.forall_mem_cons] at htokens
    rw [List.foldlM_cons] at h
    cases token with
    | code here => exact ih htokens.2 _ h (isCode_append hempty htokens.1)
    | times count => cases h
    | call name args => cases h

/-! ### Code is left alone -/

/-- The tokens of code: one for each symbol. -/
def ofSymbols (cs : List Char) : List Token := cs.map fun c => code (String.ofList [c])

theorem lexFrom_nil (site : String) (size : Nat) : lexFrom site size [] = .ok [] := by
  rw [lexFrom, if_pos rfl]

theorem lexFrom_of_next? {lexeme : Lexeme} (h : Lexeme.next? cs = some (lexeme, rest))
    (site : String) (size : Nat) :
    lexFrom site size cs =
      (lexeme.tokens site).bind fun here => (lexFrom site size rest).map (here ++ ·) := by
  have hne : cs ≠ [] := by
    rintro rfl
    cases h
  rw [lexFrom, if_neg hne]
  split
  · next hnone => rw [h] at hnone; cases hnone
  · next lexeme' rest' hsome =>
    obtain ⟨rfl, rfl⟩ : lexeme = lexeme' ∧ rest = rest' := by simpa [h] using hsome
    cases lexeme.tokens site with
    | error e => rfl
    | ok here => cases lexFrom site size rest <;> rfl

/-- Code is read symbol by symbol. -/
theorem lexFrom_of_forall_isSymbol (h : ∀ c ∈ cs, Lexeme.isSymbol c = true) :
    lexFrom site size cs = .ok (ofSymbols cs) := by
  induction cs with
  | nil => exact lexFrom_nil site size
  | cons c cs ih =>
    rw [List.forall_mem_cons] at h
    rw [lexFrom_of_next? (Lexeme.next?_of_isSymbol h.1 cs), ih h.2]
    rfl

theorem count?_ofSymbols (cs : List Char) : ∀ token ∈ ofSymbols cs, token.count? = none := by
  simp [ofSymbols, count?]

theorem callee?_ofSymbols (cs : List Char) : ∀ token ∈ ofSymbols cs, token.callee? = none := by
  simp [ofSymbols, callee?]

/-- Nothing in code is called. -/
theorem expanded_ofSymbols (answers : Answers) (cs : List Char) :
    Expanded answers (ofSymbols cs) (.ok (ofSymbols cs)) := by
  induction cs with
  | nil => exact .nil
  | cons c cs ih =>
    have hstays : (code (String.ofList [c])).Stays := trivial
    exact .stays hstays ih

theorem join_ofSymbols (cs : List Char) :
    String.join ((ofSymbols cs).map symbols) = String.ofList cs := by
  induction cs with
  | nil => rfl
  | cons c cs ih =>
    rw [ofSymbols, List.map_cons, ← ofSymbols, List.map_cons, String.join_cons, ih, symbols,
      ← String.ofList_append, List.singleton_append]

end Token

namespace Template

theorem hole?_cons_of_ne {c : Char} (h : c ≠ '/') (cs : List Char) : hole? (c :: cs) = none := by
  unfold hole?
  split
  · next heq => exact absurd (List.cons.inj heq).1 h
  · rfl

theorem pieces_of_not_mem {cs : List Char} (h : '/' ∉ cs) : pieces cs = cs.map .char := by
  induction cs with
  | nil => rw [pieces, List.map_nil]
  | cons c cs ih =>
    rw [List.mem_cons, not_or] at h
    rw [pieces]
    split
    · next hhole => rw [hole?_cons_of_ne (Ne.symm h.1)] at hhole; cases hhole
    · rw [ih h.2, List.map_cons]

/-- A text without slashes has no holes to fill. -/
theorem fill_of_not_mem {text : String} (h : '/' ∉ text.toList) (scope : Scope) (site : String) :
    fill scope site text = .ok text := by
  have hparts : ∀ cs : List Char, (cs.map Piece.char).mapM (fillPiece scope site) =
      .ok (cs.map fun c => [c]) := by
    intro cs
    induction cs with
    | nil => rfl
    | cons c cs ih => rw [List.map_cons, List.mapM_cons, ih]; rfl
  rw [fill, pieces_of_not_mem h, hparts]
  show Except.ok (String.ofList (text.toList.map fun c => [c]).flatten) = Except.ok text
  rw [← List.flatMap_def, List.flatMap_singleton', String.ofList_toList]

end Template

namespace Environment

variable {env : Environment} {name : String} {args : List String} {m : Macro}
  {tokens : List Token} {symbols : String}

theorem wellFormed_of_body (h : env.body name args = .ok tokens) :
    ∀ token ∈ tokens, token.WellFormed := by
  cases hget : env.macros.get? name with
  | none =>
    rw [body_of_get?_eq_none hget] at h
    cases h
  | some m =>
    rw [body_of_get?_eq_some hget] at h
    obtain ⟨text, _, h⟩ := bind_eq_ok h
    obtain ⟨read, hread, hrepeats⟩ := bind_eq_ok h
    intro token htoken
    exact Token.wellFormed_of_lexFrom hread token (Token.mem_of_expandRepeats hrepeats token htoken)

/-- **What a call expands to is code.** -/
theorem isCode_of_expands (h : env.Expands name args (.ok symbols)) : IsCode symbols := by
  refine Expands.induction (P := fun _ _ answer => ∀ symbols, answer = .ok symbols → IsCode symbols)
    ?_ h symbols rfl
  rintro name args answer hunfolds symbols rfl
  obtain ⟨tokens, codes, hbody, hexpanded, hassemble⟩ := unfolds_ok_iff.mp hunfolds
  refine Token.isCode_of_assemble ?_ hassemble
  exact Token.wellFormed_of_expanded (fun _ _ symbols h => h.2 symbols rfl)
    (wellFormed_of_body hbody) hexpanded

/-- A macro whose text is code expands to its text, whatever the arguments. -/
theorem expands_of_isCode (hget : env.macros.get? name = some m) (hcode : IsCode m.content)
    (args : List String) : env.Expands name args (.ok m.content) := by
  -- Code has no slash to be filled, no repeat and no call, so the text goes through all passes.
  have hslash : '/' ∉ m.content.toList := fun hmem => absurd (hcode '/' hmem) (by decide)
  have hbody : env.body name args = .ok (Token.ofSymbols m.content.toList) := by
    rw [body_of_get?_eq_some hget, Template.fill_of_not_mem hslash, Except.bind, Token.lex,
      Token.lexFrom_of_forall_isSymbol hcode, Except.bind,
      Token.expandRepeats_of_plain (Token.count?_ofSymbols _)]
  have hassemble : Token.assemble name (Token.ofSymbols m.content.toList) = .ok m.content := by
    rw [Token.assemble_of_plain (Token.count?_ofSymbols _) (Token.callee?_ofSymbols _),
      Token.join_ofSymbols, String.ofList_toList]
  exact expands_iff.mpr (unfolds_ok_iff.mpr
    ⟨_, _, hbody, Token.expanded_ofSymbols env.Expands m.content.toList, hassemble⟩)

end Environment
end TapeLang
