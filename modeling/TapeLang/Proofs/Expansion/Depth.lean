import TapeLang.Expansion
import TapeLang.Proofs.Fallible

/-!
# Expansions that end

An expansion is bounded by a depth, and the depth matters only in whether there is an answer.
`Environment.Expands` leaves it aside: a call expands to an answer if some depth suffices.  Any
greater depth gives the same answer (`expand_mono`), and so a call has one answer at most
(`Expands.unique`).

`Token.Expanded` says what becomes of tokens when their calls are answered in a given way: the first
failure is the answer, and otherwise each call becomes code.  With it an expansion is its body and
the expansions of the calls in it (`expands_iff`), and what holds of a call whenever it holds of the
calls in its body holds of every call that has an answer (`Expands.induction`).
-/

namespace TapeLang

/-- What calls are answered, by name and arguments. -/
abbrev Answers := String → List String → Except Error String → Prop

namespace Token

/-! ### The tokens of a body -/

/-- The token is not a call, and stays as it is. -/
def Stays : Token → Prop
  | code _ => True
  | times _ => True
  | call _ _ => False

/-- What becomes of tokens whose calls are answered in this way. -/
inductive Expanded (answers : Answers) : List Token → Except Error (List Token) → Prop
  | nil : Expanded answers [] (.ok [])
  | stays {token : Token} {tokens : List Token} {result : Except Error (List Token)}
      (h : token.Stays) (rest : Expanded answers tokens result) :
      Expanded answers (token :: tokens) (result.map (token :: ·))
  /-- The calls behind one that fails are not looked at. -/
  | failed {name : String} {args : List String} {tokens : List Token} {e : Error}
      (h : answers name args (.error e)) : Expanded answers (call name args :: tokens) (.error e)
  | expanded {name : String} {args : List String} {tokens : List Token} {symbols : String}
      {result : Except Error (List Token)} (h : answers name args (.ok symbols))
      (rest : Expanded answers tokens result) :
      Expanded answers (call name args :: tokens) (result.map (code symbols :: ·))

theorem Expanded.mono {answers answers' : Answers} {tokens : List Token}
    {result : Except Error (List Token)} (h : Expanded answers tokens result)
    (hmono : ∀ name args answer, answers name args answer → answers' name args answer) :
    Expanded answers' tokens result := by
  induction h with
  | nil => exact nil
  | stays h _ ih => exact stays h ih
  | failed h => exact failed (hmono _ _ _ h)
  | expanded h _ ih => exact expanded (hmono _ _ _ h) ih

section

variable {m : Type → Type} [Monad m] [LawfulMonad m]

/-- What is not a call is kept. -/
theorem expandCalls_cons_of_stays (expand : String → List String → m String) {token : Token}
    (h : token.Stays) (tokens : List Token) :
    expandCalls expand (token :: tokens) = (token :: ·) <$> expandCalls expand tokens := by
  cases token with
  | code symbols => simp [expandCalls]
  | times count => simp [expandCalls]
  | call name args => cases h

/-- A call is expanded before those behind it. -/
theorem expandCalls_cons_call (expand : String → List String → m String) (name : String)
    (args : List String) (tokens : List Token) :
    expandCalls expand (call name args :: tokens) = (do
      let symbols ← expand name args
      (code symbols :: ·) <$> expandCalls expand tokens) := by
  simp [expandCalls]

variable (expand : String → List String → ExceptT Error m String)

theorem run_expandCalls_nil : (expandCalls expand []).run = pure (.ok []) := by
  simp [expandCalls]

theorem run_expandCalls_cons_of_stays {token : Token} (h : token.Stays) (tokens : List Token) :
    (expandCalls expand (token :: tokens)).run =
      (·.map (token :: ·)) <$> (expandCalls expand tokens).run := by
  rw [expandCalls_cons_of_stays expand h, ExceptT.run_map]

/-- A call that fails is the end, and code stands for any other one. -/
theorem run_expandCalls_cons_call (name : String) (args : List String) (tokens : List Token) :
    (expandCalls expand (call name args :: tokens)).run = (do
      match ← (expand name args).run with
      | .error e => return .error e
      | .ok symbols => (·.map (code symbols :: ·)) <$> (expandCalls expand tokens).run) := by
  rw [expandCalls_cons_call, ExceptT.run_bind]
  congr 1
  funext answer
  cases answer with
  | error e => rfl
  | ok symbols => exact ExceptT.run_map _ _

end

/-- The calls of a list of tokens are expanded in order. -/
theorem run_expandCalls_eq_some_iff {expand : String → List String → ExceptT Error Option String}
    {tokens : List Token} {result : Except Error (List Token)} :
    (expandCalls expand tokens).run = some result ↔
      Expanded (fun name args answer => (expand name args).run = some answer) tokens result := by
  constructor
  · intro h
    -- The induction is on the tokens, since this is what the function recurs on; the result follows
    -- it.
    induction tokens generalizing result with
    | nil =>
      rw [run_expandCalls_nil] at h
      obtain rfl : Except.ok [] = result := Option.some.inj h
      exact .nil
    | cons token tokens ih =>
      by_cases hstays : token.Stays
      · rw [run_expandCalls_cons_of_stays expand hstays] at h
        obtain ⟨rest, hrest, rfl⟩ := Option.map_eq_some_iff.mp h
        exact .stays hstays (ih hrest)
      cases token with
      | code symbols => exact absurd trivial hstays
      | times count => exact absurd trivial hstays
      | call name args =>
        rw [run_expandCalls_cons_call] at h
        obtain ⟨answer, hanswer, hresult⟩ := Option.bind_eq_some_iff.mp h
        cases answer with
        | error e =>
          obtain rfl : Except.error e = result := Option.some.inj hresult
          exact .failed hanswer
        | ok symbols =>
          obtain ⟨rest, hrest, rfl⟩ := Option.map_eq_some_iff.mp hresult
          exact .expanded hanswer (ih hrest)
  · intro h
    -- The other way round it is on the derivation, which has a case for each way to go on.
    induction h with
    | nil => rw [run_expandCalls_nil]; rfl
    | stays h _ ih => rw [run_expandCalls_cons_of_stays expand h, ih]; rfl
    | failed h => rw [run_expandCalls_cons_call, h]; rfl
    | expanded h _ ih => rw [run_expandCalls_cons_call, h, ih]; rfl

end Token

namespace Environment

/-! ### A call -/

variable {env : Environment} {depth : Nat} {name : String} {args : List String}
  {answer : Except Error String}

theorem body_of_get?_eq_none (h : env.macros.get? name = none) :
    env.body name args = .error (.undefinedMacro name) := by
  rw [body, h]
  rfl

theorem body_of_get?_eq_some {m : Macro} (h : env.macros.get? name = some m) :
    env.body name args =
      (Template.fill ⟨args, env.constants⟩ name m.content).bind fun text =>
        (Token.lex name text).bind (Token.expandRepeats name) := by
  rw [body, h]
  rfl

theorem expand_zero (env : Environment) : env.expand 0 = fun _ _ => ExceptT.mk none := by
  funext name args
  rw [expand]

theorem expand_succ (env : Environment) (depth : Nat) :
    env.expand (depth + 1) = (fun name args => do
      let tokens ← expand.liftExcept (env.body name args)
      let code ← Token.expandCalls (env.expand depth) tokens
      expand.liftExcept (Token.assemble name code)) := by
  funext name args
  rw [expand]

/-- A call whose body cannot be read fails, and any other one is expanded by its calls. -/
theorem run_expand_succ (env : Environment) (depth : Nat) (name : String) (args : List String) :
    (env.expand (depth + 1) name args).run =
      match env.body name args with
      | .error e => some (.error e)
      | .ok tokens =>
        (Token.expandCalls (env.expand depth) tokens).run.map (·.bind (Token.assemble name)) := by
  rw [expand]
  simp only [expand.liftExcept, ExceptT.run_bind, ExceptT.run_mk]
  cases env.body name args with
  | error e => rfl
  | ok tokens =>
    simp only [Option.bind_eq_bind, Option.bind_some]
    rcases (Token.expandCalls (env.expand depth) tokens).run with _ | _ | codes <;> rfl

/-- A call has this answer, at a depth that suffices. -/
def Expands (env : Environment) : Answers := fun name args answer =>
  ∃ depth, (env.expand depth name args).run = some answer

/-- The answers to calls if those in their bodies are answered in this way. -/
def Unfolds (env : Environment) (answers : Answers) : Answers := fun name args answer =>
  match env.body name args with
  | .error e => .error e = answer
  | .ok tokens => ∃ codes, Token.Expanded answers tokens codes ∧
      codes.bind (Token.assemble name) = answer

theorem Unfolds.mono {answers answers' : Answers} (h : env.Unfolds answers name args answer)
    (hmono : ∀ name args answer, answers name args answer → answers' name args answer) :
    env.Unfolds answers' name args answer := by
  unfold Unfolds at h ⊢
  cases hbody : env.body name args with
  | error e => simpa only [hbody] using h
  | ok tokens =>
    simp only [hbody] at h ⊢
    obtain ⟨codes, hcodes, rfl⟩ := h
    exact ⟨codes, hcodes.mono hmono, rfl⟩

/-- A call has code if its body can be read and the calls in it have code. -/
theorem unfolds_ok_iff {answers : Answers} {symbols : String} :
    env.Unfolds answers name args (.ok symbols) ↔
      ∃ tokens codes, env.body name args = .ok tokens ∧
        Token.Expanded answers tokens (.ok codes) ∧ Token.assemble name codes = .ok symbols := by
  unfold Unfolds
  constructor
  · intro h
    cases hbody : env.body name args with
    | error e =>
      simp only [hbody] at h
      cases h
    | ok tokens =>
      simp only [hbody] at h
      obtain ⟨_, hexpanded, hassemble⟩ := h
      obtain ⟨codes, rfl, hassemble⟩ := bind_eq_ok hassemble
      exact ⟨tokens, codes, rfl, hexpanded, hassemble⟩
  · rintro ⟨tokens, codes, hbody, hexpanded, hassemble⟩
    rw [hbody]
    exact ⟨.ok codes, hexpanded, hassemble⟩

/-- One more depth is one more body. -/
theorem run_expand_succ_eq_some_iff :
    (env.expand (depth + 1) name args).run = some answer ↔
      env.Unfolds (fun name args answer => (env.expand depth name args).run = some answer) name args
        answer := by
  rw [run_expand_succ, Unfolds]
  cases env.body name args with
  | error e => simp only [Option.some.injEq]
  | ok tokens => simp only [Option.map_eq_some_iff, Token.run_expandCalls_eq_some_iff]

/-- **A greater depth keeps every answer.** -/
theorem expand_mono {depth' : Nat} (hle : depth ≤ depth')
    (h : (env.expand depth name args).run = some answer) :
    (env.expand depth' name args).run = some answer := by
  induction depth generalizing depth' name args answer with
  | zero => cases h
  | succ depth ih =>
    obtain ⟨k, rfl⟩ := Nat.exists_eq_add_of_le hle
    rw [Nat.add_right_comm, run_expand_succ_eq_some_iff]
    rw [run_expand_succ_eq_some_iff] at h
    exact h.mono fun name args answer => ih (Nat.le_add_right depth k)

/-- A call has one answer at most. -/
theorem Expands.unique {answer' : Except Error String} (h : env.Expands name args answer)
    (h' : env.Expands name args answer') : answer = answer' := by
  obtain ⟨depth, h⟩ := h
  obtain ⟨depth', h'⟩ := h'
  have hmax := expand_mono (Nat.le_max_left depth depth') h
  rw [expand_mono (Nat.le_max_right depth depth') h'] at hmax
  exact (Option.some.inj hmax).symm

/-- The calls in one list of tokens have a depth in common. -/
theorem exists_depth_of_expanded {tokens : List Token} {codes : Except Error (List Token)}
    (h : Token.Expanded env.Expands tokens codes) :
    ∃ depth, Token.Expanded (fun name args answer => (env.expand depth name args).run = some answer)
      tokens codes := by
  -- The calls of a list need different depths. The greatest of them is enough for all, for a
  -- greater depth keeps every answer.
  induction h with
  | nil => exact ⟨0, .nil⟩
  | stays h _ ih =>
    obtain ⟨depth, ih⟩ := ih
    exact ⟨depth, .stays h ih⟩
  | failed h =>
    obtain ⟨depth, h⟩ := h
    exact ⟨depth, .failed h⟩
  | expanded h _ ih =>
    obtain ⟨depth, h⟩ := h
    obtain ⟨depth', ih⟩ := ih
    refine ⟨max depth depth', .expanded (expand_mono (Nat.le_max_left _ _) h) (ih.mono ?_)⟩
    intro name args answer
    exact expand_mono (Nat.le_max_right _ _)

/-- **A call is its body**, with the calls in it expanded. -/
theorem expands_iff : env.Expands name args answer ↔ env.Unfolds env.Expands name args answer := by
  constructor
  · rintro ⟨depth, h⟩
    cases depth with
    | zero => cases h
    | succ depth =>
      -- The calls in the body are expanded with one depth less, and each of them has its answer
      -- with some depth.
      rw [run_expand_succ_eq_some_iff] at h
      exact h.mono fun name args answer h => ⟨depth, h⟩
  · intro h
    unfold Unfolds at h
    cases hbody : env.body name args with
    | error e =>
      simp only [hbody] at h
      refine ⟨1, ?_⟩
      rw [run_expand_succ, hbody, ← h]
    | ok tokens =>
      simp only [hbody] at h
      obtain ⟨codes, hcodes, rfl⟩ := h
      obtain ⟨depth, hdepth⟩ := exists_depth_of_expanded hcodes
      refine ⟨depth + 1, ?_⟩
      rw [run_expand_succ_eq_some_iff, Unfolds, hbody]
      exact ⟨codes, hdepth, rfl⟩

/-- Induction over an expansion: what holds of a call if it holds of the calls in its body,
holds of every call that has an answer. -/
theorem Expands.induction {P : Answers}
    (step : ∀ name args answer,
      env.Unfolds (fun name args answer => env.Expands name args answer ∧ P name args answer) name
        args answer → P name args answer)
    (h : env.Expands name args answer) : P name args answer := by
  obtain ⟨depth, h⟩ := h
  -- The depth goes down by one from a call to those in its body, so the induction is on it.
  induction depth generalizing name args answer with
  | zero => cases h
  | succ depth ih =>
    rw [run_expand_succ_eq_some_iff] at h
    exact step name args answer (h.mono fun name args answer h => ⟨⟨depth, h⟩, ih h⟩)

end Environment
end TapeLang
