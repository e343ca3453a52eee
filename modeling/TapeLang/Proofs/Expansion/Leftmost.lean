import TapeLang.Proofs.Expansion.Depth

/-!
# Rewriting from the left

The passes over the tokens of a text are a short way to rewrite them one at a time.  Said at length:
as long as there is a repeat, the first one and the token before it become copies of that token
(`resolveRepeats`); then, as long as there is a call, the first one becomes the code that its
expansion answers (`resolveCalls`); and then all of it is code, to be joined.

The one pass for repeats keeps what is written so far on a stack, so that a repeat meets the last of
the copies that another one has made.  This is what the first repeat meets that is left, and so both
give the same tokens and fail alike (`expandRepeats_eq_resolveRepeats`).  Calls are expanded in
order either way, whatever an expansion does besides answering (`expandCalls_eq_resolveCalls`).

Main statement: `passes_eq_leftmost`.
-/

namespace TapeLang
namespace Token

/-! ### One token at a time -/

/-- The number of a repeat. -/
def count? : Token → Option Nat
  | code _ => none
  | times count => some count
  | call _ _ => none

/-- The name and the arguments of a call. -/
def callee? : Token → Option (String × List String)
  | code _ => none
  | times _ => none
  | call name args => some (name, args)

/-- The first token for which `f` has a value, as that value, with the tokens before it and those
behind it. -/
def splitFirst? {α : Type} (f : Token → Option α) :
    List Token → Option (List Token × α × List Token)
  | [] => none
  | token :: tokens =>
    match f token with
    | some a => some ([], a, tokens)
    | none => (splitFirst? f tokens).map fun (front, a, back) => (token :: front, a, back)

section

variable {α : Type} {f : Token → Option α} {tokens front back : List Token} {a : α}

theorem splitFirst?_eq_none (h : splitFirst? f tokens = none) :
    ∀ token ∈ tokens, f token = none := by
  induction tokens with
  | nil => simp
  | cons token tokens ih =>
    rw [splitFirst?] at h
    split at h
    · cases h
    · next hnone => exact List.forall_mem_cons.mpr ⟨hnone, ih (Option.map_eq_none_iff.mp h)⟩

/-- What is found is the first one. -/
theorem splitFirst?_eq_some (h : splitFirst? f tokens = some (front, a, back)) :
    ∃ token, tokens = front ++ token :: back ∧ f token = some a ∧ ∀ t ∈ front, f t = none := by
  induction tokens generalizing front with
  | nil => cases h
  | cons token tokens ih =>
    rw [splitFirst?] at h
    split at h
    · next hsome =>
      obtain ⟨rfl, rfl, rfl⟩ : [] = front ∧ _ = a ∧ tokens = back := by simpa using h
      exact ⟨token, rfl, hsome, by simp⟩
    · next hnone =>
      obtain ⟨⟨front', a', back'⟩, hrest, heq⟩ := Option.map_eq_some_iff.mp h
      obtain ⟨rfl, rfl, rfl⟩ : token :: front' = front ∧ a' = a ∧ back' = back := by simpa using heq
      obtain ⟨found, rfl, hfound, hfront⟩ := ih hrest
      exact ⟨found, rfl, hfound, List.forall_mem_cons.mpr ⟨hnone, hfront⟩⟩

end

theorem eq_times_of_count? {token : Token} {count : Nat} (h : token.count? = some count) :
    token = times count := by
  cases token with
  | times n => rw [Option.some.inj h]
  | code symbols => cases h
  | call name args => cases h

theorem eq_call_of_callee? {token : Token} {name : String} {args : List String}
    (h : token.callee? = some (name, args)) : token = call name args := by
  cases token with
  | call name' args' =>
    obtain ⟨rfl, rfl⟩ := Prod.mk.inj (Option.some.inj h)
    rfl
  | code symbols => cases h
  | times n => cases h

theorem stays_of_callee? {token : Token} (h : token.callee? = none) : token.Stays := by
  cases token with
  | code symbols => trivial
  | times n => trivial
  | call name args => cases h

/-- How many tokens have a value under `f`. -/
def countOf {α : Type} (f : Token → Option α) (tokens : List Token) : Nat :=
  tokens.countP fun token => (f token).isSome

/-- What stands for the first token with a value, without one of its own, leaves fewer of them. -/
theorem countOf_lt {α : Type} {f : Token → Option α} {tokens front back instead : List Token}
    {a : α} (h : splitFirst? f tokens = some (front, a, back))
    (hinstead : ∀ token ∈ instead, f token = none) :
    countOf f (instead ++ back) < countOf f tokens := by
  obtain ⟨token, rfl, htoken, -⟩ := splitFirst?_eq_some h
  have hzero : countOf f instead = 0 :=
    List.countP_eq_zero.mpr fun t ht => by simp [hinstead t ht]
  unfold countOf at hzero ⊢
  rw [List.countP_append, List.countP_append, List.countP_cons, hzero]
  simp only [htoken, Option.isSome_some, if_true]
  omega

/-! ### Repeats -/

/-- Copies of a token have a value only if the token has one. -/
theorem eq_none_of_copies {α : Type} {f : Token → Option α} {front : List Token} {last : Token}
    (h : ∀ token ∈ front, f token = none) (hlast : front.getLast? = some last) (count : Nat) :
    ∀ token ∈ front.dropLast ++ List.replicate count last, f token = none := by
  intro token htoken
  rw [List.mem_append, List.mem_replicate] at htoken
  obtain hdrop | ⟨_, rfl⟩ := htoken
  · exact h token (List.dropLast_subset front hdrop)
  · exact h _ (List.mem_of_getLast? hlast)

/-- Repeats resolved from the left: the first one and the token before it become copies of that
token, until none is left. -/
def resolveRepeats (site : String) (tokens : List Token) : Except Error (List Token) :=
  match _found : splitFirst? count? tokens with
  | none => .ok tokens
  | some (front, count, back) =>
    match _last : front.getLast? with
    | none => .error (.nothingToRepeat site)
    | some last => resolveRepeats site (front.dropLast ++ List.replicate count last ++ back)
termination_by countOf count? tokens
decreasing_by
  obtain ⟨_, _, _, hfront⟩ := splitFirst?_eq_some _found
  exact countOf_lt _found (eq_none_of_copies hfront _last count)

variable {site : String} {tokens front written : List Token}

/-- A token that repeats nothing is written as it is. -/
theorem pushRepeating_of_plain {token : Token} (h : token.count? = none) (written : List Token) :
    pushRepeating site written token = .ok (token :: written) := by
  cases token with
  | code symbols => cases written <;> rfl
  | call name args => cases written <;> rfl
  | times count => cases h

theorem foldlM_pushRepeating_of_plain (h : ∀ token ∈ front, token.count? = none)
    (written : List Token) :
    front.foldlM (pushRepeating site) written = .ok (front.reverse ++ written) := by
  induction front generalizing written with
  | nil => rfl
  | cons token front ih =>
    rw [List.forall_mem_cons] at h
    rw [List.foldlM_cons, pushRepeating_of_plain h.1]
    exact (ih h.2 _).trans (by simp)

theorem expandRepeats_of_plain (h : ∀ token ∈ tokens, token.count? = none) :
    expandRepeats site tokens = .ok tokens := by
  rw [expandRepeats, foldlM_pushRepeating_of_plain h]
  simp [Except.map]

/-- What is left has no repeats. -/
theorem count?_of_resolveRepeats {tokens' : List Token}
    (h : resolveRepeats site tokens = .ok tokens') : ∀ token ∈ tokens', token.count? = none := by
  fun_induction resolveRepeats site tokens with
  | case1 tokens hnone =>
    obtain rfl := Except.ok.inj h
    exact splitFirst?_eq_none hnone
  | case2 => cases h
  | case3 _ _ _ _ _ _ _ ih => exact ih h

/-- Copies that a repeat asks for are written as if they had been there. -/
theorem expandRepeats_append_times {last : Token} {count : Nat}
    (hfront : ∀ token ∈ front ++ [last], token.count? = none)
    (hcopies : ∀ token ∈ front ++ List.replicate count last, token.count? = none)
    (hcount : count ≤ maxCopies) (back : List Token) :
    expandRepeats site (front ++ [last] ++ times count :: back) =
      expandRepeats site (front ++ List.replicate count last ++ back) := by
  -- The function is about the tokens written so far, the last one on top.
  have hpush : pushRepeating site (last :: front.reverse) (times count) =
      .ok (List.replicate count last ++ front.reverse) := if_pos hcount
  have hwritten : (front ++ [last]).foldlM (pushRepeating site) [] =
      .ok (last :: front.reverse) := by
    rw [foldlM_pushRepeating_of_plain hfront]
    simp
  have hcopied : (front ++ List.replicate count last).foldlM (pushRepeating site) [] =
      .ok (List.replicate count last ++ front.reverse) := by
    rw [foldlM_pushRepeating_of_plain hcopies]
    simp
  rw [expandRepeats, expandRepeats, List.foldlM_append, hwritten, List.foldlM_append, hcopied]
  show ((times count :: back).foldlM (pushRepeating site) (last :: front.reverse)).map _ =
    (back.foldlM (pushRepeating site) (List.replicate count last ++ front.reverse)).map _
  rw [List.foldlM_cons, hpush]
  rfl

/-- **One pass copies what the first repeat copies**, as long as there is one. -/
theorem expandRepeats_eq_resolveRepeats
    (hsmall : ∀ count, times count ∈ tokens → count ≤ maxCopies) :
    expandRepeats site tokens = resolveRepeats site tokens := by
  fun_induction resolveRepeats site tokens with
  | case1 tokens hnone => exact expandRepeats_of_plain (splitFirst?_eq_none hnone)
  | case2 tokens front count back hfound hlast =>
    obtain ⟨token, rfl, htoken, -⟩ := splitFirst?_eq_some hfound
    obtain rfl := eq_times_of_count? htoken
    -- A repeat at the front has nothing before it.
    obtain rfl := List.getLast?_eq_none_iff.mp hlast
    rfl
  | case3 tokens front count back hfound last hlast ih =>
    obtain ⟨token, rfl, htoken, hfront⟩ := splitFirst?_eq_some hfound
    obtain rfl := eq_times_of_count? htoken
    have hcopies := eq_none_of_copies hfront hlast count
    -- The repeats that are left are those behind the first one.
    have hrest : ∀ n, times n ∈ front.dropLast ++ List.replicate count last ++ back →
        n ≤ maxCopies := by
      intro n hn
      obtain hmem | hback := List.mem_append.mp hn
      · cases hcopies _ hmem
      · exact hsmall n (List.mem_append_right _ (List.mem_cons_of_mem _ hback))
    have hcount : count ≤ maxCopies := hsmall count (by simp)
    rw [← ih hrest]
    obtain ⟨front, rfl⟩ := List.getLast?_eq_some_iff.mp hlast
    rw [List.dropLast_concat] at hcopies ⊢
    exact expandRepeats_append_times hfront hcopies hcount back

/-! ### Calls -/

theorem callee?_of_concat_code (h : ∀ token ∈ front, token.callee? = none) (symbols : String) :
    ∀ token ∈ front ++ [code symbols], token.callee? = none := by
  intro token htoken
  rw [List.mem_append, List.mem_singleton] at htoken
  obtain hmem | rfl := htoken
  · exact h token hmem
  · rfl

section

variable {m : Type → Type} [Monad m] (expand : String → List String → m String)

/-- Calls resolved from the left: the first one becomes the code that its expansion answers,
until none is left. -/
def resolveCalls (tokens : List Token) : m (List Token) :=
  match _found : splitFirst? callee? tokens with
  | none => pure tokens
  | some (front, (name, args), back) => do
    let symbols ← expand name args
    resolveCalls (front ++ [code symbols] ++ back)
termination_by countOf callee? tokens
decreasing_by
  obtain ⟨_, _, _, hfront⟩ := splitFirst?_eq_some _found
  exact countOf_lt _found (callee?_of_concat_code hfront symbols)

variable [LawfulMonad m]

/-- Tokens that call nothing are kept as they are. -/
theorem expandCalls_append_of_plain (h : ∀ token ∈ front, token.callee? = none)
    (tokens : List Token) :
    expandCalls expand (front ++ tokens) = (front ++ ·) <$> expandCalls expand tokens := by
  induction front with
  | nil => simp
  | cons token front ih =>
    rw [List.forall_mem_cons] at h
    rw [List.cons_append, expandCalls_cons_of_stays expand (stays_of_callee? h.1), ih h.2,
      ← comp_map]
    rfl

/-- **One pass expands what the first call expands**, as long as there is one. -/
theorem expandCalls_eq_resolveCalls (tokens : List Token) :
    expandCalls expand tokens = resolveCalls expand tokens := by
  fun_induction resolveCalls expand tokens with
  | case1 tokens hnone =>
    have hall := expandCalls_append_of_plain expand (splitFirst?_eq_none hnone) []
    rw [List.append_nil] at hall
    rw [hall]
    simp [expandCalls]
  | case2 tokens front name args back hfound ih =>
    obtain ⟨token, rfl, htoken, hfront⟩ := splitFirst?_eq_some hfound
    obtain rfl := eq_call_of_callee? htoken
    rw [expandCalls_append_of_plain expand hfront, expandCalls_cons_call, map_bind]
    congr 1
    -- The code of the call is read into what follows, and the hypothesis is about any code.
    funext symbols
    have hcode := callee?_of_concat_code hfront symbols
    rw [← ih symbols, expandCalls_append_of_plain expand hcode, ← comp_map]
    congr 1
    funext rest
    simp

end

/-! ### A text -/

/-- The symbols of a token of code. -/
def symbols : Token → String
  | code symbols => symbols
  | times _ => ""
  | call _ _ => ""

/-- Tokens of code are joined in order. -/
theorem assemble_of_plain (hcount : ∀ token ∈ tokens, token.count? = none)
    (hcallee : ∀ token ∈ tokens, token.callee? = none) (site : String) :
    assemble site tokens = .ok (String.join (tokens.map symbols)) := by
  -- The induction is over what is written so far, too.
  have hempty : String.join (tokens.map symbols) = "" ++ String.join (tokens.map symbols) :=
    String.empty_append.symm
  rw [hempty, assemble]
  clear hempty
  generalize "" = joined
  induction tokens generalizing joined with
  | nil => exact congrArg Except.ok String.append_empty.symm
  | cons token tokens ih =>
    rw [List.forall_mem_cons] at hcount hcallee
    cases token with
    | code here =>
      rw [List.foldlM_cons]
      refine (ih hcount.2 hcallee.2 (joined ++ here)).trans ?_
      rw [List.map_cons, String.join_cons, String.append_assoc]
      rfl
    | times count => cases hcount.1
    | call name args => cases hcallee.1

section

variable {m : Type → Type} [Monad m] (expand : String → List String → ExceptT Error m String)
  (site : String)

/-- The three passes: repeats, calls, and all of it joined. -/
def passes (tokens : List Token) : ExceptT Error m String := do
  let tokens ← expandRepeats site tokens
  let tokens ← expandCalls expand tokens
  assemble site tokens

/-- Tokens rewritten from the left, until they are code, and joined. -/
def leftmost (tokens : List Token) : ExceptT Error m String := do
  let tokens ← resolveRepeats site tokens
  let tokens ← resolveCalls expand tokens
  return String.join (tokens.map symbols)

/-- The calls that are made, with what they are called with. -/
def logged (name : String) (args : List String) :
    ExceptT Error (StateT (List (String × List String)) m) String := do
  modify (· ++ [(name, args)])
  ExceptT.mk (StateT.lift (expand name args).run)

variable [LawfulMonad m]

/-- Where no repeats are left, what calls resolve to is joined. -/
theorem resolveCalls_bind_assemble (hcount : ∀ token ∈ tokens, token.count? = none) :
    (do
      let tokens ← resolveCalls expand tokens
      assemble site tokens) =
    (do
      let tokens ← resolveCalls expand tokens
      return String.join (tokens.map symbols)) := by
  fun_induction resolveCalls expand tokens with
  | case1 tokens hnone =>
    rw [pure_bind, pure_bind, assemble_of_plain hcount (splitFirst?_eq_none hnone)]
    rfl
  | case2 tokens front name args back hfound ih =>
    obtain ⟨token, rfl, htoken, hfront⟩ := splitFirst?_eq_some hfound
    rw [bind_assoc, bind_assoc]
    congr 1
    funext symbols
    -- Code stands for the call, so that still nothing repeats.
    refine ih symbols fun t ht => ?_
    rw [List.append_assoc, List.mem_append, List.singleton_append, List.mem_cons] at ht
    obtain hmem | rfl | hmem := ht
    · exact hcount t (List.mem_append_left _ hmem)
    · rfl
    · exact hcount t (List.mem_append_right _ (List.mem_cons_of_mem _ hmem))

/-- A step that needs no monad fails, or goes on with what it answers. -/
theorem lift_bind {α β : Type} (answer : Except Error α) (rest : α → ExceptT Error m β) :
    (do
      let a ← answer
      rest a) = match answer with
      | .error e => throw e
      | .ok a => rest a := by
  cases answer with
  | error e => exact ExceptT.ext (pure_bind (m := m) (Except.error e) _)
  | ok a => exact pure_bind a rest

/-- Each way resolves the repeats first, and alike. -/
theorem passes_eq_leftmost_of_expand (hsmall : ∀ count, times count ∈ tokens → count ≤ maxCopies) :
    passes expand site tokens = leftmost expand site tokens := by
  rw [passes, leftmost, expandRepeats_eq_resolveRepeats hsmall, lift_bind, lift_bind]
  cases hresolved : resolveRepeats site tokens with
  | error e => rfl
  | ok resolved =>
    dsimp only
    rw [expandCalls_eq_resolveCalls]
    exact resolveCalls_bind_assemble expand site (count?_of_resolveRepeats hresolved)

/-- **The passes rewrite from the left.**  They answer the same code or the same error as the
rewriting of one token at a time, whatever expanding a call does besides answering, and make the
same calls with the same arguments in the same order. -/
theorem passes_eq_leftmost (hsmall : ∀ count, times count ∈ tokens → count ≤ maxCopies) :
    passes expand site tokens = leftmost expand site tokens ∧
      passes (logged expand) site tokens = leftmost (logged expand) site tokens :=
  ⟨passes_eq_leftmost_of_expand expand site hsmall,
    passes_eq_leftmost_of_expand (logged expand) site hsmall⟩

end

/-- Of the copies of `+`, the last one is copied again; `a` is repeated not at all and `b` twice,
with an answer that depends on how many calls there were; `c` fails. -/
theorem passes_eq_leftmost_chained :
    let tokens := [code "+", times 2, times 3, call "a" [], times 0, call "b" ["x"], times 2]
    let expand : String → List String → ExceptT Error (StateM Nat) String := fun name _ => do
      let calls ← getModify (· + 1)
      if name = "c" then throw (.undefinedMacro name)
      return String.ofList (List.replicate calls '-')
    ((leftmost (logged expand) "m" tokens).run.run []).run 1 =
        ((.ok "++++---", [("b", ["x"]), ("b", ["x"])]), 3) ∧
      ((leftmost (logged expand) "m" (tokens ++ [call "c" [], call "a" []])).run.run []).run 1 =
        ((.error (.undefinedMacro "c"), [("b", ["x"]), ("b", ["x"]), ("c", [])]), 4) := by
  intro tokens expand
  have hsmall : ∀ count, times count ∈ tokens ++ [call "c" [], call "a" []] →
      count ≤ maxCopies := by
    simp [tokens, maxCopies]
  have htokens : ∀ count, times count ∈ tokens → count ≤ maxCopies :=
    fun count h => hsmall count (List.mem_append_left _ h)
  rw [← (passes_eq_leftmost expand "m" htokens).2, ← (passes_eq_leftmost expand "m" hsmall).2]
  exact ⟨rfl, rfl⟩

end Token
end TapeLang
