import Mathlib.Data.List.Forall2
import TapeLang.Proofs.Expansion.Depth

/-!
# Remembered expansions

A memory of finished expansions should not be seen in the answers.  What carries this is that a
memory is *faithful*: whatever is looked up in it is the answer that the plain expansion gives.  The
empty memory is faithful, and a call leaves a faithful memory behind, whether it succeeds or fails
(`expands_of_call`); conversely a call has an answer at every depth that suffices for the plain
expansion (`exists_call_of_expand`).

A memory changes while calls are expanded, in the midst of a body.  `During` and `DuringCalls` are
the memories that there are at some time, also in calls that fail later or never come to an end.

Main statement: for any calls made one after the other, the answers are those of the plain
expansions, and the memory is faithful at all times (`callAll_agrees_with_expand`).
-/

namespace TapeLang.Environment

variable {env : Environment} {depth : Nat} {name : String} {args : List String}
  {answer : Except Error String} {tokens : List Token} {codes : Except Error (List Token)}
  {memory memory' : Memory}

/-! ### Calls with a memory -/

/-- The tokens of a body with their calls expanded, and the memory after it. -/
def callTokens (env : Environment) (depth : Nat) (tokens : List Token) (memory : Memory) :
    Option (Except Error (List Token) × Memory) :=
  (Token.expandCalls (env.expandOnce depth) tokens).run.run memory

theorem callTokens_nil : env.callTokens depth [] memory = some (.ok [], memory) := by
  rw [callTokens, Token.run_expandCalls_nil]
  rfl

theorem callTokens_cons_of_stays {token : Token} (h : token.Stays) (tokens : List Token) :
    env.callTokens depth (token :: tokens) memory =
      (env.callTokens depth tokens memory).map fun (codes, memory) =>
        (codes.map (token :: ·), memory) := by
  rw [callTokens, Token.run_expandCalls_cons_of_stays _ h, StateT.run_map]
  rfl

theorem callTokens_cons_call (name : String) (args : List String) (tokens : List Token) :
    env.callTokens depth (.call name args :: tokens) memory =
      (env.call depth name args memory).bind fun
        | (.error e, memory) => some (.error e, memory)
        | (.ok symbols, memory) =>
          (env.callTokens depth tokens memory).map fun (codes, memory) =>
            (codes.map (.code symbols :: ·), memory) := by
  rw [callTokens, Token.run_expandCalls_cons_call, StateT.run_bind]
  show Option.bind _ _ = Option.bind _ _
  congr 1
  funext ⟨answer, memory⟩
  cases answer with
  | error e => rfl
  | ok symbols =>
    dsimp only
    rw [StateT.run_map]
    rfl

/-- What is remembered behind a call: its code, unless it failed. -/
def note (name : String) (args : List String) (answer : Except Error String) (memory : Memory) :
    Memory :=
  match answer with
  | .error _ => memory
  | .ok symbols => memory.insert (name, args) symbols

/-- A call is looked up, or its body is expanded. -/
theorem call_succ (env : Environment) (depth : Nat) (name : String) (args : List String)
    (memory : Memory) :
    env.call (depth + 1) name args memory =
      match memory[(name, args)]? with
      | some known => some (.ok known, memory)
      | none =>
        match env.body name args with
        | .error e => some (.error e, memory)
        | .ok tokens =>
          (env.callTokens depth tokens memory).map fun (codes, memory) =>
            let answer := codes.bind (Token.assemble name)
            (answer, note name args answer memory) := by
  have hget : (get : ExceptT Error (StateT Memory Option) Memory).run.run memory =
    some (.ok memory, memory) := rfl
  rw [call, expandOnce]
  simp only [expandOnce.liftExcept, ExceptT.run_bind, StateT.run_bind, hget, Option.bind_eq_bind,
    Option.bind_some]
  cases memory[(name, args)]? with
  | some known => rfl
  | none =>
    cases env.body name args with
    | error e => rfl
    | ok tokens =>
      unfold callTokens
      -- The memory behind the calls goes into the answer, so the two are taken apart together.
      rcases h : (Token.expandCalls (env.expandOnce depth) tokens).run.run memory with
        _ | ⟨codes, memory'⟩
      · simp only [ExceptT.run_bind, StateT.run_bind, ExceptT.run_mk, StateT.run_pure,
          Option.pure_def, Option.bind_eq_bind, Option.bind_some, h, Option.bind_none,
          Option.map_none]
      · simp only [ExceptT.run_bind, StateT.run_bind, ExceptT.run_mk, StateT.run_pure,
          Option.pure_def, Option.bind_eq_bind, Option.bind_some, h, Option.map_some]
        cases codes with
        | error e => rfl
        | ok codes =>
          simp only [StateT.run_bind, StateT.run_pure, Option.pure_def, Option.bind_eq_bind,
            Option.bind_some, Except.bind]
          cases Token.assemble name codes <;> rfl

/-! ### Faithful memories -/

/-- What is remembered is right. -/
def Faithful (env : Environment) (memory : Memory) : Prop :=
  ∀ name args symbols, memory[(name, args)]? = some symbols → env.Expands name args (.ok symbols)

theorem faithful_empty : env.Faithful {} := by
  intro name args symbols h
  simp at h

theorem Faithful.note (h : env.Faithful memory) (hexpands : env.Expands name args answer) :
    env.Faithful (note name args answer memory) := by
  -- Only code is remembered, and what was remembered under other calls stays.
  cases answer with
  | error e => exact h
  | ok symbols =>
    intro name' args' symbols' h'
    rw [Environment.note, Std.HashMap.getElem?_insert] at h'
    split at h'
    · next heq =>
      obtain ⟨rfl, rfl⟩ : name = name' ∧ args = args' := by simpa using heq
      obtain rfl := Option.some.inj h'
      exact hexpands
    · exact h name' args' symbols' h'

/-- The calls in a list of tokens are answered right, if each call is. -/
theorem expanded_of_callTokens
    (hcalls : ∀ {name args answer memory memory'}, env.Faithful memory →
      env.call depth name args memory = some (answer, memory') →
        env.Expands name args answer ∧ env.Faithful memory')
    (hmemory : env.Faithful memory)
    (h : env.callTokens depth tokens memory = some (codes, memory')) :
    Token.Expanded env.Expands tokens codes ∧ env.Faithful memory' := by
  -- The memory is passed from token to token, and every call leaves a faithful one behind.
  induction tokens generalizing memory codes with
  | nil =>
    rw [callTokens_nil] at h
    obtain ⟨rfl, rfl⟩ : .ok [] = codes ∧ memory = memory' := by simpa using h
    exact ⟨.nil, hmemory⟩
  | cons token tokens ih =>
    by_cases hstays : token.Stays
    · rw [callTokens_cons_of_stays hstays] at h
      obtain ⟨⟨rest, after⟩, hrest, heq⟩ := Option.map_eq_some_iff.mp h
      obtain ⟨rfl, rfl⟩ := Prod.mk.inj heq
      obtain ⟨hexpanded, hafter⟩ := ih hmemory hrest
      exact ⟨.stays hstays hexpanded, hafter⟩
    cases token with
    | code symbols => exact absurd trivial hstays
    | times count => exact absurd trivial hstays
    | call name args =>
      rw [callTokens_cons_call] at h
      obtain ⟨⟨answer, between⟩, hcall, hresult⟩ := Option.bind_eq_some_iff.mp h
      obtain ⟨hexpands, hbetween⟩ := hcalls hmemory hcall
      cases answer with
      | error e =>
        obtain ⟨rfl, rfl⟩ : .error e = codes ∧ between = memory' := by simpa using hresult
        exact ⟨.failed hexpands, hbetween⟩
      | ok symbols =>
        obtain ⟨⟨rest, after⟩, hrest, heq⟩ := Option.map_eq_some_iff.mp hresult
        obtain ⟨rfl, rfl⟩ := Prod.mk.inj heq
        obtain ⟨hexpanded, hafter⟩ := ih hbetween hrest
        exact ⟨.expanded hexpands hexpanded, hafter⟩

/-- **A call with a faithful memory** has the answer of the plain expansion, and leaves a faithful
memory behind. -/
theorem expands_of_call (hmemory : env.Faithful memory)
    (h : env.call depth name args memory = some (answer, memory')) :
    env.Expands name args answer ∧ env.Faithful memory' := by
  -- The lemma on tokens is for one depth less, where it takes the calls to be answered right.
  induction depth generalizing name args answer memory memory' with
  | zero => cases h
  | succ depth ih =>
    rw [call_succ] at h
    cases hknown : memory[(name, args)]? with
    | some known =>
      rw [hknown] at h
      obtain ⟨rfl, rfl⟩ : .ok known = answer ∧ memory = memory' := by simpa using h
      -- The answer is looked up, and what is remembered is right.
      exact ⟨hmemory name args known hknown, hmemory⟩
    | none =>
      rw [hknown] at h
      cases hbody : env.body name args with
      | error e =>
        rw [hbody] at h
        obtain ⟨rfl, rfl⟩ : .error e = answer ∧ memory = memory' := by simpa using h
        refine ⟨expands_iff.mpr ?_, hmemory⟩
        rw [Unfolds, hbody]
      | ok tokens =>
        rw [hbody] at h
        obtain ⟨⟨codes, after⟩, htokens, heq⟩ := Option.map_eq_some_iff.mp h
        obtain ⟨rfl, rfl⟩ := Prod.mk.inj heq
        obtain ⟨hexpanded, hafter⟩ := expanded_of_callTokens ih hmemory htokens
        have hexpands : env.Expands name args (codes.bind (Token.assemble name)) := by
          rw [expands_iff, Unfolds, hbody]
          exact ⟨codes, hexpanded, rfl⟩
        exact ⟨hexpands, hafter.note hexpands⟩

theorem exists_callTokens_of_expanded
    (hcalls : ∀ {name args answer memory}, env.Faithful memory →
      (env.expand depth name args).run = some answer →
        ∃ memory', env.call depth name args memory = some (answer, memory'))
    (hmemory : env.Faithful memory)
    (h : Token.Expanded (fun name args answer => (env.expand depth name args).run = some answer)
      tokens codes) :
    ∃ memory', env.callTokens depth tokens memory = some (codes, memory') := by
  -- The memory may differ from call to call, but it is faithful all the time, which is all that is
  -- asked.
  induction h generalizing memory with
  | nil => exact ⟨memory, callTokens_nil⟩
  | stays hstays _ ih =>
    obtain ⟨after, hrest⟩ := ih hmemory
    refine ⟨after, ?_⟩
    rw [callTokens_cons_of_stays hstays, hrest, Option.map_some]
  | failed hexpand =>
    obtain ⟨between, hcall⟩ := hcalls hmemory hexpand
    refine ⟨between, ?_⟩
    rw [callTokens_cons_call, hcall, Option.bind_some]
  | expanded hexpand _ ih =>
    obtain ⟨between, hcall⟩ := hcalls hmemory hexpand
    obtain ⟨after, hrest⟩ := ih (expands_of_call hmemory hcall).2
    refine ⟨after, ?_⟩
    rw [callTokens_cons_call, hcall, Option.bind_some]
    dsimp only
    rw [hrest, Option.map_some]

/-- A call has an answer at every depth that suffices for the plain expansion. -/
theorem exists_call_of_expand (hmemory : env.Faithful memory)
    (h : (env.expand depth name args).run = some answer) :
    ∃ memory', env.call depth name args memory = some (answer, memory') := by
  induction depth generalizing name args answer memory with
  | zero => cases h
  | succ depth ih =>
    rw [call_succ]
    cases hknown : memory[(name, args)]? with
    | some known =>
      -- What is remembered is the one answer that the call has.
      have hexpands : env.Expands name args answer := ⟨depth + 1, h⟩
      obtain rfl := hexpands.unique (hmemory name args known hknown)
      exact ⟨memory, rfl⟩
    | none =>
      rw [run_expand_succ_eq_some_iff, Unfolds] at h
      cases hbody : env.body name args with
      | error e =>
        rw [hbody] at h
        obtain rfl := h
        exact ⟨memory, rfl⟩
      | ok tokens =>
        rw [hbody] at h
        obtain ⟨codes, hexpanded, rfl⟩ := h
        obtain ⟨after, htokens⟩ := exists_callTokens_of_expanded ih hmemory hexpanded
        dsimp only
        rw [htokens, Option.map_some]
        exact ⟨_, rfl⟩

/-- A text is compiled as it is expanded. -/
theorem compile_eq_of_expand (h : (env.expand depth name []).run = some answer) :
    env.compile depth name = some answer := by
  obtain ⟨memory', hcall⟩ := exists_call_of_expand faithful_empty h
  rw [compile, hcall]
  rfl

/-! ### Calls one after the other -/

/-- The answers to calls that are made one after the other, and the memory after them. -/
def callAll (env : Environment) (depth : Nat) : List (String × List String) → Memory →
    Option (List (Except Error String) × Memory)
  | [], memory => some ([], memory)
  | (name, args) :: calls, memory =>
    (env.call depth name args memory).bind fun (answer, memory) =>
      (env.callAll depth calls memory).map fun (answers, memory) => (answer :: answers, memory)

/-- The memory is at some time this one, while a call is expanded. -/
inductive During (env : Environment) : Nat → String → List String → Memory → Memory → Prop
  | start {depth : Nat} {name : String} {args : List String} {memory : Memory} :
      During env depth name args memory memory
  /-- Some calls in the body are expanded, and the next one is being expanded. -/
  | inside {depth : Nat} {name : String} {args : List String} {memory between now : Memory}
      {front back : List Token} {callee : String} {calleeArgs : List String} {codes : List Token}
      (hnew : memory[(name, args)]? = none)
      (hbody : env.body name args = .ok (front ++ .call callee calleeArgs :: back))
      (hfront : env.callTokens depth front memory = some (.ok codes, between))
      (h : During env depth callee calleeArgs between now) :
      During env (depth + 1) name args memory now
  | finish {depth : Nat} {name : String} {args : List String} {memory after : Memory}
      {answer : Except Error String} (h : env.call depth name args memory = some (answer, after)) :
      During env depth name args memory after

/-- The memory is at some time this one, while calls are made one after the other. -/
inductive DuringCalls (env : Environment) (depth : Nat) :
    List (String × List String) → Memory → Memory → Prop
  | start {calls : List (String × List String)} {memory : Memory} :
      DuringCalls env depth calls memory memory
  | within {name : String} {args : List String} {calls : List (String × List String)}
      {memory now : Memory} (h : env.During depth name args memory now) :
      DuringCalls env depth ((name, args) :: calls) memory now
  | later {name : String} {args : List String} {calls : List (String × List String)}
      {memory between now : Memory} {answer : Except Error String}
      (h : env.call depth name args memory = some (answer, between))
      (rest : DuringCalls env depth calls between now) :
      DuringCalls env depth ((name, args) :: calls) memory now

/-- **The memory is faithful at all times** during a call. -/
theorem During.faithful {now : Memory} (h : env.During depth name args memory now)
    (hmemory : env.Faithful memory) : env.Faithful now := by
  induction h with
  | start => exact hmemory
  | inside _ _ hfront _ ih => exact ih (expanded_of_callTokens expands_of_call hmemory hfront).2
  | finish h => exact (expands_of_call hmemory h).2

theorem DuringCalls.faithful {calls : List (String × List String)} {now : Memory}
    (h : env.DuringCalls depth calls memory now) (hmemory : env.Faithful memory) :
    env.Faithful now := by
  induction h with
  | start => exact hmemory
  | within h => exact h.faithful hmemory
  | later h _ ih => exact ih (expands_of_call hmemory h).2

theorem forall₂_expands_of_callAll {calls : List (String × List String)}
    {answers : List (Except Error String)} (hmemory : env.Faithful memory)
    (h : env.callAll depth calls memory = some (answers, memory')) :
    List.Forall₂ (fun call answer => env.Expands call.1 call.2 answer) calls answers := by
  induction calls generalizing memory answers with
  | nil =>
    obtain ⟨rfl, rfl⟩ : [] = answers ∧ memory = memory' := by simpa [callAll] using h
    exact .nil
  | cons call calls ih =>
    obtain ⟨name, args⟩ := call
    obtain ⟨⟨answer, between⟩, hcall, hresult⟩ := Option.bind_eq_some_iff.mp h
    obtain ⟨⟨rest, after⟩, hrest, heq⟩ := Option.map_eq_some_iff.mp hresult
    obtain ⟨rfl, rfl⟩ := Prod.mk.inj heq
    obtain ⟨hexpands, hbetween⟩ := expands_of_call hmemory hcall
    exact .cons hexpands (ih hbetween hrest)

theorem exists_callAll_of_forall₂ {calls : List (String × List String)}
    {answers : List (Except Error String)}
    (h : List.Forall₂ (fun call answer => env.Expands call.1 call.2 answer) calls answers) :
    ∃ bound, ∀ depth, bound ≤ depth → ∀ memory, env.Faithful memory →
      ∃ memory', env.callAll depth calls memory = some (answers, memory') := by
  induction h with
  | nil => exact ⟨0, fun depth _ memory _ => ⟨memory, rfl⟩⟩
  | @cons call answer calls answers hcall _ ih =>
    obtain ⟨name, args⟩ := call
    obtain ⟨needed, hneeded⟩ := hcall
    obtain ⟨bound, ih⟩ := ih
    -- From the greater of both bounds on, the first call has its answer and the others have theirs.
    refine ⟨max needed bound, fun depth hdepth memory hmemory => ?_⟩
    have hexpand := expand_mono (Nat.le_trans (Nat.le_max_left _ _) hdepth) hneeded
    obtain ⟨between, hbetween⟩ := exists_call_of_expand hmemory hexpand
    obtain ⟨after, hafter⟩ := ih depth (Nat.le_trans (Nat.le_max_right _ _) hdepth) between
      (expands_of_call hmemory hbetween).2
    refine ⟨after, ?_⟩
    rw [callAll, hbetween, Option.bind_some]
    dsimp only
    rw [hafter, Option.map_some]

/-- Calls have these answers when they are made one after the other, from an empty memory and
with a depth that suffices. -/
def Answered (env : Environment) (calls : List (String × List String))
    (answers : List (Except Error String)) : Prop :=
  ∃ depth, (env.callAll depth calls {}).map Prod.fst = some answers

theorem answered_iff {calls : List (String × List String)} {answers : List (Except Error String)} :
    env.Answered calls answers ↔
      List.Forall₂ (fun call answer => env.Expands call.1 call.2 answer) calls answers := by
  constructor
  · rintro ⟨depth, h⟩
    obtain ⟨⟨_, memory⟩, hall, rfl⟩ := Option.map_eq_some_iff.mp h
    exact forall₂_expands_of_callAll faithful_empty hall
  · intro h
    obtain ⟨bound, hbound⟩ := exists_callAll_of_forall₂ h
    obtain ⟨memory, hall⟩ := hbound bound (Nat.le_refl bound) {} faithful_empty
    exact ⟨bound, by rw [hall, Option.map_some]⟩

/-- **The memory is not seen.**  Calls that are made one after the other, from an empty memory, have
the answers of the plain expansions, code and failures alike: at every depth from some depth on if
each of them has an answer, and at no depth any others.  At all times, also in the midst of a call,
the memory holds only what the plain expansions give. -/
theorem callAll_agrees_with_expand (env : Environment) (calls : List (String × List String)) :
    (∀ answers, List.Forall₂ (fun call answer => env.Expands call.1 call.2 answer) calls answers →
      ∃ bound, ∀ depth, bound ≤ depth →
        ∃ memory, env.callAll depth calls {} = some (answers, memory)) ∧
      (∀ depth answers memory, env.callAll depth calls {} = some (answers, memory) →
        List.Forall₂ (fun call answer => env.Expands call.1 call.2 answer) calls answers) ∧
      ∀ depth memory, env.DuringCalls depth calls {} memory → env.Faithful memory := by
  refine ⟨fun answers h => ?_, fun depth answers memory h => ?_, fun depth memory h => ?_⟩
  · obtain ⟨bound, hbound⟩ := exists_callAll_of_forall₂ h
    exact ⟨bound, fun depth hdepth => hbound depth hdepth {} faithful_empty⟩
  · exact forall₂_expands_of_callAll faithful_empty h
  · exact h.faithful faithful_empty

end TapeLang.Environment
