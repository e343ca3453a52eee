import TapeLang.Proofs.Expansion.Code
import TapeLang.Proofs.Expansion.Enlarged

/-!
# Precompiled macros

A macro that compiles without arguments may be replaced by its code.  Where its text has holes, they
are filled by constants, and a constant hides the argument of the same name: so all calls of the
macro expand alike, with arguments or without (`expands_append_args`).  Its code as a text expands
to itself, and all other texts are what they were; whether a call is one of the macro or not, its
answer stays the same.

Main statement: no calls tell a set of macros from the same set with one macro precompiled
(`answered_withText_iff`).
-/

namespace TapeLang
namespace Environment

variable {env env' : Environment} {name m s : String} {args : List String}
  {answer : Except Error String}

/-- Arguments that are not asked for are not seen: a call that has code keeps it when arguments
are added. -/
theorem expands_append_args (h : env.Expands name args (.ok s)) (more : List String) :
    env.Expands name (args ++ more) (.ok s) :=
  (ExtendedBy.refl env).expands (settled_ok s) h more

/-! ### One text replaced -/

/-- Where the texts of all macros but one are the same, and calls of that one keep their answers,
all calls keep their answers. -/
theorem Expands.of_body_eq
    (hbody : ∀ name args, name ≠ m → env.body name args = env'.body name args)
    (hm : ∀ args answer, env.Expands m args answer → env'.Expands m args answer)
    (h : env.Expands name args answer) : env'.Expands name args answer := by
  refine Expands.induction (P := env'.Expands) ?_ h
  intro name args answer hunfolds
  -- A call of that one is not followed into its text, which may be any other.
  by_cases hname : name = m
  · subst hname
    exact hm args answer (expands_iff.mpr (hunfolds.mono fun _ _ _ h => h.1))
  · have hothers : env.Unfolds env'.Expands name args answer := hunfolds.mono fun _ _ _ h => h.2
    rw [Unfolds, hbody name args hname] at hothers
    exact expands_iff.mpr hothers

/-- The environment with the text of one macro replaced. -/
def withText (env : Environment) (name content : String) : Environment :=
  { env with macros := env.macros.define name content }

theorem get?_withText (hset : env.macros.Coherent) (m s name : String) :
    (env.withText m s).macros.get? name = if m = name then some ⟨m, s⟩ else env.macros.get? name :=
  hset.get?_insert ⟨m, s⟩ name

theorem body_withText_of_ne (hset : env.macros.Coherent) (hname : name ≠ m) :
    env.body name args = (env.withText m s).body name args := by
  have hget := get?_withText hset m s name
  rw [if_neg (Ne.symm hname)] at hget
  cases hfound : env.macros.get? name with
  | none =>
    rw [hfound] at hget
    rw [body_of_get?_eq_none hfound, body_of_get?_eq_none hget]
  | some found =>
    rw [hfound] at hget
    rw [body_of_get?_eq_some hfound, body_of_get?_eq_some hget]
    rfl

/-- **A macro that is replaced by its code** answers all calls as before, and so do all others. -/
theorem expands_withText_iff (hset : env.macros.Coherent) (hcode : env.Expands m [] (.ok s)) :
    env.Expands name args answer ↔ (env.withText m s).Expands name args answer := by
  have hbefore : ∀ args, env.Expands m args (.ok s) := expands_append_args hcode
  have hget : (env.withText m s).macros.get? m = some ⟨m, s⟩ := by
    rw [get?_withText hset, if_pos rfl]
  have hafter : ∀ args, (env.withText m s).Expands m args (.ok s) :=
    expands_of_isCode hget (isCode_of_expands hcode)
  have hbody : ∀ name args, name ≠ m → env.body name args = (env.withText m s).body name args :=
    fun _ _ => body_withText_of_ne hset
  -- Either way the calls of the macro have one answer, which both environments give.
  constructor
  · refine Expands.of_body_eq hbody fun args answer h => ?_
    rw [h.unique (hbefore args)]
    exact hafter args
  · refine Expands.of_body_eq (fun name args hname => (hbody name args hname).symm)
      fun args answer h => ?_
    rw [h.unique (hafter args)]
    exact hbefore args

/-- **Precompiling a macro is not seen.**  If a macro compiles without arguments, then with its text
replaced by that code calls have the same answers, code and failures alike, and none if there was
none: calls of any macro, this one with arguments or without among them, made one after the other or
one alone. -/
theorem answered_withText_iff {definitions : List Macro} {constants : Constants} {depth : Nat}
    {m s : String}
    (hcode : (Environment.mk (.ofList definitions) constants).compile depth m = some (.ok s))
    (calls : List (String × List String)) (answers : List (Except Error String)) :
    (Environment.mk (.ofList definitions) constants).Answered calls answers ↔
      ((Environment.mk (.ofList definitions) constants).withText m s).Answered calls answers := by
  have hset := MacroSet.coherent_ofList definitions
  obtain ⟨⟨_, memory⟩, hcall, rfl⟩ := Option.map_eq_some_iff.mp hcode
  have hexpands := (expands_of_call faithful_empty hcall).1
  rw [answered_iff, answered_iff]
  simp only [expands_withText_iff hset hexpands]

/-- The text of `m` has a hole for a constant, a repeat and a call; `m` is called with an argument,
between calls that fail and calls that do not. -/
theorem answered_withText_iff_hole :
    let env : Environment :=
      ⟨.ofList [⟨"m", "/k/{2}b(x)"⟩, ⟨"b", "-"⟩, ⟨"c", "/0/ /1/{2}"⟩, ⟨"program", "m(x){2}c(m)"⟩],
        .ofList [("k", "+")]⟩
    env.compile 2 "m" = some (.ok "++-") ∧
      (env.withText "m" "++-").Answered [("program", []), ("m", ["x"]), ("c", ["m", "m"])]
        [.error (.unboundVariable "c" "1"), .ok "++-", .ok "++-++-++-"] := by
  intro env
  have hexpand : (env.expand 2 "m" []).run = some (.ok "++-") ∧
      (env.expand 3 "program" []).run = some (.error (.unboundVariable "c" "1")) ∧
      (env.expand 3 "m" ["x"]).run = some (.ok "++-") ∧
      (env.expand 3 "c" ["m", "m"]).run = some (.ok "++-++-++-") := by
    simp only [env, expand_succ, expand_zero, body, MacroSet.get?_ofList]
    decide +kernel
  obtain ⟨hm, hprogram, hmx, hc⟩ := hexpand
  have hcode : env.compile 2 "m" = some (.ok "++-") := compile_eq_of_expand hm
  have hbefore : env.Answered [("program", []), ("m", ["x"]), ("c", ["m", "m"])]
      [.error (.unboundVariable "c" "1"), .ok "++-", .ok "++-++-++-"] :=
    answered_iff.mpr (.cons ⟨3, hprogram⟩ (.cons ⟨3, hmx⟩ (.cons ⟨3, hc⟩ .nil)))
  exact ⟨hcode, (answered_withText_iff hcode _ _).mp hbefore⟩

end Environment
end TapeLang
