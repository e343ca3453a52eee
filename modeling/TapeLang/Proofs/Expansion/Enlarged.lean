import TapeLang.Proofs.Expansion.Memory
import TapeLang.Proofs.MacroHistory

/-!
# Larger environments

An environment grows when macros and constants of new names are defined (`Environment.ExtendedBy`).
What was there is found as before, and so is every value: a constant hides the argument of its name,
but no new constant is named like the position of one, and arguments that are added stand behind the
others (`ExtendedBy.within`).  Only a name that was unknown may be found now.

So a call that has code, or fails for another reason than an unknown name, has the same answer in
the larger environment, and with more arguments.  Nested calls may be of any macro, for values are
part of the text that names them; but an unknown name in one of them would be the answer of all of
it.

Main statement: `answered_of_extendedBy`.
-/

namespace TapeLang

/-! ### Answers that do not ask for more -/

/-- The error is that a name is unknown. -/
def Error.OfUnknownName : Error → Prop
  | undefinedMacro _ => True
  | unboundVariable _ _ => True
  | _ => False

/-- The answer is a result, or an error other than an unknown name. -/
def Settled {α : Type} : Except Error α → Prop
  | .ok _ => True
  | .error e => ¬e.OfUnknownName

section

variable {α β : Type} {answer : Except Error α}

theorem settled_ok (a : α) : Settled (.ok a) := trivial

theorem Settled.of_map {f : α → β} (h : Settled (answer.map f)) : Settled answer := by
  cases answer with
  | ok a => trivial
  | error e => exact h

theorem Settled.of_bind {f : α → Except Error β} (h : Settled (answer.bind f)) :
    Settled answer := by
  cases answer with
  | ok a => trivial
  | error e => exact h

end

/-- Where the expansion of tokens is settled, so is every answer in it. -/
theorem Token.Expanded.mono_of_settled {answers answers' : Answers} {tokens : List Token}
    {codes : Except Error (List Token)} (h : Expanded answers tokens codes)
    (hsettled : Settled codes)
    (hmono : ∀ name args answer, Settled answer → answers name args answer →
      answers' name args answer) : Expanded answers' tokens codes := by
  induction h with
  | nil => exact nil
  | stays h _ ih => exact stays h (ih hsettled.of_map)
  | failed h => exact failed (hmono _ _ _ hsettled h)
  | expanded h _ ih => exact expanded (hmono _ _ _ (settled_ok _) h) (ih hsettled.of_map)

/-! ### Values that stay -/

/-- Every value of one scope is one of another. -/
def Scope.Within (scope scope' : Scope) : Prop :=
  ∀ name value, scope.get? name = some value → scope'.get? name = some value

namespace Template

variable {scope scope' : Scope} {site text filled : String}

theorem fillPiece_of_within (h : scope.Within scope') {piece : Piece} {chars : List Char}
    (hfill : fillPiece scope site piece = .ok chars) :
    fillPiece scope' site piece = .ok chars := by
  cases piece with
  | char c => exact hfill
  | hole name =>
    unfold fillPiece at hfill ⊢
    dsimp only at hfill ⊢
    split at hfill
    · next value hvalue => rw [h _ _ hvalue]; exact hfill
    · cases hfill

/-- A text that is filled stays filled as it is. -/
theorem fill_of_within (h : scope.Within scope') (hfill : fill scope site text = .ok filled) :
    fill scope' site text = .ok filled := by
  unfold fill at hfill ⊢
  obtain ⟨parts, hparts, hfill⟩ := bind_eq_ok hfill
  rw [mapM_eq_ok_of_forall (fun _ _ => fillPiece_of_within h) hparts]
  exact hfill

/-- Filling fails for unknown names only. -/
theorem ofUnknownName_of_fill {e : Error} (h : fill scope site text = .error e) :
    e.OfUnknownName := by
  -- The only part of a text that may not be filled is a hole without a value.
  obtain hparts | ⟨parts, -, h⟩ := bind_eq_error h
  · obtain ⟨piece, _, hpiece⟩ := mapM_eq_error hparts
    cases piece with
    | char c => cases hpiece
    | hole name =>
      unfold fillPiece at hpiece
      dsimp only at hpiece
      split at hpiece
      · cases hpiece
      · obtain rfl := Except.error.inj hpiece
        trivial
  · cases h

end Template

namespace Environment

/-! ### Growth -/

/-- An environment is extended by another that has all its macros and constants, and perhaps
some of new names. -/
structure ExtendedBy (env env' : Environment) : Prop where
  macros : ∀ name m, env.macros.get? name = some m → env'.macros.get? name = some m
  constants : ∀ name value,
    env.constants.get? name = some value → env'.constants.get? name = some value
  /-- A new constant has no name that is the position of an argument. -/
  numbers : ∀ name, env.constants.get? name = none → (Decimal.canonical? name).isSome →
    env'.constants.get? name = none

variable {env env' env'' : Environment} {name : String} {args : List String}
  {answer : Except Error String}

theorem ExtendedBy.refl (env : Environment) : env.ExtendedBy env :=
  ⟨fun _ _ => id, fun _ _ => id, fun _ h _ => h⟩

theorem ExtendedBy.trans (h : env.ExtendedBy env') (h' : env'.ExtendedBy env'') :
    env.ExtendedBy env'' where
  macros name m hget := h'.macros name m (h.macros name m hget)
  constants name value hget := h'.constants name value (h.constants name value hget)
  numbers name hget hnumber := h'.numbers name (h.numbers name hget hnumber) hnumber

/-- A macro of a new name is defined. -/
theorem extendedBy_define (hset : env.macros.Coherent) (hnew : env.macros.get? name = none)
    (content : String) :
    env.ExtendedBy { env with macros := env.macros.define name content } where
  macros other m hget := by
    have hne : name ≠ other := by
      rintro rfl
      rw [hnew] at hget
      cases hget
    exact (hset.get?_insert ⟨name, content⟩ other).trans ((if_neg hne).trans hget)
  constants _ _ := id
  numbers _ h _ := h

/-- A constant of a new name is defined, which is not a number. -/
theorem extendedBy_set (hnew : env.constants.get? name = none)
    (hword : Decimal.canonical? name = none) (value : String) :
    env.ExtendedBy { env with constants := env.constants.set name value } where
  macros _ _ := id
  constants other bound hget := by
    have hne : other ≠ name := by
      rintro rfl
      rw [hnew] at hget
      cases hget
    exact (Constants.get?_set_ne _ hne value).trans hget
  numbers other hget hnumber := by
    have hne : other ≠ name := by
      rintro rfl
      rw [hword] at hnumber
      cases hnumber
    exact (Constants.get?_set_ne _ hne value).trans hget

/-- Values stay in a larger environment and with more arguments. -/
theorem ExtendedBy.within (h : env.ExtendedBy env') (args more : List String) :
    (Scope.mk args env.constants).Within ⟨args ++ more, env'.constants⟩ := by
  intro name value hvalue
  -- Only a value that is not empty counts, and it was one of a constant or of an argument.
  obtain ⟨hbinding, hnonempty⟩ := Option.filter_eq_some_iff.mp hvalue
  refine Option.filter_eq_some_iff.mpr ⟨?_, hnonempty⟩
  unfold Scope.binding? at hbinding ⊢
  cases hconstant : env.constants.get? name with
  | some bound =>
    rw [hconstant, Option.some_or] at hbinding
    rw [h.constants name bound hconstant, Option.some_or, hbinding]
  | none =>
    -- The name is a position, which no new constant hides, and the argument is still there.
    rw [hconstant, Option.none_or] at hbinding
    obtain ⟨i, hi, hvalue⟩ := Option.bind_eq_some_iff.mp hbinding
    obtain ⟨hlt, _⟩ := List.getElem?_eq_some_iff.mp hvalue
    rw [h.numbers name hconstant (by rw [hi]; rfl), Option.none_or]
    refine Option.bind_eq_some_iff.mpr ⟨i, hi, ?_⟩
    rw [← hvalue]
    exact List.getElem?_append_left hlt

/-- A body that can be read is read alike, and so is one that fails for another reason than an
unknown name. -/
theorem ExtendedBy.body_eq (h : env.ExtendedBy env') (hsettled : Settled (env.body name args))
    (more : List String) : env'.body name (args ++ more) = env.body name args := by
  cases hget : env.macros.get? name with
  -- A macro that is not there has no settled answer, nor has a text with an unknown name.
  | none =>
    rw [body_of_get?_eq_none hget] at hsettled
    exact absurd trivial hsettled
  | some m =>
    rw [body_of_get?_eq_some hget] at hsettled ⊢
    rw [body_of_get?_eq_some (h.macros name m hget)]
    cases hfill : Template.fill ⟨args, env.constants⟩ name m.content with
    | error e =>
      rw [hfill] at hsettled
      exact absurd (Template.ofUnknownName_of_fill hfill) hsettled
    | ok text => rw [Template.fill_of_within (h.within args more) hfill]

/-- **A settled answer stays** in a larger environment and with more arguments. -/
theorem ExtendedBy.expands (h : env.ExtendedBy env') (hsettled : Settled answer)
    (hexpands : env.Expands name args answer) (more : List String) :
    env'.Expands name (args ++ more) answer := by
  -- The induction is over the expansion. Inside of it no more arguments are added, so what is shown
  -- is about any.
  refine Expands.induction
    (P := fun name args answer => Settled answer → ∀ more, env'.Expands name (args ++ more) answer)
    ?_ hexpands hsettled more
  intro name args answer hunfolds hsettled more
  rw [expands_iff, Unfolds]
  unfold Unfolds at hunfolds
  cases hbody : env.body name args with
  | error e =>
    simp only [hbody] at hunfolds
    subst hunfolds
    rw [h.body_eq (by rw [hbody]; exact hsettled), hbody]
  | ok tokens =>
    simp only [hbody] at hunfolds
    obtain ⟨codes, hcodes, rfl⟩ := hunfolds
    rw [h.body_eq (by rw [hbody]; trivial), hbody]
    refine ⟨codes, hcodes.mono_of_settled hsettled.of_bind ?_, rfl⟩
    -- The calls in a body are made with the same arguments.
    intro callee list answer hanswer hcallee
    simpa using hcallee.2 hanswer []

/-- **Answers stay when an environment grows**: calls that have code, or fail for another reason
than an unknown name, have the same answers in an environment with more macros and constants, and
with more arguments behind their own; one call alone, or some made one after the other. -/
theorem answered_of_extendedBy {calls calls' : List (String × List String)}
    {answers : List (Except Error String)} (h : env.ExtendedBy env')
    (hcalls : List.Forall₂ (fun call call' => call.1 = call'.1 ∧ call.2 <+: call'.2) calls calls')
    (hsettled : ∀ answer ∈ answers, Settled answer) (hanswered : env.Answered calls answers) :
    env'.Answered calls' answers := by
  rw [answered_iff] at hanswered ⊢
  induction hanswered generalizing calls' with
  | nil =>
    cases hcalls
    exact .nil
  | @cons call answer calls answers hcall _ ih =>
    obtain _ | ⟨⟨hname, more, hargs⟩, hcalls⟩ := hcalls
    rw [List.forall_mem_cons] at hsettled
    refine .cons ?_ (ih hcalls hsettled.2)
    rw [← hname, ← hargs]
    exact h.expands hsettled.1 hcall more

/-- The text of `m` calls what its first argument names, and its other hole is filled by a constant;
`c` fails for a repeat.  The name of the new constant is a number, but no position. -/
theorem answered_of_extendedBy_new :
    let env : Environment :=
      ⟨.ofList [⟨"m", "/0//k/{2}"⟩, ⟨"b", "-"⟩, ⟨"c", "m(b){0}{2}"⟩], .ofList [("k", "+")]⟩
    let env' : Environment :=
      { macros := env.macros.define "n" "+", constants := env.constants.set "01" "." }
    env.Answered [("m", ["b"]), ("c", [])] [.ok "-++", .error (.nothingToRepeat "c")] ∧
      env'.Answered [("m", ["b", "n"]), ("c", ["b"])]
        [.ok "-++", .error (.nothingToRepeat "c")] := by
  intro env env'
  have hexpand : (env.expand 3 "m" ["b"]).run = some (.ok "-++") ∧
      (env.expand 3 "c" []).run = some (.error (.nothingToRepeat "c")) := by
    simp only [env, expand_succ, expand_zero, body, MacroSet.get?_ofList]
    decide +kernel
  have hbefore : env.Answered [("m", ["b"]), ("c", [])]
      [.ok "-++", .error (.nothingToRepeat "c")] :=
    answered_iff.mpr (.cons ⟨3, hexpand.1⟩ (.cons ⟨3, hexpand.2⟩ .nil))
  have hdefined : env.ExtendedBy { env with macros := env.macros.define "n" "+" } := by
    refine extendedBy_define (MacroSet.coherent_ofList _) ?_ "+"
    rw [MacroSet.get?_ofList]
    decide
  have hbound : Environment.ExtendedBy { env with macros := env.macros.define "n" "+" } env' :=
    extendedBy_set (by decide) (by decide) "."
  refine ⟨hbefore, answered_of_extendedBy (hdefined.trans hbound) ?_ ?_ hbefore⟩
  · simp
  · simp [Settled, Error.OfUnknownName]

end Environment
end TapeLang
