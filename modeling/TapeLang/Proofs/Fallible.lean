/-!
# Steps that may fail

Work whose steps may fail is done if each of its steps is, one after another, and the first step that
fails is its failure.
-/

namespace TapeLang

variable {ε α β : Type}

theorem bind_eq_ok {x : Except ε α} {f : α → Except ε β} {b : β} (h : x.bind f = .ok b) :
    ∃ a, x = .ok a ∧ f a = .ok b := by
  cases x with
  | error e => cases h
  | ok a => exact ⟨a, rfl, h⟩

theorem map_eq_ok {x : Except ε α} {f : α → β} {b : β} (h : x.map f = .ok b) :
    ∃ a, x = .ok a ∧ f a = b := by
  cases x with
  | error e => cases h
  | ok a => exact ⟨a, rfl, Except.ok.inj h⟩

/-- A step fails, or what follows it does. -/
theorem bind_eq_error {x : Except ε α} {f : α → Except ε β} {e : ε} (h : x.bind f = .error e) :
    x = .error e ∨ ∃ a, x = .ok a ∧ f a = .error e := by
  cases x with
  | error e' => exact .inl (congrArg Except.error (Except.error.inj h))
  | ok a => exact .inr ⟨a, rfl, h⟩

theorem map_eq_error {x : Except ε α} {f : α → β} {e : ε} (h : x.map f = .error e) :
    x = .error e := by
  cases x with
  | error e' => exact congrArg Except.error (Except.error.inj h)
  | ok a => cases h

/-- Work behind a check is done if the check does not refuse. -/
theorem guard_eq_ok {refused : Prop} [Decidable refused] {e : ε} {work : PUnit → Except ε β} {b : β}
    (h : (if refused then throw e >>= work else work ⟨⟩) = .ok b) : ¬refused ∧ work ⟨⟩ = .ok b := by
  split at h
  case isTrue => cases h
  case isFalse hrefused => exact ⟨hrefused, h⟩

theorem mapM_eq_ok_of_forall {f g : α → Except ε β} (hfg : ∀ a b, f a = .ok b → g a = .ok b)
    {as : List α} {bs : List β} (h : as.mapM f = .ok bs) : as.mapM g = .ok bs := by
  induction as generalizing bs with
  | nil => exact h
  | cons a as ih =>
    rw [List.mapM_cons] at h ⊢
    obtain ⟨b, hb, h⟩ := bind_eq_ok h
    obtain ⟨rest, hrest, h⟩ := bind_eq_ok h
    rw [hfg a b hb, ih hrest]
    exact h

theorem mapM_eq_error {f : α → Except ε β} {as : List α} {e : ε} (h : as.mapM f = .error e) :
    ∃ a ∈ as, f a = .error e := by
  induction as with
  | nil => cases h
  | cons a as ih =>
    rw [List.mapM_cons] at h
    cases ha : f a with
    | error e' =>
      rw [ha] at h
      obtain rfl := Except.error.inj h
      exact ⟨a, List.mem_cons_self, ha⟩
    | ok b =>
      cases hrest : as.mapM f with
      | error e' =>
        rw [ha, hrest] at h
        obtain rfl := Except.error.inj h
        obtain ⟨a', hmem, ha'⟩ := ih hrest
        exact ⟨a', List.mem_cons_of_mem _ hmem, ha'⟩
      | ok bs =>
        rw [ha, hrest] at h
        cases h

/-- What every step keeps is kept by a fold that does not fail. -/
theorem foldlM_ok_induction {P : β → Prop} {f : β → α → Except ε β} {as : List α} {b b' : β}
    (start : P b) (step : ∀ a ∈ as, ∀ b b', P b → f b a = .ok b' → P b')
    (h : as.foldlM f b = .ok b') : P b' := by
  induction as generalizing b with
  | nil =>
    obtain rfl := Except.ok.inj h
    exact start
  | cons a as ih =>
    rw [List.forall_mem_cons] at step
    rw [List.foldlM_cons] at h
    obtain ⟨between, hstep, hrest⟩ := bind_eq_ok h
    exact ih (step.1 b between start hstep) step.2 hrest

theorem foldlM_eq_error {f : β → α → Except ε β} {as : List α} {b : β} {e : ε}
    (h : as.foldlM f b = .error e) : ∃ b', ∃ a ∈ as, f b' a = .error e := by
  induction as generalizing b with
  | nil => cases h
  | cons a as ih =>
    rw [List.foldlM_cons] at h
    cases ha : f b a with
    | error e' =>
      rw [ha] at h
      obtain rfl := Except.error.inj h
      exact ⟨b, a, List.mem_cons_self, ha⟩
    | ok between =>
      rw [ha] at h
      obtain ⟨b', a', hmem, ha'⟩ := ih h
      exact ⟨b', a', List.mem_cons_of_mem _ hmem, ha'⟩

/-! ### Steps in a state -/

section

variable {σ : Type} {s s' : σ} {work : ExceptT ε (StateM σ) α} {next : α → ExceptT ε (StateM σ) β}

/-- Work goes on behind a step that is done. -/
theorem run_bind_of_ok {a : α} (h : work.run.run s = (.ok a, s')) :
    (work >>= next).run.run s = (next a).run.run s' := by
  rw [ExceptT.run_bind, StateT.run_bind, h]
  rfl

/-- Work ends with a step that fails. -/
theorem run_bind_of_error {e : ε} (h : work.run.run s = (.error e, s')) :
    (work >>= next).run.run s = (.error e, s') := by
  rw [ExceptT.run_bind, StateT.run_bind, h]
  rfl

end

end TapeLang
