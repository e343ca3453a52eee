import TapeLang.MacroSet

/-!
# The index of a set of macros

A set of macros looks names up in its index and never in its listing.  The two are kept in step
(`Coherent`): a position is in the index for a name exactly if a macro of that name is listed there,
so that every listed macro is found, and no name twice.  Whatever defines macros one after the other
makes a coherent set (`coherent_ofList`), and macros of different names are listed as they come
(`toList_ofList`).

In a coherent set, what is listed is found and nothing else (`Coherent.get?_eq_some_iff`).  What is
defined is found, and defining one name leaves the others alone (`Coherent.get?_insert`).  A macro that
is defined anew is listed in the place of the one that it replaces, and a new one at the end
(`Coherent.enters_insert`).
-/

namespace TapeLang.MacroSet

variable {set : MacroSet} {m : Macro} {name : String} {i : Nat}

/-- The index and the listing agree. -/
def Coherent (set : MacroSet) : Prop :=
  ∀ name i, set.index[name]? = some i ↔ set.listing[i]?.map Macro.name = some name

theorem coherent_empty : ({} : MacroSet).Coherent := by
  intro name i
  simp

theorem lt_size_of_listed {listing : Array Macro}
    (h : listing[i]?.map Macro.name = some name) : i < listing.size := by
  obtain ⟨m, hm, _⟩ := Option.map_eq_some_iff.mp h
  exact (Array.getElem?_eq_some_iff.mp hm).1

/-! ### The names -/

/-- The index holds the places of the names. -/
theorem Coherent.index_eq_some_iff (h : set.Coherent) :
    set.index[name]? = some i ↔ (set.toList.map Macro.name)[i]? = some name := by
  rw [h name i, toList, List.getElem?_map, Array.getElem?_toList]

theorem Coherent.mem_names_iff (h : set.Coherent) :
    name ∈ set.toList.map Macro.name ↔ ∃ i, set.index[name]? = some i := by
  simp only [h.index_eq_some_iff, List.mem_iff_getElem?]

/-- No name is listed twice. -/
theorem Coherent.nodup_names (h : set.Coherent) : (set.toList.map Macro.name).Nodup := by
  rw [List.Nodup, List.pairwise_iff_getElem]
  intro i j hi hj hij hsame
  -- The index has one place for each name.
  have hplace := h.index_eq_some_iff.mpr (List.getElem?_eq_getElem hi)
  have hother := h.index_eq_some_iff.mpr (List.getElem?_eq_getElem hj)
  rw [hsame, hother] at hplace
  exact Nat.ne_of_gt hij (Option.some.inj hplace)

/-! ### Defining a macro -/

/-- A macro put in the place of another one of its name leaves all names where they are. -/
theorem map_name_setIfInBounds {listing : Array Macro}
    (h : listing[i]?.map Macro.name = some m.name) (j : Nat) :
    (listing.setIfInBounds i m)[j]?.map Macro.name = listing[j]?.map Macro.name := by
  rw [Array.getElem?_setIfInBounds]
  split
  · next heq =>
    subst heq
    rw [if_pos (lt_size_of_listed h), h, Option.map_some]
  · rfl

/-- **Defining a macro keeps the index and the listing in step.** -/
theorem Coherent.insert (h : set.Coherent) (m : Macro) : (set.insert m).2.Coherent := by
  intro name j
  -- The name is in the index, and its macro gives way in place; or it is not, and goes to the end
  -- of both.
  cases hindex : set.index[m.name]? with
  | some i =>
    simp only [MacroSet.insert, hindex]
    rw [map_name_setIfInBounds ((h m.name i).mp hindex)]
    exact h name j
  | none =>
    simp only [MacroSet.insert, hindex]
    rw [Std.HashMap.getElem?_insert, Array.getElem?_push]
    by_cases hj : j = set.listing.size
    · subst hj
      by_cases hname : m.name = name
      · simp [hname]
      · -- The new place holds the new name, and no other name was there before.
        have hfree : set.index[name]? ≠ some set.listing.size := fun hold =>
          absurd (lt_size_of_listed ((h name _).mp hold)) (Nat.lt_irrefl _)
        simp [hname, hfree]
    · rw [if_neg hj, ← h name j]
      by_cases hname : m.name = name
      · subst hname
        simp [hindex, Ne.symm hj]
      · simp [hname]

theorem Coherent.foldl_insert (h : set.Coherent) (macros : List Macro) :
    (macros.foldl (fun set m => (set.insert m).2) set).Coherent := by
  induction macros generalizing set with
  | nil => exact h
  | cons m macros ih => exact ih (h.insert m)

/-- Every set is coherent that definitions build. -/
theorem coherent_ofList (macros : List Macro) : (ofList macros).Coherent :=
  coherent_empty.foldl_insert macros

/-- A name that is not listed is not in the index. -/
theorem Coherent.getElem?_index_eq_none (h : set.Coherent)
    (hname : name ∉ set.toList.map Macro.name) : set.index[name]? = none := by
  rw [Option.eq_none_iff_forall_ne_some]
  intro i hindex
  exact hname (h.mem_names_iff.mpr ⟨i, hindex⟩)

/-- A macro enters a listing: in the place of the one of its name, which it replaces, or at the end
if there is none. -/
inductive Enters (m : Macro) : List Macro → Option Macro → List Macro → Prop
  | inPlace {before after : List Macro} {old : Macro} (hname : old.name = m.name) :
    Enters m (before ++ old :: after) (some old) (before ++ m :: after)
  | atEnd {listing : List Macro} (hnew : m.name ∉ listing.map Macro.name) :
    Enters m listing none (listing ++ [m])

/-- A definition answers the macro that is replaced, and changes nothing else in the listing. -/
theorem Coherent.enters_insert (h : set.Coherent) (m : Macro) :
    Enters m set.toList (set.insert m).1 (set.insert m).2.toList := by
  cases hindex : set.index[m.name]? with
  | some i =>
    obtain ⟨old, hold, hname⟩ := Option.map_eq_some_iff.mp ((h m.name i).mp hindex)
    obtain ⟨hi, hlisted⟩ := List.getElem?_eq_some_iff.mp (Array.getElem?_toList.trans hold)
    -- The listing on both sides of the place stays as it is.
    obtain ⟨before, after, hbefore, -, hafter⟩ :
        ∃ before after, set.listing.toList = before ++ set.listing.toList[i] :: after ∧
          before.length = i ∧ set.listing.toList.set i m = before ++ m :: after :=
      List.exists_of_set hi
    rw [hlisted] at hbefore
    have hanswer : (set.insert m).1 = some old := by
      simp only [MacroSet.insert, hindex, hold]
    have hlisting : (set.insert m).2.toList = set.listing.toList.set i m := by
      simp only [MacroSet.insert, hindex, toList, Array.toList_setIfInBounds]
    rw [hanswer, hlisting, hafter, toList, hbefore]
    exact .inPlace hname
  | none =>
    have hanswer : (set.insert m).1 = none := by
      simp only [MacroSet.insert, hindex]
    rw [hanswer, toList_insert_of_new hindex]
    refine .atEnd fun hmem => ?_
    obtain ⟨i, hplace⟩ := h.mem_names_iff.mp hmem
    cases hindex.symm.trans hplace

/-- The names stay where they are, and a new one comes last. -/
theorem Enters.names_eq {listing listing' : List Macro} {replaced : Option Macro}
    (h : Enters m listing replaced listing') :
    listing'.map Macro.name =
      if m.name ∈ listing.map Macro.name then listing.map Macro.name
      else listing.map Macro.name ++ [m.name] := by
  cases h with
  | inPlace hname => simp [hname]
  | atEnd hnew => rw [if_neg hnew, List.map_append, List.map_singleton]

/-- Macros of different names are listed as they are defined. -/
theorem Coherent.toList_foldl_insert (h : set.Coherent) {macros : List Macro}
    (hnames : ((set.toList ++ macros).map Macro.name).Nodup) :
    (macros.foldl (fun set m => (set.insert m).2) set).toList = set.toList ++ macros := by
  induction macros generalizing set with
  | nil => exact (List.append_nil _).symm
  | cons m macros ih =>
    -- All names are different, so the new one is not in the listing.
    have hnew : m.name ∉ set.toList.map Macro.name := by
      rw [List.map_append, List.nodup_append] at hnames
      exact fun hmem => hnames.2.2 _ hmem m.name (by simp) rfl
    have hinsert : (set.insert m).2.toList = set.toList ++ [m] :=
      toList_insert_of_new (h.getElem?_index_eq_none hnew)
    rw [List.foldl_cons, ih (h.insert m) (by simpa [hinsert] using hnames), hinsert,
      List.append_assoc, List.singleton_append]

theorem toList_ofList {macros : List Macro} (hnames : (macros.map Macro.name).Nodup) :
    (ofList macros).toList = macros :=
  coherent_empty.toList_foldl_insert hnames

/-! ### Looking up -/

/-- What is found is what is listed. -/
theorem Coherent.get?_eq_some_iff (h : set.Coherent) :
    set.get? name = some m ↔ m ∈ set.toList ∧ m.name = name := by
  simp only [get?, Option.bind_eq_some_iff, toList, Array.mem_toList_iff, Array.mem_iff_getElem?]
  constructor
  · rintro ⟨i, hindex, hm⟩
    have hlisted := (h name i).mp hindex
    rw [hm] at hlisted
    exact ⟨⟨i, hm⟩, Option.some.inj hlisted⟩
  · rintro ⟨⟨i, hm⟩, rfl⟩
    exact ⟨i, (h m.name i).mpr (by rw [hm, Option.map_some]), hm⟩

theorem Coherent.isSome_get?_iff (h : set.Coherent) :
    (set.get? name).isSome ↔ name ∈ set.toList.map Macro.name := by
  simp only [Option.isSome_iff_exists, h.get?_eq_some_iff, List.mem_map]

theorem Coherent.contains_iff (h : set.Coherent) :
    set.contains name ↔ name ∈ set.toList.map Macro.name := by
  rw [h.mem_names_iff, contains, Std.HashMap.contains_eq_isSome_getElem?, Option.isSome_iff_exists]

/-- A definition answers what was found under the name before it. -/
theorem fst_insert (set : MacroSet) (m : Macro) : (set.insert m).1 = set.get? m.name := by
  cases hindex : set.index[m.name]? <;> simp [insert, get?, hindex]

/-- **What is defined is found**, and all other names keep their macros. -/
theorem Coherent.get?_insert (h : set.Coherent) (m : Macro) (name : String) :
    (set.insert m).2.get? name = if m.name = name then some m else set.get? name := by
  cases hindex : set.index[m.name]? with
  | some i =>
    simp only [get?, MacroSet.insert, hindex]
    have hlisted := (h m.name i).mp hindex
    split
    · next hname =>
      subst hname
      rw [hindex, Option.bind_some,
        Array.getElem?_setIfInBounds_self_of_lt (lt_size_of_listed hlisted)]
    · next hname =>
      cases hother : set.index[name]? with
      | none => rfl
      | some j =>
        -- Two names have no place in common.
        have hne : i ≠ j := by
          rintro rfl
          rw [(h name i).mp hother] at hlisted
          exact hname (Option.some.inj hlisted).symm
        rw [Option.bind_some, Option.bind_some, Array.getElem?_setIfInBounds_ne hne]
  | none =>
    simp only [get?, MacroSet.insert, hindex]
    rw [Std.HashMap.getElem?_insert]
    by_cases hname : m.name = name
    · simp [hname]
    · simp only [beq_iff_eq, hname, if_false]
      cases hother : set.index[name]? with
      | none => rfl
      | some j =>
        have hlt := lt_size_of_listed ((h name j).mp hother)
        rw [Option.bind_some, Option.bind_some, Array.getElem?_push, if_neg (Nat.ne_of_lt hlt)]

end TapeLang.MacroSet
