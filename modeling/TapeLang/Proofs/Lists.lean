/-!
# Lists

Facts about lists that several developments share: what is found under a key, which entry is the first
to lack a property, and what the parts between separators are made of.
-/

namespace TapeLang

/-- In a list that binds each key once, what is found is what is there. -/
theorem lookup_eq_some_iff_mem {α β : Type} [BEq α] [LawfulBEq α] {entries : List (α × β)}
    (h : (entries.map Prod.fst).Nodup) {key : α} {value : β} :
    entries.lookup key = some value ↔ (key, value) ∈ entries := by
  rw [List.lookup_eq_some_iff]
  constructor
  · rintro ⟨before, after, rfl, -⟩
    exact List.mem_append_right _ List.mem_cons_self
  · intro hmem
    obtain ⟨before, after, rfl⟩ := List.append_of_mem hmem
    -- Another value of the key before this one would bind the key twice.
    refine ⟨before, after, rfl, fun pair hpair => bne_iff_ne.mpr fun heq => ?_⟩
    rw [List.map_append, List.nodup_append] at h
    exact h.2.2 pair.1 (List.mem_map_of_mem hpair) key (by simp) heq.symm

/-- All entries have a property, or there is a first one that has not. -/
theorem forall_or_exists_first {α : Type} (P : α → Prop) (l : List α) :
    (∀ a ∈ l, P a) ∨
      ∃ before a after, l = before ++ a :: after ∧ (∀ earlier ∈ before, P earlier) ∧ ¬P a := by
  induction l with
  | nil => exact .inl (by simp)
  | cons a l ih =>
    by_cases ha : P a
    · obtain hall | ⟨before, bad, after, rfl, hbefore, hbad⟩ := ih
      · exact .inl (List.forall_mem_cons.mpr ⟨ha, hall⟩)
      · exact .inr ⟨a :: before, bad, after, rfl, List.forall_mem_cons.mpr ⟨ha, hbefore⟩, hbad⟩
    · exact .inr ⟨[], a, l, rfl, by simp, ha⟩

/-- The parts between separators have none. -/
theorem of_mem_splitOn {α : Type} [BEq α] [LawfulBEq α] {sep : α} {cs part : List α}
    (hpart : part ∈ cs.splitOn sep) : ∀ c ∈ part, c ∈ cs ∧ c ≠ sep := by
  induction cs generalizing part with
  | nil =>
    obtain rfl : part = [] := by simpa using hpart
    simp
  | cons d cs ih =>
    -- At a separator a new part begins; any other element goes to the front of the first part.
    rw [List.splitOn_cons_eq_if_modifyHead] at hpart
    split at hpart
    · rw [List.mem_cons] at hpart
      obtain rfl | hpart := hpart
      · simp
      · exact fun c hc => ⟨List.mem_cons_of_mem _ (ih hpart c hc).1, (ih hpart c hc).2⟩
    · next hne =>
      obtain ⟨first, others, hsplit⟩ := List.exists_cons_of_ne_nil (List.splitOn_ne_nil sep cs)
      rw [hsplit, List.modifyHead_cons, List.mem_cons] at hpart
      rw [hsplit] at ih
      obtain rfl | hpart := hpart
      · refine List.forall_mem_cons.mpr ⟨⟨List.mem_cons_self, by simpa using hne⟩, fun c hc => ?_⟩
        have hfirst := ih List.mem_cons_self c hc
        exact ⟨List.mem_cons_of_mem _ hfirst.1, hfirst.2⟩
      · intro c hc
        have hother := ih (List.mem_cons_of_mem _ hpart) c hc
        exact ⟨List.mem_cons_of_mem _ hother.1, hother.2⟩

/-- **Parts that a separator ends** are found again between the separators, and nothing behind the
last one. -/
theorem splitOn_flatMap_concat {α : Type} [BEq α] [LawfulBEq α] {sep : α} {parts : List (List α)}
    (h : ∀ part ∈ parts, sep ∉ part) :
    (parts.flatMap (· ++ [sep])).splitOn sep = parts ++ [[]] := by
  induction parts with
  | nil => simp
  | cons part parts ih =>
    obtain ⟨hpart, hparts⟩ := List.forall_mem_cons.mp h
    rw [List.flatMap_cons, List.append_assoc, List.singleton_append, List.splitOn_append_cons_self,
      List.splitOn_eq_singleton hpart, ih hparts]
    rfl

end TapeLang
