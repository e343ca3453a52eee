import Mathlib.Data.List.Basic
import Mathlib.Data.List.Induction
import TapeLang.Constants
import TapeLang.Proofs.Lists

/-!
# What a list of pairs binds

To bind pairs one after another gives each name its last value (`get?_ofList_eq_some_iff`) and keeps
the names in the order in which they first came (`pairwise_ofList`).  The entries of a table are such
a list, and they bind the table itself (`ofList_entries`); to bind the entries of a table is to bind
the pairs that made it (`bindAll_entries_ofList`).
-/

namespace TapeLang.Constants

variable {table : Constants} {name other value : String} {pairs : List (String × String)}

/-- The table with more pairs bound, one after another. -/
def bindAll (table : Constants) (pairs : List (String × String)) : Constants :=
  pairs.foldl (fun table pair => table.set pair.1 pair.2) table

theorem bindAll_append (table : Constants) (pairs more : List (String × String)) :
    table.bindAll (pairs ++ more) = (table.bindAll pairs).bindAll more :=
  List.foldl_append

theorem ofList_eq_bindAll (pairs : List (String × String)) : ofList pairs = bindAll {} pairs := rfl

theorem bindAll_concat (table : Constants) (pairs : List (String × String))
    (pair : String × String) :
    table.bindAll (pairs ++ [pair]) = (table.bindAll pairs).set pair.1 pair.2 :=
  bindAll_append table pairs [pair]

theorem ofList_concat (pairs : List (String × String)) (pair : String × String) :
    ofList (pairs ++ [pair]) = (ofList pairs).set pair.1 pair.2 :=
  bindAll_concat {} pairs pair

theorem entries_set (table : Constants) (name value : String) :
    (table.set name value).entries = setIn name value table.entries := rfl

theorem ext_entries {a b : Constants} (h : a.entries = b.entries) : a = b := by
  obtain ⟨entries, hnodup⟩ := a
  obtain ⟨entries', hnodup'⟩ := b
  obtain rfl : entries = entries' := h
  rfl

/-! ### Values -/

/-- **The last value counts**; a name that is not bound keeps the value that it had. -/
theorem get?_bindAll (table : Constants) (pairs : List (String × String)) (name : String) :
    (table.bindAll pairs).get? name = (pairs.reverse.lookup name).or (table.get? name) := by
  -- By induction from the end, since the last pair is bound last and decides.
  induction pairs using List.reverseRecOn with
  | nil => rfl
  | append_singleton pairs pair ih =>
    obtain ⟨key, value⟩ := pair
    rw [bindAll_concat, List.reverse_append, List.reverse_singleton, List.singleton_append,
      List.lookup_cons]
    by_cases h : name = key
    · subst h
      rw [get?_set_self, beq_self_eq_true]
      rfl
    · rw [get?_set_ne _ h, beq_false_of_ne h, ih]

theorem get?_ofList (pairs : List (String × String)) (name : String) :
    (ofList pairs).get? name = pairs.reverse.lookup name := by
  rw [ofList_eq_bindAll, get?_bindAll]
  exact Option.or_none

/-- A name has a value exactly if some pair gives it that one and none behind it gives it
another. -/
theorem get?_ofList_eq_some_iff :
    (ofList pairs).get? name = some value ↔
      ∃ before after, pairs = before ++ (name, value) :: after ∧ ∀ pair ∈ after, pair.1 ≠ name := by
  -- Looked up is the list read backwards, so what came before a pair comes behind it there.
  rw [get?_ofList, List.lookup_eq_some_iff]
  constructor
  · rintro ⟨after, before, hpairs, hafter⟩
    refine ⟨before.reverse, after.reverse, ?_, fun pair hmem => ?_⟩
    · rw [← List.reverse_reverse pairs, hpairs]
      simp
    · exact Ne.symm (bne_iff_ne.mp (hafter pair (List.mem_reverse.mp hmem)))
  · rintro ⟨before, after, rfl, hafter⟩
    refine ⟨after.reverse, before.reverse, by simp, fun pair hmem => ?_⟩
    exact bne_iff_ne.mpr (Ne.symm (hafter pair (List.mem_reverse.mp hmem)))

/-- What a table holds is what is found in it. -/
theorem mem_entries_iff : (name, value) ∈ table.entries ↔ table.get? name = some value :=
  (lookup_eq_some_iff_mem table.nodup).symm

/-! ### Order -/

/-- One name comes first: some pair binds it, and neither that pair nor any before it binds the
other. -/
def ComesFirst (pairs : List (String × String)) (name other : String) : Prop :=
  ∃ before pair after, pairs = before ++ pair :: after ∧ pair.1 = name ∧
    ∀ earlier ∈ before ++ [pair], earlier.1 ≠ other

theorem ComesFirst.append (h : ComesFirst pairs name other) (more : List (String × String)) :
    ComesFirst (pairs ++ more) name other := by
  obtain ⟨before, pair, after, rfl, hname, hother⟩ := h
  exact ⟨before, pair, after ++ more, by simp, hname, hother⟩

/-- A name comes before those that are not there. -/
theorem comesFirst_of_not_mem (hname : name ∈ pairs.map Prod.fst)
    (hother : other ∉ pairs.map Prod.fst) : ComesFirst pairs name other := by
  obtain ⟨pair, hmem, heq⟩ := List.mem_map.mp hname
  obtain ⟨before, after, rfl⟩ := List.append_of_mem hmem
  refine ⟨before, pair, after, rfl, heq, fun earlier hearlier hsame => hother ?_⟩
  rw [← hsame]
  refine List.mem_map_of_mem ?_
  rw [List.append_cons]
  exact List.mem_append_left _ hearlier

/-- The names of a table stay where they are, and new ones follow in the order in which a table of
their own would hold them. -/
theorem keys_bindAll (table : Constants) (pairs : List (String × String)) :
    (table.bindAll pairs).entries.map Prod.fst =
      table.entries.map Prod.fst ++
        ((ofList pairs).entries.map Prod.fst).filter (· ∉ table.entries.map Prod.fst) := by
  induction pairs using List.reverseRecOn with
  | nil => exact (List.append_nil _).symm
  | append_singleton pairs pair ih =>
    rw [bindAll_concat, ofList_concat, entries_set, entries_set, keys_setIn, keys_setIn, ih]
    -- A name that is new for one of the tables may be old for the other.
    by_cases hold : pair.1 ∈ table.entries.map Prod.fst <;>
      by_cases hnew : pair.1 ∈ (ofList pairs).entries.map Prod.fst <;>
        simp_all

/-- The names of a table are the names that were bound. -/
theorem mem_keys_ofList : name ∈ (ofList pairs).entries.map Prod.fst ↔ name ∈ pairs.map Prod.fst := by
  induction pairs using List.reverseRecOn with
  | nil => rfl
  | append_singleton pairs pair ih =>
    rw [ofList_concat, entries_set, keys_setIn, List.map_append, List.mem_append, ← ih,
      List.map_singleton, List.mem_singleton]
    split
    case isTrue hmem => exact (or_iff_left_of_imp fun h => h ▸ hmem).symm
    case isFalse hmem => rw [List.mem_append, List.mem_singleton]

/-- The names stand in the order in which they first came. -/
theorem pairwise_ofList (pairs : List (String × String)) :
    ((ofList pairs).entries.map Prod.fst).Pairwise (ComesFirst pairs) := by
  induction pairs using List.reverseRecOn with
  | nil => exact List.Pairwise.nil
  | append_singleton pairs pair ih =>
    -- More pairs do not change which name came first.
    have hold : ((ofList pairs).entries.map Prod.fst).Pairwise (ComesFirst (pairs ++ [pair])) :=
      ih.imp fun h => h.append [pair]
    rw [ofList_concat, entries_set, keys_setIn]
    split
    case isTrue hmem => exact hold
    case isFalse hmem =>
      refine List.pairwise_append.mpr ⟨hold, List.pairwise_singleton _ _, ?_⟩
      intro name hname other hother
      obtain rfl := List.mem_singleton.mp hother
      exact (comesFirst_of_not_mem (mem_keys_ofList.mp hname)
        (mt mem_keys_ofList.mpr hmem)).append [pair]

/-! ### Tables as lists of pairs -/

theorem setIn_of_not_mem {entries : List (String × String)} (value : String)
    (h : name ∉ entries.map Prod.fst) : setIn name value entries = entries ++ [(name, value)] := by
  induction entries with
  | nil => rfl
  | cons entry rest ih =>
    rw [List.map_cons, List.mem_cons, not_or] at h
    rw [setIn, if_neg (Ne.symm h.1), ih h.2, List.cons_append]

/-- Pairs of different names are bound as they come. -/
theorem entries_ofList_of_nodup (h : (pairs.map Prod.fst).Nodup) :
    (ofList pairs).entries = pairs := by
  induction pairs using List.reverseRecOn with
  | nil => rfl
  | append_singleton pairs pair ih =>
    rw [List.map_append, List.nodup_append] at h
    have hnew : pair.1 ∉ (ofList pairs).entries.map Prod.fst := fun hmem =>
      h.2.2 pair.1 (mem_keys_ofList.mp hmem) pair.1 (by simp) rfl
    rw [ofList_concat, entries_set, setIn_of_not_mem _ hnew, ih h.1]

/-- The entries of a table bind the table. -/
theorem ofList_entries (table : Constants) : ofList table.entries = table :=
  ext_entries (entries_ofList_of_nodup table.nodup)

theorem entries_eq_filterMap (table : Constants) :
    table.entries =
      (table.entries.map Prod.fst).filterMap fun name => (table.get? name).map (name, ·) := by
  rw [List.filterMap_map]
  conv_lhs => rw [← List.filterMap_some (l := table.entries)]
  refine List.filterMap_congr fun pair hmem => ?_
  rw [Function.comp_apply, mem_entries_iff.mp hmem]
  rfl

/-- **A table is its names in order and their values.** -/
theorem ext_get? {a b : Constants} (hkeys : a.entries.map Prod.fst = b.entries.map Prod.fst)
    (hget : ∀ name, a.get? name = b.get? name) : a = b := by
  refine ext_entries ?_
  rw [entries_eq_filterMap a, entries_eq_filterMap b, hkeys, funext hget]

/-- To bind the entries of a table is to bind the pairs that made it. -/
theorem bindAll_entries_ofList (table : Constants) (pairs : List (String × String)) :
    table.bindAll (ofList pairs).entries = table.bindAll pairs := by
  refine ext_get? ?_ fun name => ?_
  · rw [keys_bindAll, keys_bindAll, ofList_entries]
  · rw [get?_bindAll, get?_bindAll, ← get?_ofList, ← get?_ofList, ofList_entries]

end TapeLang.Constants
