import Mathlib.Data.Finset.Card
import TapeLang.Proofs.MacroIndex

/-!
# Histories of definitions

Macros that are defined one after another (`insertAll`) are a history, and what their set holds in the
end can be told from the history without an index: the names in the order in which they were first
defined, and for each of them the macro that was defined last (`latest?`).  A set that holds just that
recounts its history (`Recounts`).  One more definition keeps this so (`Recounts.insert`), and the rest
is an induction on the definitions that follow (`Recounts.insertAll`).

Main statement: `insertAll_follows_history`.
-/

namespace TapeLang.MacroSet

variable {set : MacroSet} {earlier history : List Macro}

/-! ### Definitions one after another -/

/-- Define macros one after another.  The answers are those of the definitions, in their order. -/
def insertAll (set : MacroSet) : List Macro → List (Option Macro) × MacroSet
  | [] => ([], set)
  | m :: rest =>
    let (replaced, next) := set.insert m
    let (answers, last) := next.insertAll rest
    (replaced :: answers, last)

theorem insertAll_cons (set : MacroSet) (m : Macro) (rest : List Macro) :
    set.insertAll (m :: rest) =
      ((set.insert m).1 :: ((set.insert m).2.insertAll rest).1,
        ((set.insert m).2.insertAll rest).2) := rfl

theorem snd_insertAll (set : MacroSet) (history : List Macro) :
    (set.insertAll history).2 = history.foldl (fun set m => (set.insert m).2) set := by
  induction history generalizing set with
  | nil => rfl
  | cons m rest ih => exact ih (set.insert m).2

/-! ### What a history says -/

/-- The macro of a name that was defined last. -/
def latest? (history : List Macro) (name : String) : Option Macro :=
  history.findRev? fun m => m.name = name

theorem latest?_concat (history : List Macro) (m : Macro) (name : String) :
    latest? (history ++ [m]) name = if m.name = name then some m else latest? history name := by
  by_cases hname : m.name = name <;> simp [latest?, hname]

/-- A name that is new comes last among the names in the order of their first definition. -/
theorem eraseDups_concat (names : List String) (name : String) :
    (names ++ [name]).eraseDups =
      if name ∈ names then names.eraseDups else names.eraseDups ++ [name] := by
  have hone : [name].eraseDups = [name] := List.eraseDups_cons
  rw [List.eraseDups_append]
  split
  · next hmem => simp [List.removeAll, hmem]
  · next hmem => simp [List.removeAll, hmem, hone]

/-! ### What a set recounts -/

/-- The set holds what its history says: the names in the order of their first definition, and
under each of them the macro that was defined last. -/
structure Recounts (set : MacroSet) (history : List Macro) : Prop where
  coherent : set.Coherent
  names : set.toList.map Macro.name = (history.map Macro.name).eraseDups
  latest : ∀ name, set.get? name = latest? history name

theorem recounts_empty : ({} : MacroSet).Recounts [] :=
  ⟨coherent_empty, rfl, get?_empty⟩

/-- One more definition. -/
theorem Recounts.insert (h : set.Recounts earlier) (m : Macro) :
    (set.insert m).2.Recounts (earlier ++ [m]) where
  coherent := h.coherent.insert m
  names := by
    rw [(h.coherent.enters_insert m).names_eq, h.names, List.map_append, List.map_singleton,
      eraseDups_concat]
    simp only [List.mem_eraseDups]
  latest name := by
    rw [h.coherent.get?_insert, latest?_concat, h.latest]

/-- **A whole history.**  Each definition answers the macro of its name that was defined last before
it. -/
theorem Recounts.insertAll (h : set.Recounts earlier) (history : List Macro) :
    (set.insertAll history).1 =
        history.mapIdx (fun i m => latest? (earlier ++ history.take i) m.name) ∧
      (set.insertAll history).2.Recounts (earlier ++ history) := by
  -- What is still to come gets shorter, and what was defined before it gets longer.
  induction history generalizing set earlier with
  | nil => exact ⟨rfl, (List.append_nil earlier).symm ▸ h⟩
  | cons m rest ih =>
    obtain ⟨hanswers, hlast⟩ := ih (h.insert m)
    simp only [List.append_assoc, List.singleton_append] at hanswers hlast
    rw [insertAll_cons, hanswers, fst_insert, h.latest, List.mapIdx_cons, List.take_zero,
      List.append_nil]
    exact ⟨rfl, hlast⟩

theorem Recounts.size_eq (h : set.Recounts history) :
    set.size = (history.map Macro.name).toFinset.card := by
  have hnames : (set.toList.map Macro.name).toFinset = (history.map Macro.name).toFinset := by
    ext name
    rw [h.names, List.mem_toFinset, List.mem_toFinset, List.mem_eraseDups]
  rw [← hnames, List.toFinset_card_of_nodup h.coherent.nodup_names, List.length_map, toList,
    Array.length_toList, size]

theorem recounts_ofList (history : List Macro) : (ofList history).Recounts history := by
  have h := (recounts_empty.insertAll history).2
  rwa [snd_insertAll, List.nil_append] at h

/-- What is found in a set that definitions build is what was defined last.  Unlike the index,
this can be computed. -/
theorem get?_ofList (history : List Macro) : (ofList history).get? = latest? history :=
  funext (recounts_ofList history).latest

theorem insertAll_eq (history : List Macro) :
    insertAll {} history =
      (history.mapIdx fun i m => latest? (history.take i) m.name, ofList history) :=
  Prod.ext (recounts_empty.insertAll history).1 (snd_insertAll {} history)

/-- Each definition of a history puts its macro where the one stands that it answers, or at the
end. -/
theorem enters_ofList_take {i : Nat} {m : Macro} (hm : history[i]? = some m) :
    Enters m (ofList (history.take i)).toList (latest? (history.take i) m.name)
      (ofList (history.take (i + 1))).toList := by
  have hset := recounts_ofList (history.take i)
  have hnext : ofList (history.take (i + 1)) = ((ofList (history.take i)).insert m).2 := by
    rw [List.take_add_one, hm, Option.toList_some, ofList, List.foldl_append]
    rfl
  rw [hnext, ← hset.latest, ← fst_insert]
  exact hset.coherent.enters_insert m

/-- **A set of macros is an ordered map**, whatever the history of an empty set.  The index and the
listing agree: a name is in the index with a position exactly if the macro at that position has the
name, and no two macros have one name.  The listing has each name that was defined once, in the order
of the first definitions, with the macro of the last one; these names and no others are found and
contained, and the size is their number.  Each definition answered the macro of its name that was
defined last before it, if there was one.  This is the macro that it replaced: the new one is listed
in its place, and behind all others if there was none. -/
theorem insertAll_follows_history (history : List Macro) :
    let set := ofList history
    (∀ name i, set.index[name]? = some i ↔ set.listing[i]?.map Macro.name = some name) ∧
    (set.toList.map Macro.name).Nodup ∧
    set.toList.map Macro.name = (history.map Macro.name).eraseDups ∧
    (∀ m ∈ set.toList, latest? history m.name = some m) ∧
    (∀ name, set.get? name = latest? history name) ∧
    (∀ name, (set.get? name).isSome ↔ name ∈ history.map Macro.name) ∧
    (∀ name, set.contains name ↔ name ∈ history.map Macro.name) ∧
    set.size = (history.map Macro.name).toFinset.card ∧
    insertAll {} history =
      (history.mapIdx fun i m => latest? (history.take i) m.name, set) ∧
    ∀ i m, history[i]? = some m →
      Enters m (ofList (history.take i)).toList (latest? (history.take i) m.name)
        (ofList (history.take (i + 1))).toList := by
  intro set
  have hset : set.Recounts history := recounts_ofList history
  have hcoherent := hset.coherent
  have hmem (name : String) : name ∈ set.toList.map Macro.name ↔ name ∈ history.map Macro.name := by
    rw [hset.names, List.mem_eraseDups]
  refine ⟨hcoherent, hcoherent.nodup_names, hset.names, fun m hm => ?_, hset.latest,
    fun name => hcoherent.isSome_get?_iff.trans (hmem name),
    fun name => hcoherent.contains_iff.trans (hmem name), hset.size_eq, insertAll_eq history,
    fun _ _ => enters_ofList_take⟩
  rw [← hset.latest, hcoherent.get?_eq_some_iff]
  exact ⟨hm, rfl⟩

/-- The first of two macros is defined anew, and keeps its place. -/
theorem insertAll_follows_history_anew :
    let history : List Macro := [⟨"a", "+"⟩, ⟨"b", "-"⟩, ⟨"a", "++"⟩]
    history[2]? = some ⟨"a", "++"⟩ ∧ ⟨"a", "++"⟩ ∈ (ofList history).toList ∧
      latest? history "a" = some ⟨"a", "++"⟩ ∧
      insertAll {} history = ([none, none, some ⟨"a", "+"⟩], ofList history) ∧
      Enters ⟨"a", "++"⟩ [⟨"a", "+"⟩, ⟨"b", "-"⟩] (some ⟨"a", "+"⟩) [⟨"a", "++"⟩, ⟨"b", "-"⟩] := by
  intro history
  have hm : history[2]? = some ⟨"a", "++"⟩ := rfl
  -- Before the last definition the names are different, and so the listing is the history.
  have hbefore : (ofList (history.take 2)).toList = [⟨"a", "+"⟩, ⟨"b", "-"⟩] :=
    toList_ofList (by decide)
  have hafter : (ofList history).toList = [⟨"a", "++"⟩, ⟨"b", "-"⟩] := by
    simp [history, ofList, insert, toList, Std.HashMap.getElem_insert]
  have hmem : ⟨"a", "++"⟩ ∈ (ofList history).toList := hafter ▸ List.mem_cons_self
  obtain ⟨-, -, -, hlast, -, -, -, -, hanswers, henters⟩ := insertAll_follows_history history
  refine ⟨hm, hmem, hlast _ hmem, hanswers, ?_⟩
  rw [← hbefore, ← hafter]
  exact henters 2 _ hm

end TapeLang.MacroSet
