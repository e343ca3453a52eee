import Mathlib.Data.List.Find
import Mathlib.Data.List.Forall2
import TapeLang.Library
import TapeLang.Proofs.Constants.Lines

/-!
# Texts joined into one

Texts of constants are joined into one text, each with a line feed behind it unless one is there
(`joined`).  What the joined text says is what the texts say one after another
(`statements_joined`): between two of them there is always a line feed, so no line of one runs into a
line of the next, whether a text is empty, lacks its last line feed or ends in a carriage return.

So a table is read from the joined text exactly if one is read from each of the texts, and it binds
what these bind, one after another (`parse_joined_eq_ok_iff`).  Otherwise the line that is quoted is
the one for which the first text is refused that is (`exists_parse_joined_eq_error_iff`).
-/

namespace TapeLang.Constants

variable {text quoted : String} {texts : List String} {table : Constants}

/-! ### Statements -/

/-- What a text says: its lines, trimmed, without those that are empty then. -/
def statements (text : List Char) : List (List Char) :=
  ((Text.lines text).map Text.trim).filter (· ≠ [])

theorem statements_eq_splitOn (text : List Char) :
    statements text = ((text.splitOn '\n').map Text.trim).filter (· ≠ []) := by
  obtain htrim | htrim := Text.map_trim_splitOn text
  · rw [statements, htrim]
  · rw [statements, htrim, List.map_append, List.filter_append]
    exact (List.append_nil _).symm

theorem statements_nil : statements [] = [] := rfl

/-- A line feed parts what is said before it from what is said behind it. -/
theorem statements_append_feed (front back : List Char) :
    statements (front ++ '\n' :: back) = statements front ++ statements back := by
  rw [statements_eq_splitOn, statements_eq_splitOn, statements_eq_splitOn,
    List.splitOn_append_cons_self, List.map_append, List.filter_append]

/-- One more line feed at the end says nothing. -/
theorem statements_endLine (text : String) :
    statements (Library.endLine text).toList = statements text.toList := by
  rw [Library.endLine]
  split
  · rfl
  · rw [String.toList_push, statements_append_feed, statements_nil, List.append_nil]

/-! ### Joining -/

/-- The text is empty or ends in a line feed. -/
def EndsLine (text : String) : Prop := text.toList = [] ∨ text.toList.getLast? = some '\n'

theorem endsLine_endLine (text : String) : EndsLine (Library.endLine text) := by
  rw [Library.endLine]
  split
  case isTrue hlast => exact .inr hlast
  case isFalse => exact .inr (by rw [String.toList_push, List.getLast?_concat])

theorem EndsLine.statements_append (h : EndsLine text) (more : List Char) :
    statements (text.toList ++ more) = statements text.toList ++ statements more := by
  obtain hnil | hlast := h
  · rw [hnil, statements_nil, List.nil_append, List.nil_append]
  · obtain ⟨front, hfront⟩ := List.getLast?_eq_some_iff.mp hlast
    have hsay : statements text.toList = statements front := by
      rw [hfront, statements_append_feed, statements_nil, List.append_nil]
    rw [hsay, hfront, List.append_assoc, List.singleton_append, statements_append_feed]

/-- The texts one after another, each with a line feed behind it unless one is there. -/
def joinedTo (text : String) (texts : List String) : String :=
  texts.foldl (fun text more => Library.endLine (text ++ more)) text

def joined (texts : List String) : String := joinedTo "" texts

theorem statements_joinedTo (h : EndsLine text) (texts : List String) :
    statements (joinedTo text texts).toList =
      statements text.toList ++ texts.flatMap fun more => statements more.toList := by
  -- What is joined so far grows by one text at a time, and it always ends its last line.
  induction texts generalizing text with
  | nil => exact (List.append_nil _).symm
  | cons more texts ih =>
    calc statements (joinedTo text (more :: texts)).toList
        = statements (Library.endLine (text ++ more)).toList ++
            texts.flatMap fun more => statements more.toList := ih (endsLine_endLine _)
      _ = statements text.toList ++ statements more.toList ++
            texts.flatMap fun more => statements more.toList := by
          rw [statements_endLine, String.toList_append, h.statements_append]
      _ = _ := by rw [List.append_assoc, List.flatMap_cons]

/-- Joined texts say what the texts say, one after another. -/
theorem statements_joined (texts : List String) :
    statements (joined texts).toList = texts.flatMap fun text => statements text.toList :=
  statements_joinedTo (.inl rfl) texts

/-! ### What statements come to -/

/-- A text binds what its statements bind. -/
theorem pairsOf_statements (text : List Char) :
    pairsOf (statements text) = pairsOf (Text.lines text) := by
  rw [statements, pairsOf, List.filterMap_filter, List.filterMap_map, pairsOf]
  refine List.filterMap_congr fun line _ => ?_
  rw [Function.comp_apply]
  split
  case isTrue => rw [binding?, Text.trim_trim, binding?]
  case isFalse hblank =>
    have hnil : Text.trim line = [] := by simpa using hblank
    rw [binding?, hnil]
    rfl

/-- A line that, trimmed, is not allowed. -/
def isBad (line : List Char) : Bool := Line.read line = .other

theorem isBad_trim_iff {line : List Char} : isBad (Text.trim line) = true ↔ ¬Allowed line :=
  decide_eq_true_iff.trans not_allowed_iff.symm

/-- The first line of a text that is not allowed, trimmed. -/
def firstBad (text : String) : Option (List Char) := (statements text.toList).find? isBad

theorem firstBad_eq (text : String) :
    firstBad text =
      ((Text.lines text.toList).find? fun line => isBad (Text.trim line)).map Text.trim := by
  rw [firstBad, statements, List.find?_filter, List.find?_map]
  refine congrArg _ (List.find?_congr fun line _ => ?_)
  -- A line of blanks is allowed, so nothing is lost where such lines are left out.
  cases htrim : Text.trim line with
  | nil => simp [htrim, isBad, Line.read]
  | cons c cs => simp [htrim]

theorem firstBad_eq_none_iff : firstBad text = none ↔ ∃ table, parse text = .ok table := by
  simp only [firstBad_eq, Option.map_eq_none_iff, List.find?_eq_none, isBad_trim_iff, not_not]
  exact ⟨fun h => ⟨_, parse_of_allowed h⟩, fun ⟨_, hparse⟩ => (parse_eq_ok_iff.mp hparse).1⟩

theorem firstBad_eq_some_iff {line : List Char} :
    firstBad text = some line ↔ RefusedFor text (String.ofList line) := by
  rw [firstBad_eq, Option.map_eq_some_iff]
  constructor
  · rintro ⟨bad, hfind, rfl⟩
    obtain ⟨hbad, before, after, hlines, hbefore⟩ := List.find?_eq_some_iff_append.mp hfind
    refine ⟨before, bad, after, hlines, fun earlier hmem => ?_, isBad_trim_iff.mp hbad, rfl⟩
    by_contra hearlier
    simpa [isBad_trim_iff.mpr hearlier] using hbefore earlier hmem
  · rintro ⟨before, bad, after, hlines, hbefore, hbad, hline⟩
    refine ⟨bad, List.find?_eq_some_iff_append.mpr
      ⟨isBad_trim_iff.mpr hbad, before, after, hlines, fun earlier hmem => ?_⟩,
      (String.ofList_inj.mp hline).symm⟩
    rw [Bool.not_eq_true', Bool.eq_false_iff]
    exact fun hearlier => isBad_trim_iff.mp hearlier (hbefore earlier hmem)

/-! ### What joined texts come to -/

/-- The first bad line of joined texts is that of the first text that has one. -/
theorem firstBad_joined (texts : List String) :
    firstBad (joined texts) = texts.findSome? firstBad := by
  rw [firstBad, statements_joined, List.find?_flatMap]
  rfl

theorem pairsOf_joined (texts : List String) :
    pairsOf (Text.lines (joined texts).toList) =
      texts.flatMap fun text => pairsOf (Text.lines text.toList) := by
  rw [← pairsOf_statements, statements_joined, pairsOf, List.filterMap_flatMap]
  exact List.flatMap_congr fun text _ => pairsOf_statements text.toList

/-- Tables are bound one after another as the lines of their texts are. -/
theorem bindAll_flatMap_entries {tables : List Constants}
    (h : List.Forall₂ (fun text table => parse text = .ok table) texts tables) (table : Constants) :
    table.bindAll (tables.flatMap entries) =
      table.bindAll (texts.flatMap fun text => pairsOf (Text.lines text.toList)) := by
  induction h generalizing table with
  | nil => rfl
  | @cons text part texts tables hparse _ ih =>
    obtain ⟨-, rfl⟩ := parse_eq_ok_iff.mp hparse
    rw [List.flatMap_cons, List.flatMap_cons, bindAll_append, bindAll_append,
      bindAll_entries_ofList, ih]

theorem exists_parse_of_mem {tables : List Constants}
    (h : List.Forall₂ (fun text table => parse text = .ok table) texts tables)
    (hmem : text ∈ texts) : ∃ table, parse text = .ok table := by
  induction h with
  | nil => cases hmem
  | @cons _ part _ _ hparse _ ih =>
    obtain rfl | hmem := List.mem_cons.mp hmem
    · exact ⟨part, hparse⟩
    · exact ih hmem

/-- **A table is read from joined texts** exactly if one is read from each of them, and it is these
one after another. -/
theorem parse_joined_eq_ok_iff :
    parse (joined texts) = .ok table ↔
      ∃ tables, List.Forall₂ (fun text table => parse text = .ok table) texts tables ∧
        ofList (tables.flatMap entries) = table := by
  constructor
  · intro hparse
    -- All texts are tables together exactly if each of them is one, since their lines are the same.
    have hnone := firstBad_eq_none_iff.mpr ⟨table, hparse⟩
    rw [firstBad_joined, List.findSome?_eq_none_iff] at hnone
    have htables : List.Forall₂ (fun text table => parse text = .ok table) texts
        (texts.map fun text => ofList (pairsOf (Text.lines text.toList))) := by
      rw [List.forall₂_map_right_iff, List.forall₂_same]
      intro text hmem
      obtain ⟨part, hpart⟩ := firstBad_eq_none_iff.mp (hnone text hmem)
      rw [hpart, (parse_eq_ok_iff.mp hpart).2]
    refine ⟨_, htables, ?_⟩
    rw [ofList_eq_bindAll, bindAll_flatMap_entries htables, ← pairsOf_joined]
    exact (parse_eq_ok_iff.mp hparse).2
  · rintro ⟨tables, htables, rfl⟩
    have hnone : firstBad (joined texts) = none := by
      rw [firstBad_joined, List.findSome?_eq_none_iff]
      exact fun text hmem => firstBad_eq_none_iff.mpr (exists_parse_of_mem htables hmem)
    obtain ⟨table, hparse⟩ := firstBad_eq_none_iff.mp hnone
    rw [hparse, ofList_eq_bindAll, bindAll_flatMap_entries htables, ← pairsOf_joined,
      ← ofList_eq_bindAll, (parse_eq_ok_iff.mp hparse).2]

/-- Joined texts are refused for the line for which the first of them is refused that is. -/
theorem exists_parse_joined_eq_error_iff :
    (∃ number, parse (joined texts) = .error (.badConstant number quoted)) ↔
      ∃ before text after, texts = before ++ text :: after ∧
        (∀ earlier ∈ before, ∃ table, parse earlier = .ok table) ∧ RefusedFor text quoted := by
  -- Which text is refused does not depend on the number of its line, and so it is not said.
  have hbad : ∀ text, RefusedFor text quoted ↔ firstBad text = some quoted.toList := fun text => by
    rw [firstBad_eq_some_iff, String.ofList_toList]
  simp only [← refusedFor_iff, hbad, firstBad_joined, List.findSome?_eq_some_iff,
    ← firstBad_eq_none_iff]
  constructor
  · rintro ⟨before, text, after, htexts, hfirst, hbefore⟩
    exact ⟨before, text, after, htexts, hbefore, hfirst⟩
  · rintro ⟨before, text, after, htexts, hbefore, hfirst⟩
    exact ⟨before, text, after, htexts, hfirst, hbefore⟩

end TapeLang.Constants
