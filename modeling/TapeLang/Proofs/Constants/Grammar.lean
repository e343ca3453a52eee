import Mathlib.Data.List.Nodup
import TapeLang.Proofs.Constants.Lines

/-!
# The table that a text describes

The lines of a text alone tell which names a table holds, in which order, and with which values
(`DescribedBy`): each name has the value of the last line that binds it, and stands where the first
such line put it.  There is one such table (`DescribedBy.unique`), and it is the one that is read.

A table whose names and values are words is written one entry in a line, and read back as it is.

Main statement: `parse_follows_lines`.
-/

namespace TapeLang.Constants

variable {line : List Char} {lines : List (List Char)} {name other value : String}
  {table table' : Constants}

/-! ### The names and values that lines give -/

/-- The last line that binds the name gives it this value. -/
def LastBinds (lines : List (List Char)) (name value : String) : Prop :=
  ∃ before line after, lines = before ++ line :: after ∧ Binds line name value ∧
    ∀ later ∈ after, ∀ other, ¬Binds later name other

/-- One name is bound first: some line binds it, and neither that line nor any before it binds the
other. -/
def BoundFirst (lines : List (List Char)) (name other : String) : Prop :=
  ∃ before line after value, lines = before ++ line :: after ∧ Binds line name value ∧
    ∀ earlier ∈ before ++ [line], ∀ value, ¬Binds earlier other value

/-- The table that lines describe: each name has the value of the last line that binds it, and the
names stand in the order of the first lines that bind them. -/
structure DescribedBy (table : Constants) (lines : List (List Char)) : Prop where
  get?_iff : ∀ name value, table.get? name = some value ↔ LastBinds lines name value
  mem_iff : ∀ name value, (name, value) ∈ table.entries ↔ LastBinds lines name value
  order : table.entries.Pairwise fun entry later => BoundFirst lines entry.1 later.1

theorem pairsOf_eq_append_cons_iff {pairs more : List (String × String)} {pair : String × String} :
    pairsOf lines = pairs ++ pair :: more ↔
      ∃ before line after, lines = before ++ line :: after ∧ pairsOf before = pairs ∧
        binding? line = some pair ∧ pairsOf after = more := by
  constructor
  · -- The lines in front of the one that binds the pair may bind nothing, and go to those before
    -- it.
    intro h
    obtain ⟨front, rest, rfl, hfront, hrest⟩ := List.filterMap_eq_append_iff.mp h
    obtain ⟨silent, line, after, rfl, hsilent, hline, hafter⟩ := List.filterMap_eq_cons_iff.mp hrest
    refine ⟨front ++ silent, line, after, by simp, ?_, hline, hafter⟩
    rw [pairsOf, List.filterMap_append, hfront, List.filterMap_eq_nil_iff.mpr hsilent,
      List.append_nil]
  · rintro ⟨before, line, after, rfl, rfl, hline, rfl⟩
    rw [pairsOf, List.filterMap_append, List.filterMap_cons_some hline, pairsOf, pairsOf]

theorem mem_pairsOf_iff {pair : String × String} :
    pair ∈ pairsOf lines ↔ ∃ line ∈ lines, Binds line pair.1 pair.2 := by
  rw [pairsOf, List.mem_filterMap]
  simp only [← binding?_eq_some_iff]

theorem forall_pairsOf_ne_iff :
    (∀ pair ∈ pairsOf lines, pair.1 ≠ name) ↔ ∀ line ∈ lines, ∀ value, ¬Binds line name value := by
  constructor
  · intro h line hmem value hbinds
    exact h (name, value) (mem_pairsOf_iff.mpr ⟨line, hmem, hbinds⟩) rfl
  · rintro h pair hmem rfl
    obtain ⟨line, hline, hbinds⟩ := mem_pairsOf_iff.mp hmem
    exact h line hline pair.2 hbinds

theorem get?_ofList_pairsOf_iff :
    (ofList (pairsOf lines)).get? name = some value ↔ LastBinds lines name value := by
  rw [get?_ofList_eq_some_iff]
  constructor
  · rintro ⟨pairs, more, hpairs, hmore⟩
    obtain ⟨before, line, after, rfl, -, hline, rfl⟩ := pairsOf_eq_append_cons_iff.mp hpairs
    exact ⟨before, line, after, rfl, binding?_eq_some_iff.mp hline, forall_pairsOf_ne_iff.mp hmore⟩
  · rintro ⟨before, line, after, rfl, hbinds, hafter⟩
    refine ⟨pairsOf before, pairsOf after, ?_, forall_pairsOf_ne_iff.mpr hafter⟩
    exact pairsOf_eq_append_cons_iff.mpr
      ⟨before, line, after, rfl, rfl, binding?_eq_some_iff.mpr hbinds, rfl⟩

theorem boundFirst_of_comesFirst (h : ComesFirst (pairsOf lines) name other) :
    BoundFirst lines name other := by
  obtain ⟨pairs, pair, more, hpairs, rfl, hother⟩ := h
  obtain ⟨before, line, after, rfl, rfl, hline, -⟩ := pairsOf_eq_append_cons_iff.mp hpairs
  refine ⟨before, line, after, pair.2, rfl, binding?_eq_some_iff.mp hline, ?_⟩
  rw [← forall_pairsOf_ne_iff, pairsOf, List.filterMap_append, List.filterMap_cons_some hline]
  exact hother

/-- **The pairs of the lines make the table that the lines describe.** -/
theorem describedBy_ofList (lines : List (List Char)) :
    (ofList (pairsOf lines)).DescribedBy lines where
  get?_iff _ _ := get?_ofList_pairsOf_iff
  mem_iff _ _ := mem_entries_iff.trans get?_ofList_pairsOf_iff
  order := (List.pairwise_map.mp (pairwise_ofList (pairsOf lines))).imp boundFirst_of_comesFirst

/-- Of two names, at most one is bound first. -/
theorem BoundFirst.asymm (h : BoundFirst lines name other) : ¬BoundFirst lines other name := by
  rintro ⟨before', line', after', value', hlines', hbinds', hnone'⟩
  obtain ⟨before, line, after, value, hlines, hbinds, hnone⟩ := h
  have hfront : before ++ [line] <+: lines := ⟨after, by simp [hlines]⟩
  have hfront' : before' ++ [line'] <+: lines := ⟨after', by simp [hlines']⟩
  -- The line that binds one name first is among the lines that do not bind it.
  obtain hshort | hshort := List.prefix_or_prefix_of_prefix hfront hfront'
  · exact hnone' line (hshort.subset (by simp)) value hbinds
  · exact hnone line' (hshort.subset (by simp)) value' hbinds'

/-- **Lines describe one table.** -/
theorem DescribedBy.unique (h : table.DescribedBy lines) (h' : table'.DescribedBy lines) :
    table = table' := by
  refine ext_entries (List.Perm.eq_of_pairwise ?_ h.order h'.order ?_)
  · intro entry entry' _ _ hfirst hfirst'
    exact absurd hfirst' hfirst.asymm
  · rw [List.perm_ext_iff_of_nodup (List.Nodup.of_map _ table.nodup)
      (List.Nodup.of_map _ table'.nodup)]
    exact fun ⟨name, value⟩ => (h.mem_iff name value).trans (h'.mem_iff name value).symm

/-! ### Writing a table -/

/-- Names and values are words; a value may be empty. -/
def OfWords (table : Constants) : Prop :=
  ∀ entry ∈ table.entries, entry.1 ≠ "" ∧ (∀ c ∈ entry.1.toList, Text.isWordChar c = true) ∧
    ∀ c ∈ entry.2.toList, Text.isWordChar c = true

/-- The line of an entry. -/
def lineOf (entry : String × String) : String := entry.1 ++ "=" ++ entry.2

/-- The table, one entry in a line. -/
def print (table : Constants) : String :=
  String.join (table.entries.map fun entry => lineOf entry ++ "\n")

theorem toList_lineOf (entry : String × String) :
    (lineOf entry).toList = entry.1.toList ++ '=' :: entry.2.toList := by
  simp [lineOf]

section

variable (hwords : table.OfWords)
include hwords

theorem OfWords.not_blank {entry : String × String} (hmem : entry ∈ table.entries) :
    ∀ c ∈ (lineOf entry).toList, Text.isBlank c = false := by
  obtain ⟨-, hname, hvalue⟩ := hwords entry hmem
  rw [toList_lineOf, List.forall_mem_append, List.forall_mem_cons]
  exact ⟨fun c hc => Text.isBlank_of_isWordChar (hname c hc), by decide,
    fun c hc => Text.isBlank_of_isWordChar (hvalue c hc)⟩

theorem OfWords.binds {entry : String × String} (hmem : entry ∈ table.entries) :
    Binds (lineOf entry).toList entry.1 entry.2 := by
  obtain ⟨hne, hname, hvalue⟩ := hwords entry hmem
  refine ⟨?_, by simpa using hne, hname, hvalue⟩
  rw [Text.trim_of_not_isBlank (hwords.not_blank hmem), toList_lineOf]

/-- A text whose lines are the entries, however they end, is read as the table. -/
theorem OfWords.parse_eq {text : String}
    (hlines : Text.lines text.toList = table.entries.map fun entry => (lineOf entry).toList) :
    parse text = .ok table := by
  have hallowed : ∀ line ∈ Text.lines text.toList, Allowed line := by
    rw [hlines, List.forall_mem_map]
    exact fun entry hmem => .inr (.inr ⟨entry.1, entry.2, hwords.binds hmem⟩)
  have hpairs : pairsOf (Text.lines text.toList) = table.entries := by
    rw [hlines, pairsOf, List.filterMap_map]
    conv_rhs => rw [← List.filterMap_some (l := table.entries)]
    exact List.filterMap_congr fun entry hmem => binding?_eq_some_iff.mpr (hwords.binds hmem)
  exact parse_eq_ok_iff.mpr ⟨hallowed, by rw [hpairs, ofList_entries]⟩

theorem OfWords.lines_print :
    Text.lines table.print.toList = table.entries.map fun entry => (lineOf entry).toList := by
  have hmem : ∀ entry ∈ table.entries, ∀ c ∈ (lineOf entry).toList, Text.isBlank c = false :=
    fun entry hmem => hwords.not_blank hmem
  rw [print, String.toList_join, List.flatMap_map]
  generalize table.entries = entries at hmem
  induction entries with
  | nil => exact Text.lines_nil
  | cons entry entries ih =>
    obtain ⟨hentry, hentries⟩ := List.forall_mem_cons.mp hmem
    -- No entry is cut: it has no line feed in it, and no carriage return at its end.
    have hfeed : '\n' ∉ (lineOf entry).toList := fun hc =>
      absurd (hentry '\n' hc) (by decide)
    have hreturn : Text.dropReturn (lineOf entry).toList = (lineOf entry).toList :=
      if_neg fun hlast => absurd (hentry '\r' (List.mem_of_getLast? hlast)) (by decide)
    have hline : (lineOf entry ++ "\n").toList = (lineOf entry).toList ++ ['\n'] :=
      String.toList_append
    rw [List.flatMap_cons, hline, List.append_assoc, List.singleton_append,
      Text.lines_append_feed hfeed, hreturn, ih hentries, List.map_cons]

end

/-! ### What comes of a text -/

/-- **A text is read as its lines say.**  The table that is read is the one that the lines describe,
and there is one exactly if all lines are allowed.  Otherwise the error is the first line that is not,
trimmed and with its number, counted from one.  So a table of words, one entry in a line, is read as
it was. -/
theorem parse_follows_lines (text : String) :
    (∀ table, parse text = .ok table ↔
      (∀ line ∈ Text.lines text.toList, Allowed line) ∧
        table.DescribedBy (Text.lines text.toList)) ∧
    ((∃ table, parse text = .ok table) ↔ ∀ line ∈ Text.lines text.toList, Allowed line) ∧
    (∀ e, parse text = .error e ↔ ∃ before line after,
      Text.lines text.toList = before ++ line :: after ∧ (∀ earlier ∈ before, Allowed earlier) ∧
        ¬Allowed line ∧
        e = .badConstant (before.length + 1) (String.ofList (Text.trim line))) ∧
    (∀ table : Constants, table.OfWords →
      (Text.lines text.toList = table.entries.map fun entry => (lineOf entry).toList) →
      parse text = .ok table) ∧
    ∀ table : Constants, table.OfWords → parse table.print = .ok table := by
  refine ⟨fun table => ?_, ⟨?_, ?_⟩, fun e => parse_eq_error_iff,
    fun table hwords hlines => hwords.parse_eq hlines,
    fun table hwords => hwords.parse_eq hwords.lines_print⟩
  · rw [parse_eq_ok_iff]
    exact and_congr_right fun _ =>
      ⟨fun h => h ▸ describedBy_ofList _, fun h => (describedBy_ofList _).unique h⟩
  · rintro ⟨table, hparse⟩
    exact (parse_eq_ok_iff.mp hparse).1
  · exact fun hlines => ⟨_, parse_of_allowed hlines⟩

/-- A name bound twice, between comments, blanks and lines that end in two characters. -/
def boundTwice : String := "x=1\n# y=0\n \r\n y=2 \r\nx=3"

theorem parse_follows_lines_bound_twice :
    (ofList [("x", "3"), ("y", "2")]).DescribedBy (Text.lines boundTwice.toList) ∧
      parse (ofList [("x", "3"), ("y", "2")]).print = .ok (ofList [("x", "3"), ("y", "2")]) ∧
      parse "x=1\n y = 2\r\n" = .error (.badConstant 2 "y = 2") := by
  have hparse : parse boundTwice = .ok (ofList [("x", "3"), ("y", "2")]) := by decide +kernel
  have hwords : (ofList [("x", "3"), ("y", "2")]).OfWords := by
    intro entry hmem
    rw [entries_ofList_of_nodup (by decide)] at hmem
    obtain rfl | rfl : entry = ("x", "3") ∨ entry = ("y", "2") := by simpa using hmem
    · exact ⟨by decide, List.all_eq_true.mp (by decide), List.all_eq_true.mp (by decide)⟩
    · exact ⟨by decide, List.all_eq_true.mp (by decide), List.all_eq_true.mp (by decide)⟩
  refine ⟨((parse_follows_lines boundTwice).1 _ |>.mp hparse).2, ?_, by decide +kernel⟩
  exact (parse_follows_lines boundTwice).2.2.2.2 _ hwords

end TapeLang.Constants
