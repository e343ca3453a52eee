import TapeLang.Proofs.Constants.Bindings

/-!
# Reading a table of constants

A text is read line by line (`parse_eq_readLines`).  A line ends in a line feed or in a carriage
return and a line feed, and the last one need not end at all (`Text.lines`).  Without the blanks at
its ends, a line is empty, a comment, or binds a name to a value (`Allowed`).

Lines that are allowed bind their pairs, and what follows them is read as on its own
(`readLines_append`).  So a text is a table if all of its lines are allowed (`parse_eq_ok_iff`), and
otherwise the first one that is not is the error (`parse_eq_error_iff`).
-/

namespace TapeLang

namespace Text

/-! ### The lines of a text -/

/-- A line without the carriage return at its end, if there is one. -/
def dropReturn (line : List Char) : List Char :=
  if line.getLast? = some '\r' then line.dropLast else line

/-- The lines of a text.  A line feed ends a line and takes a carriage return before it along.
Behind the last line feed there is one more line, unless the text ends there. -/
def lines (text : List Char) : List (List Char) :=
  let parts := text.splitOn '\n'
  parts.dropLast.map dropReturn ++ (parts.getLast?.filter (· ≠ [])).toList

theorem lines_nil : lines [] = [] := rfl

/-- A line feed ends a line. -/
theorem lines_append_feed {line : List Char} (hfeed : '\n' ∉ line) (rest : List Char) :
    lines (line ++ '\n' :: rest) = dropReturn line :: lines rest := by
  have hparts : (line ++ '\n' :: rest).splitOn '\n' = line :: rest.splitOn '\n' := by
    rw [List.splitOn_append_cons_self, List.splitOn_eq_singleton hfeed, List.singleton_append]
  obtain ⟨part, parts, hrest⟩ := List.exists_cons_of_ne_nil (List.splitOn_ne_nil '\n' rest)
  rw [lines, lines, hparts, hrest, List.dropLast_cons_cons, List.getLast?_cons_cons, List.map_cons,
    List.cons_append]

theorem trim_dropReturn (line : List Char) : trim (dropReturn line) = trim line := by
  rw [dropReturn]
  split
  case isTrue hlast =>
    obtain ⟨front, hline⟩ := List.getLast?_eq_some_iff.mp hlast
    rw [hline, List.dropLast_concat]
    have hreturn : trim ([] ++ front ++ ['\r']) = trim front :=
      trim_append_append (by simp) (List.forall_mem_singleton.mpr (by decide))
    exact hreturn.symm
  case isFalse => rfl

/-- Trimmed, the lines of a text are what stands between line feeds, but for an empty end. -/
theorem map_trim_splitOn (text : List Char) :
    (text.splitOn '\n').map trim = (lines text).map trim ∨
      (text.splitOn '\n').map trim = (lines text ++ [[]]).map trim := by
  -- A carriage return before the line feed is a blank, and so it is lost by trimming.
  obtain hnil | ⟨parts, last, hparts⟩ := List.eq_nil_or_concat (text.splitOn '\n')
  · exact absurd hnil (List.splitOn_ne_nil '\n' text)
  have hdrop : parts.map (trim ∘ dropReturn) = parts.map trim :=
    List.map_congr_left fun line _ => trim_dropReturn line
  rw [List.concat_eq_append] at hparts
  rw [lines, hparts, List.dropLast_concat, List.getLast?_concat]
  -- Behind a line feed at the end nothing stands, and this is no line.
  by_cases hlast : last = []
  · right
    simp [hlast, hdrop]
  · left
    simp [hlast, hdrop, Option.filter]

/-! ### Text without blanks -/

theorem isBlank_of_isWordChar {c : Char} (h : isWordChar c = true) : isBlank c = false := by
  -- No blank lies in the range of the word characters.
  have hrange : 48 ≤ c.toNat ∧ c.toNat ≤ 122 := by
    delta isWordChar Char.isAlphanum Char.isAlpha Char.isUpper Char.isLower Char.isDigit at h
    simp only [Bool.or_eq_true, Bool.and_eq_true, decide_eq_true_eq, beq_iff_eq, ge_iff_le,
      UInt32.le_iff_toNat_le] at h
    obtain ((⟨hlow, hhigh⟩ | ⟨hlow, hhigh⟩) | ⟨hlow, hhigh⟩) | rfl := h
    · exact ⟨Nat.le_trans (by decide) hlow, Nat.le_trans hhigh (by decide)⟩
    · exact ⟨Nat.le_trans (by decide) hlow, Nat.le_trans hhigh (by decide)⟩
    · exact ⟨Nat.le_trans (by decide) hlow, Nat.le_trans hhigh (by decide)⟩
    · decide
  simp only [isBlank, Bool.or_eq_false_iff, Bool.and_eq_false_iff, decide_eq_false_iff_not,
    beq_eq_false_iff_ne]
  omega

theorem trim_of_not_isBlank {cs : List Char} (h : ∀ c ∈ cs, isBlank c = false) : trim cs = cs := by
  have hstart : ∀ ds : List Char, (∀ d ∈ ds, isBlank d = false) → trimStart ds = ds := by
    intro ds hds
    cases ds with
    | nil => rfl
    | cons d ds => exact List.dropWhile_cons_of_neg (by simp [hds d])
  rw [trim, hstart cs h, trimEnd, hstart cs.reverse (by simpa using h), List.reverse_reverse]

end Text

namespace Constants

variable {line name' value' : List Char} {lines before after : List (List Char)}
  {name other value : String} {table : Constants}

/-! ### What a line says -/

/-- The line binds a name to a value.  Blanks at its ends aside, it is the name, an equals sign
and the value, both of word characters.  The value may be empty, but the name may not. -/
structure Binds (line : List Char) (name value : String) : Prop where
  trim_eq : Text.trim line = name.toList ++ '=' :: value.toList
  name_ne_nil : name.toList ≠ []
  name_word : ∀ c ∈ name.toList, Text.isWordChar c = true
  value_word : ∀ c ∈ value.toList, Text.isWordChar c = true

/-- The line is allowed: blanks at its ends aside, it is empty or starts with `#`, or it binds a
name. -/
def Allowed (line : List Char) : Prop :=
  Text.trim line = [] ∨ (Text.trim line).head? = some '#' ∨ ∃ name value, Binds line name value

theorem Line.read_eq_empty_iff : Line.read line = .empty ↔ line = [] ∨ line.head? = some '#' := by
  unfold Line.read
  split
  case h_1 => simp
  case h_2 rest => simp
  case h_3 hnil hcomment =>
    -- A line that starts with neither is a binding or a fault.
    have hneither : ¬(line = [] ∨ line.head? = some '#') := by
      rintro (hline | hhead)
      · exact hnil hline
      · obtain ⟨rest, hrest⟩ := List.head?_eq_some_iff.mp hhead
        exact hcomment rest hrest
    refine iff_of_false ?_ hneither
    split
    · split <;> simp
    · simp

theorem Line.read_of_binding (hname : name' ≠ []) (hnameWord : ∀ c ∈ name', Text.isWordChar c = true)
    (hvalueWord : ∀ c ∈ value', Text.isWordChar c = true) :
    Line.read (name' ++ '=' :: value') = .binding name' value' := by
  -- The name ends at the `=`, which is no word character.
  have htake : (name' ++ '=' :: value').takeWhile Text.isWordChar = name' := by
    rw [List.takeWhile_append_of_pos hnameWord, List.takeWhile_cons_of_neg (by decide),
      List.append_nil]
  have hdrop : (name' ++ '=' :: value').dropWhile Text.isWordChar = '=' :: value' := by
    rw [List.dropWhile_append_of_pos hnameWord, List.dropWhile_cons_of_neg (by decide)]
  unfold Line.read
  split
  case h_1 hnil => simp at hnil
  -- The name starts with a word character, so the line is no comment.
  case h_2 rest hcomment =>
    obtain ⟨c, cs, rfl⟩ := List.exists_cons_of_ne_nil hname
    obtain rfl : c = '#' := (List.cons.inj hcomment).1
    exact absurd (hnameWord '#' List.mem_cons_self) (by decide)
  case h_3 =>
    have hall : value'.all Text.isWordChar = true := List.all_eq_true.mpr hvalueWord
    simp [htake, hdrop, hname, hall]

theorem Line.read_eq_binding_iff :
    Line.read line = .binding name' value' ↔
      line = name' ++ '=' :: value' ∧ name' ≠ [] ∧ (∀ c ∈ name', Text.isWordChar c = true) ∧
        ∀ c ∈ value', Text.isWordChar c = true := by
  constructor
  · intro h
    unfold Line.read at h
    split at h
    case h_1 => cases h
    case h_2 => cases h
    case h_3 =>
      split at h
      case h_1 name value htake hdrop =>
        split at h
        case isTrue hwords =>
          obtain ⟨rfl, rfl⟩ := Line.binding.inj h
          rw [Bool.and_eq_true, decide_eq_true_eq, List.all_eq_true] at hwords
          refine ⟨?_, hwords.1, List.all_eq_true.mp List.all_takeWhile, hwords.2⟩
          rw [← hdrop, List.takeWhile_append_dropWhile]
        case isFalse => cases h
      case h_2 => cases h
  · rintro ⟨rfl, hname, hnameWord, hvalueWord⟩
    exact Line.read_of_binding hname hnameWord hvalueWord

/-- The pair that a line binds. -/
def binding? (line : List Char) : Option (String × String) :=
  match Line.read (Text.trim line) with
  | .binding name value => some (String.ofList name, String.ofList value)
  | _ => none

theorem binding?_eq_some_iff : binding? line = some (name, value) ↔ Binds line name value := by
  have hbinds : Binds line name value ↔
      Line.read (Text.trim line) = .binding name.toList value.toList := by
    rw [Line.read_eq_binding_iff]
    exact ⟨fun ⟨htrim, hne, hname, hvalue⟩ => ⟨htrim, hne, hname, hvalue⟩,
      fun ⟨htrim, hne, hname, hvalue⟩ => ⟨htrim, hne, hname, hvalue⟩⟩
  rw [hbinds, binding?]
  cases Line.read (Text.trim line) with
  | empty => simp
  | other => simp
  | binding name' value' =>
    simp only [Option.some.injEq, Prod.mk.injEq, Line.binding.injEq]
    rw [← String.toList_inj, ← String.toList_inj, String.toList_ofList, String.toList_ofList]

/-- A line is not allowed where nothing can be made of it. -/
theorem not_allowed_iff : ¬Allowed line ↔ Line.read (Text.trim line) = .other := by
  have hallowed : Allowed line ↔
      Line.read (Text.trim line) = .empty ∨ (binding? line).isSome := by
    simp only [Allowed, ← or_assoc, ← Line.read_eq_empty_iff, Option.isSome_iff_exists, Prod.exists,
      binding?_eq_some_iff]
  rw [hallowed, binding?]
  cases Line.read (Text.trim line) <;> simp

/-- The pairs that lines bind, in order. -/
def pairsOf (lines : List (List Char)) : List (String × String) := lines.filterMap binding?

/-! ### Reading lines -/

/-- Allowed lines bind their pairs, and what follows them is read as it would be on its own. -/
theorem readLines_append (table : Constants) (number : Nat) (hbefore : ∀ line ∈ before, Allowed line)
    (after : List (List Char)) :
    readLines table number (before ++ after) =
      readLines (table.bindAll (pairsOf before)) (number + before.length) after := by
  -- The table and the number of the line are those reached, and vary with the lines read.
  induction before generalizing table number with
  | nil => rfl
  | cons line before ih =>
    obtain ⟨hline, hbefore⟩ := List.forall_mem_cons.mp hbefore
    have hnumber : number + (before.length + 1) = number + 1 + before.length := by omega
    rw [List.cons_append, readLines, pairsOf, List.filterMap_cons, binding?, List.length_cons,
      hnumber]
    cases hread : Line.read (Text.trim line) with
    | empty => exact ih table (number + 1) hbefore
    | binding name value => exact ih _ (number + 1) hbefore
    | other => exact absurd hline (not_allowed_iff.mpr hread)

theorem readLines_of_allowed (table : Constants) (number : Nat)
    (hlines : ∀ line ∈ lines, Allowed line) :
    readLines table number lines = .ok (table.bindAll (pairsOf lines)) := by
  have happend := readLines_append table number hlines []
  rwa [List.append_nil] at happend

/-- The first line that is not allowed is the error. -/
theorem readLines_of_not_allowed (table : Constants) (number : Nat)
    (hbefore : ∀ line ∈ before, Allowed line) (hline : ¬Allowed line) (after : List (List Char)) :
    readLines table number (before ++ line :: after) =
      .error (.badConstant (number + before.length) (String.ofList (Text.trim line))) := by
  rw [readLines_append table number hbefore, readLines, not_allowed_iff.mp hline]

/-- Only trimmed lines matter. -/
theorem readLines_congr {table : Constants} {number : Nat} {more : List (List Char)}
    (h : lines.map Text.trim = more.map Text.trim) :
    readLines table number lines = readLines table number more := by
  induction lines generalizing table number more with
  | nil =>
    obtain rfl : more = [] := List.map_eq_nil_iff.mp h.symm
    rfl
  | cons line lines ih =>
    obtain ⟨line', more', rfl, hline, hlines⟩ := List.map_eq_cons_iff.mp h.symm
    rw [readLines, readLines, hline]
    cases Line.read (Text.trim line) with
    | empty => exact ih hlines.symm
    | binding name value => exact ih hlines.symm
    | other => rfl

theorem readLines_concat_nil (table : Constants) (number : Nat) (lines : List (List Char)) :
    readLines table number (lines ++ [[]]) = readLines table number lines := by
  induction lines generalizing table number with
  | nil => rfl
  | cons line lines ih =>
    rw [List.cons_append, readLines, readLines]
    cases Line.read (Text.trim line) with
    | empty => exact ih table (number + 1)
    | binding name value => exact ih _ (number + 1)
    | other => rfl

/-- A text is read line by line. -/
theorem parse_eq_readLines (text : String) :
    parse text = readLines {} 1 (Text.lines text.toList) := by
  obtain htrim | htrim := Text.map_trim_splitOn text.toList
  · exact readLines_congr htrim
  · exact (readLines_congr htrim).trans (readLines_concat_nil {} 1 _)

/-! ### Reading a text -/

section

variable {text : String} {e : Error}

theorem parse_of_allowed (h : ∀ line ∈ Text.lines text.toList, Allowed line) :
    parse text = .ok (ofList (pairsOf (Text.lines text.toList))) := by
  rw [parse_eq_readLines, readLines_of_allowed {} 1 h, ofList_eq_bindAll]

theorem parse_of_not_allowed (hlines : Text.lines text.toList = before ++ line :: after)
    (hbefore : ∀ earlier ∈ before, Allowed earlier) (hline : ¬Allowed line) :
    parse text = .error (.badConstant (before.length + 1) (String.ofList (Text.trim line))) := by
  rw [parse_eq_readLines, hlines, readLines_of_not_allowed {} 1 hbefore hline, Nat.add_comm]

/-- **A text is a table** exactly if all of its lines are allowed. -/
theorem parse_eq_ok_iff :
    parse text = .ok table ↔
      (∀ line ∈ Text.lines text.toList, Allowed line) ∧
        ofList (pairsOf (Text.lines text.toList)) = table := by
  constructor
  · intro hparse
    obtain hlines | ⟨before, line, after, hlines, hbefore, hline⟩ :=
      forall_or_exists_first Allowed (Text.lines text.toList)
    · exact ⟨hlines, Except.ok.inj ((parse_of_allowed hlines).symm.trans hparse)⟩
    · cases (parse_of_not_allowed hlines hbefore hline).symm.trans hparse
  · rintro ⟨hlines, rfl⟩
    exact parse_of_allowed hlines

/-- **A text is refused** exactly for the first of its lines that is not allowed. -/
theorem parse_eq_error_iff :
    parse text = .error e ↔ ∃ before line after,
      Text.lines text.toList = before ++ line :: after ∧ (∀ earlier ∈ before, Allowed earlier) ∧
        ¬Allowed line ∧
        e = .badConstant (before.length + 1) (String.ofList (Text.trim line)) := by
  constructor
  · intro hparse
    obtain hlines | ⟨before, line, after, hlines, hbefore, hline⟩ :=
      forall_or_exists_first Allowed (Text.lines text.toList)
    · cases (parse_of_allowed hlines).symm.trans hparse
    · have herror := (parse_of_not_allowed hlines hbefore hline).symm.trans hparse
      exact ⟨before, line, after, hlines, hbefore, hline, (Except.error.inj herror).symm⟩
  · rintro ⟨before, line, after, hlines, hbefore, hline, rfl⟩
    exact parse_of_not_allowed hlines hbefore hline

theorem exists_eq_of_parse_eq_error (hparse : parse text = .error e) :
    ∃ number quoted, e = .badConstant number quoted := by
  obtain ⟨_, _, _, -, -, -, hbad⟩ := parse_eq_error_iff.mp hparse
  exact ⟨_, _, hbad⟩

/-- The line for which a text is refused, trimmed: the first that is not allowed. -/
def RefusedFor (text quoted : String) : Prop :=
  ∃ before line after, Text.lines text.toList = before ++ line :: after ∧
    (∀ earlier ∈ before, Allowed earlier) ∧ ¬Allowed line ∧
    quoted = String.ofList (Text.trim line)

theorem refusedFor_iff {quoted : String} :
    RefusedFor text quoted ↔ ∃ number, parse text = .error (.badConstant number quoted) := by
  constructor
  · rintro ⟨before, line, after, hlines, hbefore, hline, rfl⟩
    exact ⟨_, parse_of_not_allowed hlines hbefore hline⟩
  · rintro ⟨number, hparse⟩
    obtain ⟨before, line, after, hlines, hbefore, hline, herror⟩ := parse_eq_error_iff.mp hparse
    exact ⟨before, line, after, hlines, hbefore, hline, (Error.badConstant.inj herror).2⟩

end

end Constants
end TapeLang
