import Mathlib.Data.List.Induction
import Mathlib.Tactic.IntervalCases
import TapeLang.Dump
import TapeLang.Proofs.Lists

/-!
# Reading dumps

A dump can be read: `read?` takes a text apart into lines, a line into the place of its first cell and
its cells (`Line.read?`), and a cell into its mark and its value.  What a line shows is a part of the
cells together with their marks (`marks`).

Reading the dump of some cells gives back these cells and the selected place
(`read?_render_characterizes`), so that no two memories are shown alike.  This rests on two facts:
the digits of a number spell it (`number?_hex`), and no digit is a separator (`not_mem_hex`).
-/

namespace TapeLang.Dump

/-! ### Hexadecimal numbers -/

/-- What a hexadecimal digit stands for. -/
def digit? (c : Char) : Option Nat :=
  if c.isDigit then some (c.toNat - 48)
  else if 'a' ≤ c ∧ c ≤ 'f' then some (c.toNat - 87)
  else none

/-- The number that hexadecimal digits spell, most significant digit first. -/
def number? (digits : List Char) : Option Nat :=
  digits.foldlM (fun n c => (digit? c).map (16 * n + ·)) 0

theorem digit?_digitChar {d : Nat} (h : d < 16) : digit? d.digitChar = some d := by
  interval_cases d <;> decide

theorem number?_concat (digits : List Char) (c : Char) :
    number? (digits ++ [c]) = (number? digits).bind fun n => (digit? c).map (16 * n + ·) := by
  simp [number?, List.foldlM_append, Option.bind_eq_bind]

theorem number?_toDigits (n : Nat) : number? (Nat.toDigits 16 n) = some n := by
  induction n using Nat.strongRecOn with
  | ind n ih =>
    rw [Nat.toDigits_eq_if (by decide)]
    split
    case isTrue h =>
      have hdigit := number?_concat [] n.digitChar
      rw [digit?_digitChar h] at hdigit
      simpa [number?] using hdigit
    case isFalse h =>
      rw [number?_concat, ih (n / 16) (by omega), digit?_digitChar (Nat.mod_lt n (by decide))]
      simp only [Option.bind_some, Option.map_some, Option.some.injEq]
      omega

/-- Zeros in front do not count. -/
theorem number?_replicate_append (k : Nat) (digits : List Char) :
    number? (List.replicate k '0' ++ digits) = number? digits := by
  induction k with
  | zero => rfl
  | succ k ih =>
    have hzero : digit? '0' = some 0 := by decide
    rw [List.replicate_succ, List.cons_append, ← ih]
    simp [number?, hzero]

/-- The digits of a number spell it, whatever the width. -/
theorem number?_hex (width n : Nat) : number? (hex width n) = some n := by
  rw [hex, number?_replicate_append, number?_toDigits]

/-- Digits that spell a number are digits. -/
theorem digit?_ne_none_of_mem {digits : List Char} {n : Nat} (h : number? digits = some n) :
    ∀ c ∈ digits, digit? c ≠ none := by
  -- One more digit comes at the end, where the number is sixteen times the one before.
  induction digits using List.reverseRecOn generalizing n with
  | nil => simp
  | append_singleton digits d ih =>
    rw [number?_concat, Option.bind_eq_some_iff] at h
    obtain ⟨m, hm, hd⟩ := h
    intro c hc
    obtain hc | hc := List.mem_append.mp hc
    · exact ih hm c hc
    · obtain rfl := List.mem_singleton.mp hc
      intro hnone
      rw [hnone] at hd
      cases hd

/-- No separator is a digit. -/
theorem not_mem_hex {c : Char} (hdigit : digit? c = none) (width n : Nat) : c ∉ hex width n :=
  fun hc => digit?_ne_none_of_mem (number?_hex width n) c hc hdigit

/-! ### Values -/

/-- The value that a minus sign and digits spell, or digits alone. -/
def value? : List Char → Option Cell
  | '-' :: digits => (number? digits).map fun n : Nat => Int64.ofInt (-n)
  | digits => (number? digits).map fun n : Nat => Int64.ofInt n

/-- Every value is read back, the least one included. -/
theorem value?_value (v : Cell) : value? (value v) = some v := by
  rw [value]
  split
  case isTrue hneg =>
    -- The digits spell an integer, for the absolute value of the least value is none of 64 bits.
    have habs : -(v.toInt.natAbs : Int) = v.toInt := by omega
    rw [value?, number?_hex, Option.map_some, habs, Int64.ofInt_toInt]
  case isFalse hneg =>
    have habs : (v.toInt.natAbs : Int) = v.toInt := by omega
    -- No digit is a minus sign, so the text is not taken for a negative one.
    have hminus : '-' ∉ hex 2 v.toInt.natAbs := not_mem_hex (by decide) _ _
    unfold value?
    split
    · next digits hdigits =>
      rw [hdigits] at hminus
      simp at hminus
    · simp [number?_hex, habs]

theorem not_mem_value {c : Char} (hdigit : digit? c = none) (hminus : c ≠ '-') (v : Cell) :
    c ∉ value v := by
  have hhex := not_mem_hex hdigit 2 v.toInt.natAbs
  rw [value]
  split
  · simp [hminus, hhex]
  · exact hhex

/-! ### Cells -/

/-- The cells with their marks: the first of them has the place `place`. -/
def marks (pointer place : Nat) (cells : List Cell) : List (Bool × Cell) :=
  cells.mapIdx fun j v => (decide (place + j = pointer), v)

theorem marks_cons (pointer place : Nat) (v : Cell) (cells : List Cell) :
    marks pointer place (v :: cells) =
      (decide (place = pointer), v) :: marks pointer (place + 1) cells := by
  simp [marks, List.mapIdx_cons, Nat.add_comm, Nat.add_left_comm]

theorem marks_take_append_drop (pointer place n : Nat) (cells : List Cell) :
    marks pointer place (cells.take n) ++ marks pointer (place + n) (cells.drop n) =
      marks pointer place cells := by
  induction n generalizing place cells with
  | zero => rfl
  | succ n ih =>
    cases cells with
    | nil => rfl
    | cons v cells =>
      have hplace : place + 1 + n = place + (n + 1) := by omega
      have hrest := ih (place + 1) cells
      rw [hplace] at hrest
      rw [List.take_succ_cons, List.drop_succ_cons, marks_cons, marks_cons, List.cons_append, hrest]

/-- One cell is marked, if the selected place lies among them. -/
theorem countP_marks (pointer place : Nat) (cells : List Cell) :
    (marks pointer place cells).countP Prod.fst =
      if place ≤ pointer ∧ pointer < place + cells.length then 1 else 0 := by
  induction cells generalizing place with
  | nil => simp [marks]
  | cons v cells ih =>
    rw [marks_cons, List.countP_cons, ih, List.length_cons]
    -- Behind the selected place there is no other one, and before it the cells start one place
    -- later.
    by_cases hplace : place = pointer
    · simp [hplace]
    · simp only [hplace, decide_false, Bool.false_eq_true, if_false, Nat.add_zero]
      congr 1
      rw [eq_iff_iff]
      omega

/-- The cells that a text shows: each is a space, a mark and what stands before the next space. -/
def cells? : List Char → Option (List (Bool × Cell))
  | [] => some []
  | space :: mark :: rest =>
    if space = ' ' ∧ (mark = '>' ∨ mark = ' ') then do
      let v ← value? (rest.takeWhile (· ≠ ' '))
      let others ← cells? (rest.dropWhile (· ≠ ' '))
      return (decide (mark = '>'), v) :: others
    else none
  | _ => none
termination_by cs => cs.length
decreasing_by
  have hrest := (List.dropWhile_sublist (· ≠ ' ') (l := rest)).length_le
  simp only [List.length_cons]
  omega

/-- A text of cells is empty or goes on with a space. -/
theorem takeWhile_cellsFrom (pointer place : Nat) (cells : List Cell) :
    (cellsFrom pointer place cells).takeWhile (· ≠ ' ') = [] ∧
      (cellsFrom pointer place cells).dropWhile (· ≠ ' ') = cellsFrom pointer place cells := by
  cases cells with
  | nil => exact ⟨rfl, rfl⟩
  | cons v cells => simp [cellsFrom]

/-- The cells of a line are read back. -/
theorem cells?_cellsFrom (pointer place : Nat) (cells : List Cell) :
    cells? (cellsFrom pointer place cells) = some (marks pointer place cells) := by
  induction cells generalizing place with
  | nil => simp [cellsFrom, cells?, marks]
  | cons v cells ih =>
    -- The value has no space in it, and what stands behind it starts with one.
    have hspace : ∀ c ∈ value v, decide (c ≠ ' ') = true := fun c hc =>
      decide_eq_true fun heq => not_mem_value (by decide) (by decide) v (heq ▸ hc)
    obtain ⟨htake, hdrop⟩ := takeWhile_cellsFrom pointer (place + 1) cells
    rw [cellsFrom, List.cons_append, List.cons_append, cells?, List.takeWhile_append_of_pos hspace,
      List.dropWhile_append_of_pos hspace, htake, hdrop, List.append_nil, value?_value, ih, marks_cons]
    by_cases hplace : place = pointer
    · simp [hplace]
    · simp [hplace]

/-- A character that is no digit stands in a text of cells only as a minus sign, space or mark. -/
theorem not_mem_cellsFrom {c : Char} (hdigit : digit? c = none) (hminus : c ≠ '-') (hspace : c ≠ ' ')
    (hmark : c ≠ '>') (pointer place : Nat) (cells : List Cell) :
    c ∉ cellsFrom pointer place cells := by
  induction cells generalizing place with
  | nil => simp [cellsFrom]
  | cons v cells ih =>
    have hvalue := not_mem_value hdigit hminus v
    rw [cellsFrom]
    split
    · simp [hspace, hmark, hvalue, ih]
    · simp [hspace, hvalue, ih]

/-- As many marks are written as there are marked cells. -/
theorem count_cellsFrom (pointer place : Nat) (cells : List Cell) :
    (cellsFrom pointer place cells).count '>' = (marks pointer place cells).countP Prod.fst := by
  induction cells generalizing place with
  | nil => rfl
  | cons v cells ih =>
    have hvalue : (value v).count '>' = 0 :=
      List.count_eq_zero.mpr (not_mem_value (by decide) (by decide) v)
    rw [cellsFrom, marks_cons, List.countP_cons]
    by_cases hplace : place = pointer
    · simp [hplace, hvalue, ← ih]
    · simp [hplace, hvalue, ← ih]

/-! ### Lines -/

/-- A line that has been read: the place of its first cell, and the cells with their marks. -/
structure Line where
  place : Nat
  cells : List (Bool × Cell)
  deriving DecidableEq, Repr

/-- The line that a text spells: what stands before the first colon is the place. -/
def Line.read? (cs : List Char) : Option Line :=
  match cs.dropWhile (· ≠ ':') with
  | [] => none
  | _ :: rest => do
    let place ← number? (cs.takeWhile (· ≠ ':'))
    let cells ← cells? rest
    return { place, cells }

/-- A line is read back. -/
theorem Line.read?_append (pointer place : Nat) (cells : List Cell) :
    Line.read? (hex 4 place ++ ':' :: cellsFrom pointer place cells) =
      some { place, cells := marks pointer place cells } := by
  have hcolon : ∀ c ∈ hex 4 place, decide (c ≠ ':') = true := fun c hc =>
    decide_eq_true fun heq => not_mem_hex (by decide) 4 place (heq ▸ hc)
  rw [Line.read?, List.takeWhile_append_of_pos hcolon, List.dropWhile_append_of_pos hcolon]
  simp [number?_hex, cells?_cellsFrom]

/-- Each line starts with the place of its first cell, and the lines share out the cells. -/
theorem linesFrom_eq (pointer place : Nat) (cells : List Cell) :
    linesFrom pointer place cells = (List.range ((cells.length + 7) / 8)).map fun i =>
      hex 4 (place + 8 * i) ++
        ':' :: cellsFrom pointer (place + 8 * i) ((cells.drop (8 * i)).take 8) := by
  fun_induction linesFrom pointer place cells with
  | case1 place => rfl
  | case2 place cells hne ih =>
    -- The other lines are those of the cells behind the first eight, eight places further on.
    have hlength := List.length_pos_iff.mpr hne
    have hcount : (cells.length + 7) / 8 = ((cells.drop perLine).length + 7) / 8 + 1 := by
      simp only [List.length_drop, perLine]
      omega
    rw [ih, hcount, List.range_succ_eq_map, List.map_cons, List.map_map]
    refine congrArg₂ List.cons rfl (List.map_congr_left fun i _ => ?_)
    have hplace : place + perLine + 8 * i = place + 8 * (i + 1) := by
      simp only [perLine]
      omega
    have hdrop : perLine + 8 * i = 8 * (i + 1) := by
      simp only [perLine]
      omega
    rw [hplace, List.drop_drop, hdrop]
    rfl

/-- **Read line by line, the lines give all of the cells** with their marks. -/
theorem mapM_read?_linesFrom (pointer place : Nat) (cells : List Cell) :
    ∃ lines, (linesFrom pointer place cells).mapM Line.read? = some lines ∧
      lines.flatMap Line.cells = marks pointer place cells := by
  fun_induction linesFrom pointer place cells with
  | case1 place => exact ⟨[], rfl, rfl⟩
  | case2 place cells hne ih =>
    obtain ⟨lines, hread, hmarks⟩ := ih
    refine ⟨{ place, cells := marks pointer place (cells.take perLine) } :: lines, ?_, ?_⟩
    · rw [List.mapM_cons, Line.read?_append, hread]
      rfl
    · rw [List.flatMap_cons, hmarks, marks_take_append_drop]

theorem feed_not_mem_of_mem_linesFrom {pointer place : Nat} {cells : List Cell} {line : List Char}
    (h : line ∈ linesFrom pointer place cells) : '\n' ∉ line := by
  rw [linesFrom_eq, List.mem_map] at h
  obtain ⟨i, -, rfl⟩ := h
  have hhex := not_mem_hex (c := '\n') (by decide) 4 (place + 8 * i)
  have hcells := not_mem_cellsFrom (c := '\n') (by decide) (by decide) (by decide) (by decide)
    pointer (place + 8 * i) ((cells.drop (8 * i)).take 8)
  simp [hhex, hcells]

theorem count_linesFrom (pointer place : Nat) (cells : List Cell) :
    ((linesFrom pointer place cells).flatMap (· ++ ['\n'])).count '>' =
      (marks pointer place cells).countP Prod.fst := by
  fun_induction linesFrom pointer place cells with
  | case1 place => rfl
  | case2 place cells hne ih =>
    have hhex : (hex 4 place).count '>' = 0 :=
      List.count_eq_zero.mpr (not_mem_hex (by decide) 4 place)
    rw [← marks_take_append_drop pointer place perLine cells, List.countP_append, ← count_cellsFrom,
      ← ih]
    simp [hhex]

/-! ### Dumps -/

/-- The memory that a text shows: the cells of its lines, and the place of the first mark. -/
def read? (text : String) : Option (List Cell × Nat) := do
  let lines ← (text.toList.splitOn '\n').dropLast.mapM Line.read?
  let cells := lines.flatMap Line.cells
  let pointer ← cells.findIdx? Prod.fst
  return (cells.map Prod.snd, pointer)

theorem toList_render (cells : List Cell) (pointer : Nat) :
    (render cells pointer).toList = (linesFrom pointer 0 cells).flatMap (· ++ ['\n']) :=
  String.toList_ofList

/-- The place of the one mark is the selected place. -/
theorem findIdx?_marks {pointer : Nat} {cells : List Cell} (h : pointer < cells.length) :
    (marks pointer 0 cells).findIdx? Prod.fst = some pointer := by
  have hlength : pointer < (marks pointer 0 cells).length := by simpa [marks] using h
  refine List.findIdx?_eq_some_iff_getElem.mpr ⟨hlength, by simp [marks], fun j hj => ?_⟩
  simp only [marks, List.getElem_mapIdx, decide_eq_true_eq]
  omega

theorem map_snd_marks (pointer place : Nat) (cells : List Cell) :
    (marks pointer place cells).map Prod.snd = cells := by
  induction cells generalizing place with
  | nil => rfl
  | cons v cells ih => rw [marks_cons, List.map_cons, ih]

theorem read?_render {cells : List Cell} {pointer : Nat} (h : pointer < cells.length) :
    read? (render cells pointer) = some (cells, pointer) := by
  obtain ⟨lines, hread, hmarks⟩ := mapM_read?_linesFrom pointer 0 cells
  have hfeed : ∀ line ∈ linesFrom pointer 0 cells, '\n' ∉ line := fun line hline =>
    feed_not_mem_of_mem_linesFrom hline
  simp only [read?, toList_render, splitOn_flatMap_concat hfeed, List.dropLast_concat, hread,
    Option.bind_eq_bind, Option.bind_some, hmarks, findIdx?_marks h, map_snd_marks]
  rfl

/-- **A dump determines the memory.**  If the selected place lies among the cells, then reading the
dump gives the cells and the place back, so that no other memory is shown alike; one mark is written;
and there is one line for each started group of eight cells, which starts with the place of its first
cell and shows the cells of its group, the selected one marked. -/
theorem render_determines (cells : List Cell) (pointer : Nat) (h : pointer < cells.length) :
    read? (render cells pointer) = some (cells, pointer) ∧
      (∀ cells' pointer', pointer' < cells'.length → (cells', pointer') ≠ (cells, pointer) →
        render cells' pointer' ≠ render cells pointer) ∧
      (render cells pointer).toList.count '>' = 1 ∧
      ∃ lines : List (List Char),
        (render cells pointer).toList = lines.flatMap (· ++ ['\n']) ∧
        (∀ line ∈ lines, '\n' ∉ line) ∧
        lines.length = (cells.length + 7) / 8 ∧
        ∀ i (hi : i < lines.length), ∃ shown,
          lines[i] = hex 4 (8 * i) ++ ':' :: shown ∧ number? (hex 4 (8 * i)) = some (8 * i) ∧
          cells? shown = some (((cells.drop (8 * i)).take 8).mapIdx fun j v =>
            (decide (8 * i + j = pointer), v)) := by
  refine ⟨read?_render h, fun cells' pointer' h' hne heq => hne ?_, ?_, linesFrom pointer 0 cells,
    toList_render cells pointer, fun line hline => feed_not_mem_of_mem_linesFrom hline, ?_,
    fun i hi => ?_⟩
  · -- What is read from the one text is both memories.
    have hread := read?_render h'
    rw [heq, read?_render h] at hread
    exact (Option.some.inj hread).symm
  · rw [toList_render, count_linesFrom, countP_marks, if_pos ⟨by omega, by omega⟩]
  · rw [linesFrom_eq, List.length_map, List.length_range]
  · refine ⟨cellsFrom pointer (8 * i) ((cells.drop (8 * i)).take 8), ?_, number?_hex 4 (8 * i),
      cells?_cellsFrom pointer (8 * i) _⟩
    simp [linesFrom_eq]

/-- Ten cells, the least value among them, with the mark in the second line. -/
theorem render_determines_second_line :
    9 < [0, 42, -1, 300, Int64.minValue, Int64.maxValue, 6, 7, 8, (-255 : Cell)].length ∧
      read? (render [0, 42, -1, 300, Int64.minValue, Int64.maxValue, 6, 7, 8, -255] 9) =
        some ([0, 42, -1, 300, Int64.minValue, Int64.maxValue, 6, 7, 8, -255], 9) :=
  ⟨by decide, (render_determines _ 9 (by decide)).1⟩

example : render [300, -1] 0 = "0000: >12c  -01\n" := by decide +kernel

end TapeLang.Dump
