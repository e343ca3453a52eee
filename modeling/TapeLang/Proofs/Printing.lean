import TapeLang.Proofs.Brackets
import TapeLang.Token.Lexer

/-!
# Reading and printing

A program has many texts, and they differ in comments only: a text spells a program if what is left
of it without comments is the printed program (`spells_iff`).  So a program is spelled by its own
text.

The parser reads what is spelled wherever it stands (`parseFrom_append_of_spells`): the instructions
of the program are added to the innermost open block, whatever loops are open around it, and the
rest of the text is still to be read.  This is an induction on the spelling, in which the body of a
loop is read into a block of its own.

Main statement: reading and printing are inverse (`parse_eq_ok_iff_print_eq`).
-/

namespace TapeLang

/-! ### Symbols and comments -/

theorem Op.isSymbol_symbol (o : Op) : Lexeme.isSymbol o.symbol = true := by
  cases o <;> rfl

/-- A character that is no symbol is a comment. -/
theorem Lexeme.isSymbol_eq_false_iff {c : Char} :
    isSymbol c = false ↔ Op.ofSymbol? c = none ∧ c ≠ '[' ∧ c ≠ ']' := by
  constructor
  · intro h
    refine ⟨?_, ?_, ?_⟩
    · cases hop : Op.ofSymbol? c with
      | none => rfl
      | some o =>
        rw [← Op.symbol_of_ofSymbol? hop, o.isSymbol_symbol] at h
        cases h
    · rintro rfl
      cases h
    · rintro rfl
      cases h
  · rintro ⟨hop, hopen, hclose⟩
    unfold Op.ofSymbol? at hop
    unfold isSymbol
    repeat' split at hop
    all_goals simp_all

namespace Block

/-! ### Spelling a program -/

/-- Comments in front of a text spell nothing. -/
theorem Spells.append_comments {b : Block} {front cs : List Char} (h : Spells b cs)
    (hfront : ∀ c ∈ front, ¬ Lexeme.isSymbol c = true) : Spells b (front ++ cs) := by
  induction front with
  | nil => exact h
  | cons c front ih =>
    rw [List.forall_mem_cons] at hfront
    have hcomment := Lexeme.isSymbol_eq_false_iff.mp (Bool.eq_false_iff.mpr hfront.1)
    exact .comment hcomment.1 hcomment.2.1 hcomment.2.2 (ih hfront.2)

/-- What is left of a text without comments is the text of the program. -/
theorem filter_of_spells {b : Block} {cs : List Char} (h : Spells b cs) :
    cs.filter Lexeme.isSymbol = b.symbols := by
  induction h with
  | done => rfl
  | comment hop hopen hclose _ ih =>
    have hcomment := Lexeme.isSymbol_eq_false_iff.mpr ⟨hop, hopen, hclose⟩
    rw [List.filter_cons_of_neg (by simp [hcomment]), ih]
  | @op o next c cs hop _ ih =>
    obtain rfl := Op.symbol_of_ofSymbol? hop
    rw [List.filter_cons_of_pos o.isSymbol_symbol, ih, symbols]
  | @loop body next inner cs _ _ ihBody ihNext =>
    have hopen : Lexeme.isSymbol '[' = true := rfl
    have hclose : Lexeme.isSymbol ']' = true := rfl
    rw [List.filter_cons_of_pos hopen, List.filter_append, List.filter_cons_of_pos hclose, ihBody,
      ihNext, symbols, List.cons_append]

theorem spells_of_filter {b : Block} {cs : List Char}
    (h : cs.filter Lexeme.isSymbol = b.symbols) : Spells b cs := by
  -- Here it is on the program, for its symbols tell where the text is cut.
  induction b generalizing cs with
  | done =>
    rw [symbols, List.filter_eq_nil_iff] at h
    rw [← List.append_nil cs]
    exact Spells.done.append_comments h
  | op o next ih =>
    rw [symbols, List.filter_eq_cons_iff] at h
    obtain ⟨front, back, rfl, hfront, -, hback⟩ := h
    exact (Spells.op (Op.ofSymbol?_symbol o) (ih hback)).append_comments hfront
  | loop body next ihBody ihNext =>
    rw [symbols, List.cons_append, List.filter_eq_cons_iff] at h
    obtain ⟨front, rest, rfl, hfront, -, hrest⟩ := h
    -- The rest is cut where the bracket stands that closes the loop.
    obtain ⟨inner, back, rfl, hinner, hback⟩ := List.filter_eq_append_iff.mp hrest
    obtain ⟨comments, behind, rfl, hcomments, -, hbehind⟩ := List.filter_eq_cons_iff.mp hback
    have hbody : Spells body (inner ++ comments) := by
      refine ihBody ?_
      rw [List.filter_append, List.filter_eq_nil_iff.mpr hcomments, List.append_nil, hinner]
    have hloop := (Spells.loop hbody (ihNext hbehind)).append_comments hfront
    rwa [List.append_assoc] at hloop

/-- **A text spells a program** if, without comments, it is the text of the program. -/
theorem spells_iff {b : Block} {cs : List Char} :
    Spells b cs ↔ cs.filter Lexeme.isSymbol = b.symbols :=
  ⟨filter_of_spells, spells_of_filter⟩

theorem spells_symbols (b : Block) : Spells b b.symbols := by
  induction b with
  | done => exact .done
  | op o next ih => exact .op (Op.ofSymbol?_symbol o) ih
  | loop body next ihBody ihNext => exact .loop ihBody ihNext

/-! ### Reading what is spelled -/

/-- The instructions of a block behind those in the list, of which the last comes first. -/
def onto (current : List Instruction) : Block → List Instruction
  | done => current
  | op o next => onto (.op o :: current) next
  | loop body next => onto (.loop body :: current) next

theorem ofReversed_onto (current : List Instruction) (b : Block) :
    ofReversed (b.onto current) = current.foldl Instruction.before b := by
  induction b generalizing current with
  | done => rfl
  | op o next ih => exact ih (.op o :: current)
  | loop body next _ ih => exact ih (.loop body :: current)

/-- What is spelled is read, whatever is open around it: the instructions of the program are
added to the innermost block. -/
theorem parseFrom_append_of_spells {b : Block} {front : List Char} (h : Spells b front)
    (offset : Nat) (enclosing : List OpenLoop) (current : List Instruction) (cs : List Char) :
    parseFrom offset enclosing current (front ++ cs) =
      parseFrom (offset + front.length) enclosing (b.onto current) cs := by
  -- The blocks around and what was read before vary: a loop opens one more, and its body is read
  -- into this one.
  induction h generalizing offset enclosing current cs with
  | done => rfl
  | @comment b c front hop hopen hclose _ ih =>
    rw [List.cons_append, parseFrom_comment _ _ _ hop hopen hclose, ih, List.length_cons,
      Nat.add_right_comm, Nat.add_assoc]
  | @op o next c front hop _ ih =>
    rw [List.cons_append, parseFrom_op _ _ _ hop, ih, List.length_cons, Nat.add_right_comm,
      Nat.add_assoc]
    rfl
  | @loop body next inner behind _ _ ihBody ihNext =>
    have hlength : offset + 1 + inner.length + 1 + behind.length =
        offset + ('[' :: (inner ++ ']' :: behind)).length := by
      simp only [List.length_cons, List.length_append]
      omega
    rw [List.cons_append, List.append_assoc, List.cons_append, parseFrom_open, ihBody,
      parseFrom_close, ofReversed_onto, ihNext, hlength]
    rfl

/-- A text is read as the program that it spells, and as no other. -/
theorem parse_eq_ok_iff_spells {text : String} {program : Block} :
    parse text = .ok program ↔ Spells program text.toList := by
  constructor
  · exact spells_of_parse
  · intro h
    have hread := parseFrom_append_of_spells h 0 [] [] []
    rw [List.append_nil] at hread
    rw [parse, hread]
    exact congrArg Except.ok (ofReversed_onto [] program)

/-- **Reading and printing are inverse.**  A program is read from its own text; and a text is read
as a program if and only if the program's text is what is left of it without comments. -/
theorem parse_eq_ok_iff_print_eq (program : Block) :
    parse program.print = .ok program ∧
      ∀ text, parse text = .ok program ↔
        program.print = String.ofList (text.toList.filter Lexeme.isSymbol) := by
  refine ⟨?_, fun text => ?_⟩
  · rw [parse_eq_ok_iff_spells, toList_print]
    exact spells_symbols program
  · rw [parse_eq_ok_iff_spells, spells_iff, ← String.toList_inj, toList_print, String.toList_ofList]
    exact eq_comm

end Block
end TapeLang
