import TapeLang.Error
import TapeLang.Program.Block

/-!
# Reading programs

A text is read in one pass from left to right.  Characters that are neither operations nor brackets
are comments.  A `]` without a `[` before it is refused where it stands; a `[` without a `]` behind
it is refused at the end, and of several the last one is blamed.

While a loop is open, what stands before it in the enclosing block waits with the place of its `[`.
-/

namespace TapeLang.Block

/-- An instruction that was read. -/
inductive Instruction
  | op (op : Op)
  | loop (body : Block)

def Instruction.before (next : Block) : Instruction → Block
  | op o => .op o next
  | loop body => .loop body next

/-- The block of the instructions in a list, of which the last comes first. -/
def ofReversed (instructions : List Instruction) : Block := instructions.foldl Instruction.before .done

structure OpenLoop where
  /-- What stands before the loop in the enclosing block, last instruction first. -/
  before : List Instruction
  /-- The place of the loop's `[`. -/
  offset : Nat

/-- The program of the rest of a text.  `offset` is the place where the rest starts, `enclosing` are
the open loops, innermost first, and `current` is the innermost open block, last instruction
first. -/
def parseFrom (offset : Nat) (enclosing : List OpenLoop) (current : List Instruction) :
    List Char → Except Error Block
  | [] =>
    match enclosing with
    | [] => .ok (ofReversed current)
    | innermost :: _ => .error (.unmatched .opening innermost.offset)
  | c :: cs =>
    if let some o := Op.ofSymbol? c then
      parseFrom (offset + 1) enclosing (.op o :: current) cs
    else if c = '[' then
      parseFrom (offset + 1) (⟨current, offset⟩ :: enclosing) [] cs
    else if c = ']' then
      match enclosing with
      | [] => .error (.unmatched .closing offset)
      | innermost :: outer =>
        parseFrom (offset + 1) outer (.loop (ofReversed current) :: innermost.before) cs
    else
      parseFrom (offset + 1) enclosing current cs

/-- **The program that a text describes**, or the bracket that has no partner. -/
def parse (text : String) : Except Error Block := parseFrom 0 [] [] text.toList

end TapeLang.Block
