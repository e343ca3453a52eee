/-!
# Programs of the tape machine

A program is a block: instructions one after another, of which some are loops with a block of their
own.  The type spells a block as its first instruction and the block that follows it, so that one
recursion runs along the block and into its loops.

`symbols` is the text of a block as a list of characters; `print` writes the same text
(`toList_printOnto`) without a stack frame for each instruction.
-/

namespace TapeLang

/-- An operation of the tape machine. -/
inductive Op
  /-- `+`: one more in the selected cell. -/
  | increment
  /-- `-`: one less in the selected cell. -/
  | decrement
  /-- `<`: select the cell to the left. -/
  | left
  /-- `>`: select the cell to the right. -/
  | right
  /-- `.`: hand the selected cell to the host. -/
  | output
  /-- `,`: ask the host for a byte. -/
  | input
  /-- `~`: show the tape to the host. -/
  | dump
  deriving DecidableEq, Repr

namespace Op

def symbol : Op → Char
  | increment => '+'
  | decrement => '-'
  | left => '<'
  | right => '>'
  | output => '.'
  | input => ','
  | dump => '~'

/-- The operation of a symbol; brackets and all other characters have none. -/
def ofSymbol? (c : Char) : Option Op :=
  if c = '+' then some increment
  else if c = '-' then some decrement
  else if c = '<' then some left
  else if c = '>' then some right
  else if c = '.' then some output
  else if c = ',' then some input
  else if c = '~' then some dump
  else none

@[simp]
theorem ofSymbol?_symbol (op : Op) : ofSymbol? op.symbol = some op := by
  cases op <;> rfl

/-- No other character than its symbol reads as an operation. -/
theorem symbol_of_ofSymbol? {c : Char} {op : Op} (h : ofSymbol? c = some op) : op.symbol = c := by
  unfold ofSymbol? at h
  repeat' split at h
  all_goals first
    | (simp only [Option.some.injEq] at h; subst h; simp_all [symbol])
    | simp at h

end Op

/-- A block of instructions. -/
inductive Block
  | done
  /-- An operation, and the block behind it. -/
  | op (op : Op) (next : Block)
  /-- A loop over `body`, and the block behind it. -/
  | loop (body next : Block)
  deriving DecidableEq, Repr, Inhabited

namespace Block

/-! ### The text of a block -/

/-- The text of a block: the symbols of its operations, and loops in brackets. -/
def symbols : Block → List Char
  | done => []
  | op o next => o.symbol :: next.symbols
  | loop body next => '[' :: body.symbols ++ ']' :: next.symbols

/-- The text `out` with the block's text behind it. -/
def printOnto (out : String) : Block → String
  | done => out
  | op o next => printOnto (out.push o.symbol) next
  | loop body next => printOnto ((printOnto (out.push '[') body).push ']') next

def print (block : Block) : String := block.printOnto ""

/-- Printing writes the symbols behind what is there. -/
theorem toList_printOnto (block : Block) (out : String) :
    (block.printOnto out).toList = out.toList ++ block.symbols := by
  induction block generalizing out with
  | done => simp [printOnto, symbols]
  | op o next ih => simp [printOnto, symbols, ih]
  | loop body next ihBody ihNext => simp [printOnto, symbols, ihBody, ihNext]

theorem toList_print (block : Block) : block.print.toList = block.symbols := by
  simp [print, toList_printOnto]

/-! ### Measures -/

/-- How many instructions the block has, those in loops included; a loop counts as one. -/
def size : Block → Nat
  | done => 0
  | op _ next => next.size + 1
  | loop body next => body.size + next.size + 1

/-- How many instructions the block has outside of loops, a loop counting as one. -/
def length : Block → Nat
  | done => 0
  | op _ next => next.length + 1
  | loop _ next => next.length + 1

end Block
end TapeLang
