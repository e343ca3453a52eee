import TapeLang.Expansion
import TapeLang.Files.Basic
import TapeLang.Program.Parser
import TapeLang.Program.Peephole

/-!
# Libraries

A library is a directory of texts and constants.  A file `x.bfm` holds the text of the macro `x`,
and every file `*.bfc` holds lines of constants.  The files are read in the order of the bytes of
their names; the constants of all of them are one table.  Other files are ignored, and so are text
files whose name is no UTF-8.

`Environment.build` makes the code of a program from what is loaded: the expansion of the entry
text, reduced.
-/

namespace TapeLang

namespace Environment

/-- The code of the program: the entry text expanded and reduced. -/
def build (env : Environment) (depth : Nat) : Option (Except Error String) :=
  (env.compile depth entryName).map fun code => code.map Peephole.reduce

def program (env : Environment) (depth : Nat) : Option (Except Error Block) :=
  (env.build depth).map fun code => code.bind Block.parse

end Environment

namespace Library

def textExtension : Name := Name.ofString "bfm"

def constantsExtension : Name := Name.ofString "bfc"

inductive Source
  | constants
  | text (name : String)
  deriving DecidableEq, Repr

/-- What the file of a name holds, if it belongs to the library. -/
def source? (name : Name) : Option Source :=
  if name.extension? = some constantsExtension then some .constants
  else if name.extension? = some textExtension then name.stem.toString?.map .text
  else none

/-- What is read so far. -/
structure Draft where
  macros : MacroSet := {}
  constants : String := ""

/-- A text with a line feed behind it, unless it ends in one. -/
def endLine (text : String) : String :=
  if text.toList.getLast? = some '\n' then text else text.push '\n'

/-- What is read so far and one more file. -/
def Draft.add (draft : Draft) (source : Source) (content : String) : Draft :=
  match source with
  | .constants => { draft with constants := endLine (draft.constants ++ content) }
  | .text name => { draft with macros := draft.macros.define name content }

variable {m : Type → Type} [Monad m]

/-- The answer of the file system about a path. -/
def ofFiles {α : Type} (path : Path) (answer : m (Except Fault α)) : ExceptT Error m α :=
  ExceptT.mk do return (← answer).mapError fun fault => .file path fault

def readText (files : Files m) (path : Path) : ExceptT Error m String := do
  match Text.Utf8.decode? (← ofFiles path (files.read path)) with
  | some text => return text
  | none => throw (.file path .notText)

/-- What is read so far and the file of a name, if it belongs to the library. -/
def addFile (files : Files m) (dir : Path) (draft : Draft) (name : Name) :
    ExceptT Error m Draft := do
  match source? name with
  | none => return draft
  | some source => return draft.add source (← readText files (dir.join name))

def sorted (names : List Name) : List Name := names.mergeSort fun a b => decide (a ≤ b)

/-- **The library in a directory.** -/
def load (files : Files m) (dir : Path) : ExceptT Error m Environment := do
  let names ← ofFiles dir (files.regularFiles dir)
  let draft ← (sorted names).foldlM (addFile files dir) {}
  -- All constants are one text here, so the number of a bad line counts the files before, too.
  let constants ← ExceptT.mk (pure (Constants.parse draft.constants))
  return { macros := draft.macros, constants }

end Library
end TapeLang
