import TapeLang.Files.Basic

/-!
# Errors

Everything that can go wrong before a program runs, by cause; `Error.message` puts a cause into
words.  The first error ends the work at hand.  A run itself has no errors.

An error inside a named text carries the name of that text, its *site*.
-/

namespace TapeLang

inductive Bracket
  /-- `[` -/
  | opening
  /-- `]` -/
  | closing
  deriving DecidableEq, Repr

def Bracket.name : Bracket → String
  | opening => "open bracket '['"
  | closing => "close bracket ']'"

/-- What a token is, without its data. -/
inductive Token.Kind
  | code
  | times
  | call
  deriving DecidableEq, Repr

def Token.Kind.name : Token.Kind → String
  | code => "symbol"
  | times => "repeat"
  | call => "macro-call"

/-- Why there is no program. -/
inductive Error
  /-- A text is called that nobody defined. -/
  | undefinedMacro (name : String)
  /-- A hole has a name without a value. -/
  | unboundVariable (site name : String)
  /-- From this offset on, the text starts with no token; `excerpt` is how it goes on. -/
  | unreadable (site : String) (offset : Nat) (excerpt : String)
  /-- A repeat has no token before it. -/
  | nothingToRepeat (site : String)
  /-- A repeat asks for more copies than there may be. -/
  | tooManyCopies (site count : String)
  /-- A token that is not code is left at the end. -/
  | leftover (site : String) (kind : Token.Kind)
  /-- A bracket has no partner. -/
  | unmatched (bracket : Bracket) (offset : Nat)
  /-- A line of constants binds nothing; lines are counted from one. -/
  | badConstant (line : Nat) (text : String)
  /-- The file system refused. -/
  | file (path : Path) (fault : Fault)
  deriving DecidableEq, Repr

namespace Error

/-- The error inside the text `site`, in words. -/
def inside (site reason : String) : String := "in macro `" ++ site ++ "`: " ++ reason

/-- The error in words. -/
def message : Error → String
  | undefinedMacro name => "macro `" ++ name ++ "` expected but not found"
  | unboundVariable site name => inside site ("no variable named `" ++ name ++ "` found")
  | unreadable site offset excerpt =>
    inside site ("invalid syntax at offset " ++ offset.repr ++ " -> " ++ excerpt)
  | nothingToRepeat site => inside site "can't repeat nothing"
  | tooManyCopies site count => inside site ("repeat count " ++ count ++ " is too large")
  | leftover site kind => inside site ("unmatched " ++ kind.name ++ " token")
  | unmatched bracket offset => "unmatched " ++ bracket.name ++ " at offset " ++ offset.repr
  | badConstant line text => "illegal syntax in constants, line " ++ line.repr ++ ": " ++ text
  | file path fault => path.display ++ ": " ++ fault.message

end Error
end TapeLang
