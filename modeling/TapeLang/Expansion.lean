import TapeLang.MacroSet
import TapeLang.Template
import TapeLang.Token.Basic
import TapeLang.Token.Lexer

/-!
# Expanding calls

To expand a call is to look up its text, fill the holes, read the tokens, copy what is repeated,
expand the calls inside, and join the code.  Texts may call each other without end, so an expansion
is bounded by a *depth*: the number of calls that may be open at a time.  An answer of `none` means
that the depth did not suffice, and says nothing else; a greater depth keeps every other answer.

`Environment.expand` is the plain recursion.  `Environment.expandOnce` also remembers: an expansion
depends on the name and the arguments only, so that a finished one is looked up the next time.
Failures are not remembered.
-/

namespace TapeLang

structure Environment where
  /-- The texts by name. -/
  macros : MacroSet := {}
  /-- The values that every text sees. -/
  constants : Constants := {}

def entryName : String := "program"

namespace Environment

/-- The tokens of one call, repeats copied and calls still there. -/
def body (env : Environment) (name : String) (args : List String) :
    Except Error (List Token) := do
  let some m := env.macros.get? name | throw (.undefinedMacro name)
  let text ← Template.fill ⟨args, env.constants⟩ name m.content
  let tokens ← Token.lex name text
  Token.expandRepeats name tokens

/-- **The code of a call**, with at most `depth` calls open at a time. -/
def expand (env : Environment) : Nat → String → List String → ExceptT Error Option String
  | 0, _, _ => ExceptT.mk none
  | depth + 1, name, args => do
    let tokens ← liftExcept (env.body name args)
    let code ← Token.expandCalls (env.expand depth) tokens
    liftExcept (Token.assemble name code)
where
  /-- The same answer, whatever the depth. -/
  liftExcept {α : Type} (answer : Except Error α) : ExceptT Error Option α :=
    ExceptT.mk (some answer)

/-! ### Remembering -/

/-- Finished expansions, by name and arguments. -/
abbrev Memory := Std.HashMap (String × List String) String

/-- The code of a call, remembered: like `expand`, but a call that was expanded before is looked
up. -/
def expandOnce (env : Environment) :
    Nat → String → List String → ExceptT Error (StateT Memory Option) String
  | 0, _, _ => ExceptT.mk fun _ => none
  | depth + 1, name, args => do
    if let some known := (← get)[(name, args)]? then
      return known
    let tokens ← liftExcept (env.body name args)
    let code ← Token.expandCalls (env.expandOnce depth) tokens
    let expansion ← liftExcept (Token.assemble name code)
    -- Only code comes here and is remembered; a failure ends the whole expansion.
    modify fun memory => memory.insert (name, args) expansion
    return expansion
where
  /-- The same answer, with the memory as it is. -/
  liftExcept {α : Type} (answer : Except Error α) : ExceptT Error (StateT Memory Option) α :=
    ExceptT.mk (pure answer)

/-- The answer to a call and the memory after it; `none` if the depth did not suffice. -/
def call (env : Environment) (depth : Nat) (name : String) (args : List String)
    (memory : Memory) : Option (Except Error String × Memory) :=
  (env.expandOnce depth name args).run.run memory

/-- The code of a text called without arguments, from an empty memory. -/
def compile (env : Environment) (depth : Nat) (name : String) : Option (Except Error String) :=
  (env.call depth name [] {}).map Prod.fst

end Environment
end TapeLang
