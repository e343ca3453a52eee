import TapeLang.Error

/-!
# Tokens

What a text of the language is cut into.  A token is code of the tape machine, an order to repeat
the token before it, or a call of a named text.

Three passes turn tokens into code.  `expandRepeats` replaces a repeat and the token before it by
copies of that token; it goes from left to right over the tokens already written, so that in
`+{2}{3}` the second repeat copies the second `+`.  `expandCalls` replaces calls by what an
expansion answers, in order.  `assemble` joins code to one string.

A repeat copies calls too.  After the first pass no repeat is left, and after the second no call.
-/

namespace TapeLang

/-- A token of a text whose holes are filled. -/
inductive Token
  | code (symbols : String)
  | times (count : Nat)
  | call (name : String) (args : List String)
  deriving DecidableEq, Repr

namespace Token

def kind : Token → Kind
  | code _ => .code
  | times _ => .times
  | call _ _ => .call

/-- No repeat makes more copies than this, ten to the sixteenth: room for them cannot be reserved.
The number is an upper bound.  With a machine word for a token they take more than `2 ^ 56` bytes,
which is more than a process can address.  Up to the bound memory is taken to suffice; how much of
it a machine really has is left out, and so is a repeat that fails for that reason alone. -/
def maxCopies : Nat := 10000000000000000

example : 2 ^ 56 < 8 * maxCopies := by decide

/-- The tokens written so far, last one first, after one more token. -/
def pushRepeating (site : String) : List Token → Token → Except Error (List Token)
  | [], times _ => .error (.nothingToRepeat site)
  | last :: written, times count =>
    if count ≤ maxCopies then .ok (List.replicate count last ++ written)
    else .error (.tooManyCopies site count.repr)
  | written, token => .ok (token :: written)

/-- Repeats replaced by copies of the token before each. -/
def expandRepeats (site : String) (tokens : List Token) : Except Error (List Token) :=
  (tokens.foldlM (pushRepeating site) []).map List.reverse

/-- Calls replaced by code, from left to right, by whatever `expand` answers. -/
def expandCalls {m : Type → Type} [Monad m] (expand : String → List String → m String)
    (tokens : List Token) : m (List Token) :=
  tokens.mapM fun
    | call name args => do return code (← expand name args)
    | token => pure token

/-- The code of the tokens, joined; a token that is not code is an error. -/
def assemble (site : String) (tokens : List Token) : Except Error String :=
  tokens.foldlM
    (fun written token =>
      match token with
      | code symbols => .ok (written ++ symbols)
      | other => .error (.leftover site other.kind))
    ""

end Token
end TapeLang
