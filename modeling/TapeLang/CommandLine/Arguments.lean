import TapeLang.Decimal
import TapeLang.Settings

/-!
# Command-line arguments

Arguments are options and two positionals, a mode and a path, in any order.  Short options may share
one dash; `-o` takes what is left of its cluster as its file, or else the next argument, whatever
that is.  All arguments behind `--` are positionals, and so is a lone dash.  Of an option given
twice the later one counts, and help asked for anywhere wins over the command.

Arguments are taken one after another (`Draft.accept`), so that the first faulty one is reported.
What is missing is noticed at the end (`Draft.finish`).
-/

namespace TapeLang.CommandLine

/-- Why the arguments are refused. -/
inductive UsageError
  | missingFile
  /-- No short option has this letter. -/
  | unknownOption (letter : Char)
  /-- No long option has this name. -/
  | unexpected (argument : String)
  /-- A long option has no `=`. -/
  | missingValue (option : String)
  /-- A long option has nothing behind its `=`. -/
  | emptyValue (option : String)
  /-- A long option has a value that is no number. -/
  | notNumber (option value : String)
  /-- A number that the settings refuse. -/
  | invalid (setting : Settings.Invalid)
  | missingMode
  | missingPath (mode : String)
  /-- There are more than two positionals. -/
  | tooMany
  | unknownMode (mode : String)
  /-- An output file is given to a mode that writes none. -/
  | outputNotAllowed (mode : String)
  deriving DecidableEq, Repr

def UsageError.message : UsageError → String
  | missingFile => "-o requires a file argument"
  | unknownOption letter => ("unknown option: -").push letter
  | unexpected argument => "unexpected argument " ++ argument
  | missingValue option => "expected '=' after '--" ++ option ++ "'"
  | emptyValue option => "expected something after '--" ++ option ++ "='"
  | notNumber option value => "invalid number for --" ++ option ++ ": " ++ value
  | invalid setting => setting.message
  | missingMode => "expected more arguments"
  | missingPath mode => "not enough arguments; `" ++ mode ++ "` expects a path"
  | tooMany => "too many arguments"
  | unknownMode mode => "invalid mode " ++ mode
  | outputNotAllowed mode => "-o is only valid with `compile`, not `" ++ mode ++ "`"

inductive Command
  | help
  | run (path : String)
  | compile (dir : String)
  deriving DecidableEq, Repr

/-- What the arguments say. -/
structure Arguments where
  command : Command
  settings : Settings
  output : Option String
  verbosity : Nat
  deriving DecidableEq, Repr

inductive Expecting
  | anything
  | file
  /-- A positional, whatever it looks like. -/
  | positional
  deriving DecidableEq, Repr

/-- The arguments taken so far. -/
structure Draft where
  settings : Settings := {}
  output : Option String := none
  verbosity : Nat := 0
  help : Bool := false
  positionals : List String := []
  /-- What the next argument is read as. -/
  expecting : Expecting := .anything
  deriving DecidableEq, Repr

def maxVerbosity : Nat := 255

/-- A number of 64 bits with its sign. -/
def number? (value : List Char) : Option Int :=
  (Decimal.toInt? value).filter fun n =>
    Int64.minValue.toInt ≤ n ∧ n ≤ Int64.maxValue.toInt

def numberOf (option : String) : Option (List Char) → Except UsageError Int
  | none => .error (.missingValue option)
  | some [] => .error (.emptyValue option)
  | some value =>
    match number? value with
    | some n => .ok n
    | none => .error (.notNumber option (String.ofList value))

/-- The name of a long option, and its value if there is a `=`. -/
def nameAndValue (long : List Char) : List Char × Option (List Char) :=
  match long.dropWhile (· != '=') with
  | [] => (long, none)
  | _ :: value => (long.takeWhile (· != '='), some value)

namespace Draft

/-- A long option; `argument` is the option with its two dashes. -/
def acceptLong (draft : Draft) (argument : String) (long : List Char) :
    Except UsageError Draft := do
  let (nameChars, value) := nameAndValue long
  let name := String.ofList nameChars
  if name = "help" then
    return { draft with help := true }
  else if name = "cell-size" then
    let cells ← (Settings.cellRange (← numberOf name value)).mapError .invalid
    return { draft with settings := { draft.settings with cells } }
  else if name = "yield-ms" then
    let yieldMillis ← (Settings.yieldInterval (← numberOf name value)).mapError .invalid
    return { draft with settings := { draft.settings with yieldMillis } }
  else
    throw (.unexpected argument)

/-- The letters of a cluster of short options. -/
def acceptCluster (draft : Draft) : List Char → Except UsageError Draft
  | [] => .ok draft
  | letter :: rest =>
    if letter = 'h' then acceptCluster { draft with help := true } rest
    else if letter = 'v' then
      acceptCluster { draft with verbosity := min maxVerbosity (draft.verbosity + 1) } rest
    else if letter = 'o' then
      -- The file is the rest of the cluster, or else the next argument, whatever that looks like.
      if rest = [] then .ok { draft with expecting := .file }
      else .ok { draft with output := some (String.ofList rest) }
    else .error (.unknownOption letter)

def acceptPositional (draft : Draft) (argument : String) : Draft :=
  { draft with positionals := argument :: draft.positionals }

/-- One more argument. -/
def accept (draft : Draft) (argument : String) : Except UsageError Draft :=
  match draft.expecting with
  | .file => .ok { draft with output := some argument, expecting := .anything }
  | .positional => .ok (draft.acceptPositional argument)
  | .anything =>
    match argument.toList with
    | ['-', '-'] => .ok { draft with expecting := .positional }
    | '-' :: '-' :: long => draft.acceptLong argument long
    | '-' :: c :: rest => draft.acceptCluster (c :: rest)
    | _ => .ok (draft.acceptPositional argument)

def commandOf (mode path : String) : Except UsageError Command :=
  if mode = "run" then .ok (.run path)
  else if mode = "compile" then .ok (.compile path)
  else .error (.unknownMode mode)

def command (draft : Draft) : Except UsageError Command :=
  match draft.positionals.reverse with
  | [] => .error .missingMode
  | [mode] => .error (.missingPath mode)
  | [mode, path] => do
    let command ← commandOf mode path
    if draft.output.isSome && mode != "compile" then
      throw (.outputNotAllowed mode)
    return command
  | _ => .error .tooMany

/-- What all the arguments say, once there are no more. -/
def finish (draft : Draft) : Except UsageError Arguments := do
  if draft.expecting = .file then throw .missingFile
  let command ← if draft.help then .ok .help else draft.command
  return { command, settings := draft.settings, output := draft.output,
           verbosity := draft.verbosity }

end Draft

/-- **What a list of arguments says.** -/
def parse (arguments : List String) : Except UsageError Arguments := do
  (← arguments.foldlM Draft.accept {}).finish

end TapeLang.CommandLine
