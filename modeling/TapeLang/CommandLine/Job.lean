import TapeLang.CommandLine.Arguments
import TapeLang.Host.Channel
import TapeLang.Library
import TapeLang.Machine

/-!
# What a command does

`prepare` does all of a command but the run of a program: it reads the arguments, loads and builds,
and writes the compiled file.  What is left is a *job*: a report that is finished, or a program to
be run.  The only file that is ever written is the output of a compilation that succeeded, as the
last thing that happens.

`Job.complete` runs the program of a job for a number of steps, with all of the standard input at
hand.
-/

namespace TapeLang.CommandLine

/-- Why a command fails after its arguments were accepted. -/
inductive Failure
  /-- Loading, building or writing failed. -/
  | library (error : Error)
  /-- The path to compile is no directory. -/
  | notLibrary (path : Path)
  /-- A file to run has another extension than those of program files. -/
  | unknownExtension (extension : String)
  deriving DecidableEq, Repr

def Failure.message : Failure → String
  | library error => error.message
  | notLibrary path => path.display ++ " is not a macro directory"
  | unknownExtension extension =>
    "don't know how to run file with extension '" ++ extension ++ "'"

def usage : String :=
  "usage:\n" ++
  "  bfloat [options] run <path>       run a .bf/.b file or a macro directory\n" ++
  "  bfloat [options] compile <dir>    compile a macro directory to <dir>.bf\n" ++
  "\n" ++
  "options:\n" ++
  "  -h, --help          show this help\n" ++
  "  --cell-size=<n>     wrap cells at n, or never if n=-1 (default 256)\n" ++
  "  --yield-ms=<n>      yield to the host every n ms, or never if n=-1\n" ++
  "  -o <file>           output file for `compile`\n" ++
  "  -v, -vv             debug / trace logging on stderr"

/-! ### Jobs -/

/-- How a process ends. -/
structure Report where
  exit : Nat
  /-- The bytes on the standard output. -/
  out : List UInt8 := []
  /-- The bytes on the standard error. -/
  err : List UInt8 := []
  deriving DecidableEq, Repr

/-- What is left to do once a command is prepared. -/
inductive Job
  | finished (report : Report)
  | execute (settings : Settings) (program : Block)

/-- The bytes of lines that name the program and say something. -/
def complaint (message : String) : String := "bfloat: " ++ message ++ "\n"

def Report.usageError (error : UsageError) : Report :=
  { exit := 1, err := (complaint error.message ++ usage ++ "\n").toUTF8.toList }

def Report.failure (failure : Failure) : Report :=
  { exit := 1, err := (complaint failure.message).toUTF8.toList }

def Report.help : Report :=
  { exit := 0, out := ("bfloat - command line brainfloat\n\n" ++ usage ++ "\n").toUTF8.toList }

def Report.success : Report := { exit := 0 }

/-! ### Preparation -/

def programExtensions : List Name := [Name.ofString "bf", Name.ofString "b"]

/-- The file that a library is compiled to, unless another one is named. -/
def defaultOutput (dir : Path) : Path := dir.trimmed.append ".bf"

variable {m : Type → Type} [Monad m]

/-- Work that may fail, and of which a part may need more depth than there is. -/
abbrev Attempt (m : Type → Type) := ExceptT Failure (OptionT m)

def ofLibrary {α : Type} (work : ExceptT Error m α) : Attempt m α :=
  ExceptT.mk (OptionT.lift do return (← work.run).mapError .library)

def ofBuild {α : Type} (answer : Option (Except Error α)) : Attempt m α :=
  ExceptT.mk (OptionT.mk (pure (answer.map fun result => result.mapError .library)))

def buildLibrary (files : Files m) (depth : Nat) (dir : Path) : Attempt m String := do
  let env ← ofLibrary (Library.load files dir)
  ofBuild (env.build depth)

/-- The code to run: of a library if the path is a directory, else the text of the file. -/
def codeToRun (files : Files m) (depth : Nat) (path : Path) : Attempt m String := do
  if ← ExceptT.lift (OptionT.lift (files.isDirectory path)) then
    buildLibrary files depth path
  else
    let extension := path.extension?
    if programExtensions.any fun known => extension = some known then
      ofLibrary (Library.readText files path)
    else
      throw (.unknownExtension ((extension.bind Name.toString?).getD ""))

def compileTo (files : Files m) (depth : Nat) (dir output : Path) : Attempt m Unit := do
  if ← ExceptT.lift (OptionT.lift (files.isDirectory dir)) then
    let code ← buildLibrary files depth dir
    ofLibrary (Library.ofFiles output (files.write output code.toUTF8))
  else
    throw (.notLibrary dir)

/-- A command up to the run of a program. -/
def perform (files : Files m) (depth : Nat) (arguments : Arguments) : Attempt m Job :=
  match arguments.command with
  | .help => return .finished .help
  | .run path => do
    let code ← codeToRun files depth (.ofString path)
    let program ← ofBuild (some (Block.parse code))
    return .execute arguments.settings program
  | .compile dir => do
    let output := (arguments.output.map Path.ofString).getD (defaultOutput (.ofString dir))
    compileTo files depth (.ofString dir) output
    return .finished .success

/-- **A command up to the run of a program**; `none` if the depth did not suffice. -/
def prepare (files : Files m) (depth : Nat) (arguments : List String) : m (Option Job) :=
  match parse arguments with
  | .error error => return some (.finished (.usageError error))
  | .ok arguments => do
    match ← (perform files depth arguments).run.run with
    | none => return none
    | some (.ok job) => return some job
    | some (.error failure) => return some (.finished (.failure failure))

/-! ### Runs -/

/-- What a program reads once the standard input is used up. -/
def endByte : UInt8 := 0

/-- The host of a run with its standard input at hand. -/
def hostState (stdin : List UInt8) : Channel :=
  { pending := stdin, isOpen := false, endByte := some endByte }

/-- The report of a job, if the run of its program ends in so many steps.  However the run ends,
the exit code is zero. -/
def Job.complete (steps : Nat) (stdin : List UInt8) : Job → Option Report
  | finished report => some report
  | execute settings program =>
    match Machine.run settings.cells Channel.host steps program (hostState stdin) with
    | .running _ _ => none
    | .ended _ _ host =>
      some { exit := 0, out := host.out.accepted.toList, err := host.dumpOut.accepted.toList }

end TapeLang.CommandLine
