import TapeLang.CommandLine.Job

/-!
# The program

The command line against the running system: its files, its standard streams and its exit code.
Everything that is decided is decided in `CommandLine.prepare` and `State.step`.
-/

namespace TapeLang

namespace Running

/-- More calls are never open at a time: no stack holds as many. -/
def depth : Nat := 1000000000000

/-- The system's reason in the words of this library. -/
def fault : IO.Error → Fault
  | .noFileOrDirectory .. => .notFound
  | .inappropriateType _ 21 _ => .isDirectory
  | .inappropriateType .. => .notDirectory
  | e => .other (toString e)

/-- The answer of an action, or the reason why there is none. -/
def attempt {α : Type} (action : IO α) : IO (Except Fault α) := do
  match ← action.toBaseIO with
  | .ok a => return .ok a
  | .error e => return .error (fault e)

def files : Files IO where
  isDirectory path := do
    if path.bytes = [] then return false
    ((← IO.currentDir) / path.display).isDir
  regularFiles path := attempt do
    if path.bytes = [] then throw (.noFileOrDirectory "" 2 "")
    let entries ← ((← IO.currentDir) / path.display).readDir
    let names ← entries.toList.filterMapM fun entry => do
      -- A link that leads nowhere has no data, and is no file.
      match ← entry.path.metadata.toBaseIO with
      | .ok data =>
        return if data.type == .file then some (Name.ofString entry.fileName) else none
      | .error _ => return none
    return names
  read path := attempt (IO.FS.readBinFile path.display)
  write path content := attempt (IO.FS.writeBinFile path.display content)

def writeThrough (stream : IO.FS.Stream) (bytes : List UInt8) : IO Bool := do
  match ← attempt (do stream.write bytes.toByteArray; stream.flush) with
  | .ok () => return true
  | .error _ => return false

/-- Run a state to its end.  After output has failed, `stopped` is set and the next poll or request
for input ends the run. -/
partial def execute (range : CellRange) (stdin stdout stderr : IO.FS.Stream) (stopped : Bool)
    (s : State) : IO Unit := do
  match s.step range with
  | .halt => return
  | .silent next => execute range stdin stdout stderr stopped next
  | .output value next =>
    match character? value with
    | none => execute range stdin stdout stderr stopped next
    | some c =>
      let ok ← writeThrough stdout (String.utf8EncodeChar c)
      execute range stdin stdout stderr (stopped || !ok) next
  | .dump next =>
    discard <| writeThrough stderr (Dump.render s.tape.cells s.tape.pointer).toUTF8.toList
    execute range stdin stdout stderr stopped next
  | .input next =>
    if stopped then return
    let bytes ← stdin.read 1
    execute range stdin stdout stderr stopped (next (bytes.toList.headD CommandLine.endByte))
  | .poll next =>
    if stopped then return
    execute range stdin stdout stderr stopped next

end Running
end TapeLang

open TapeLang in
def main (arguments : List String) : IO UInt32 := do
  let stdout ← IO.getStdout
  let stderr ← IO.getStderr
  match ← CommandLine.prepare Running.files Running.depth arguments with
  | none => return 1
  | some (.finished report) =>
    discard <| Running.writeThrough stdout report.out
    discard <| Running.writeThrough stderr report.err
    return report.exit.toUInt32
  | some (.execute settings program) =>
    Running.execute settings.cells (← IO.getStdin) stdout stderr false (.start program)
    return 0
