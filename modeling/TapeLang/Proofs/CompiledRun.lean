import TapeLang.CommandLine.Job
import TapeLang.Proofs.Expansion.Memory
import TapeLang.Proofs.Loading
import TapeLang.Proofs.MacroHistory

/-!
# Compiling a library and running the result

To load and to build a library only reads (`OnlyReads`), so what comes of it is the same whether the
library is then run or compiled.  The code is written as its UTF-8 and read back as it was, even when
the file lies in the library itself, and both ways of running parse the same code.

Main statement: `prepareIn_compiled`, on command lines in a tree of files, and on the processes that
they start.
-/

namespace TapeLang

/-! ### Work that only reads -/

/-- Work that only reads: it leaves the tree as it is. -/
def OnlyReads {α : Type} (work : StateM Tree α) : Prop := ∀ t, (work.run t).2 = t

namespace OnlyReads

variable {α β ε : Type}

theorem of_pure (a : α) : OnlyReads (pure a) := fun _ => rfl

theorem bind {work : StateM Tree α} {next : α → StateM Tree β} (hwork : OnlyReads work)
    (hnext : ∀ a, OnlyReads (next a)) : OnlyReads (work >>= next) := by
  intro t
  calc ((work >>= next).run t).2 = ((next (work.run t).1).run (work.run t).2).2 := rfl
    _ = (work.run t).2 := hnext _ _
    _ = t := hwork t

theorem bind_exceptT {work : ExceptT ε (StateM Tree) α} {next : α → ExceptT ε (StateM Tree) β}
    (hwork : OnlyReads work.run) (hnext : ∀ a, OnlyReads (next a).run) :
    OnlyReads (work >>= next).run := by
  rw [ExceptT.run_bind]
  refine hwork.bind fun answer => ?_
  cases answer with
  | ok a => exact hnext a
  | error e => exact of_pure _

theorem foldlM {step : β → α → ExceptT ε (StateM Tree) β} (hstep : ∀ b a, OnlyReads (step b a).run)
    (b : β) (l : List α) : OnlyReads (l.foldlM step b).run := by
  induction l generalizing b with
  | nil => exact of_pure _
  | cons a l ih =>
    rw [List.foldlM_cons]
    exact bind_exceptT (hstep b a) ih

theorem access_read (path : Path) : OnlyReads (Tree.access.read path) := fun _ => rfl

theorem access_regularFiles (path : Path) : OnlyReads (Tree.access.regularFiles path) :=
  fun _ => rfl

theorem ofFiles {answer : StateM Tree (Except Fault α)} (path : Path) (h : OnlyReads answer) :
    OnlyReads (Library.ofFiles path answer).run :=
  h.bind fun _ => of_pure _

theorem readText (path : Path) : OnlyReads (Library.readText Tree.access path).run := by
  refine bind_exceptT (ofFiles path (access_read path)) fun content => ?_
  split
  case h_1 text => exact of_pure _
  case h_2 => exact of_pure _

theorem addFile (dir : Path) (draft : Library.Draft) (name : Name) :
    OnlyReads (Library.addFile Tree.access dir draft name).run := by
  unfold Library.addFile
  split
  case h_1 => exact of_pure _
  case h_2 source =>
    exact bind_exceptT (readText (dir.join name)) fun _ => of_pure _

/-- Loading a library only reads. -/
theorem load (dir : Path) : OnlyReads (Library.load Tree.access dir).run := by
  refine bind_exceptT (ofFiles dir (access_regularFiles dir)) fun names => ?_
  refine bind_exceptT (foldlM (addFile dir) {} (Library.sorted names)) fun draft => ?_
  refine bind_exceptT (of_pure _) fun constants => ?_
  exact of_pure _

end OnlyReads

namespace CommandLine

/-! ### What attempts come to -/

namespace Attempt

variable {α β : Type} {work : Attempt (StateM Tree) α} {next : α → Attempt (StateM Tree) β}
  {t t' : Tree}

/-- What work comes to in a tree, and the tree it leaves. -/
def runIn (work : Attempt (StateM Tree) α) (t : Tree) : Option (Except Failure α) × Tree :=
  work.run.run.run t

theorem runIn_bind (work : Attempt (StateM Tree) α) (next : α → Attempt (StateM Tree) β) (t : Tree) :
    (work >>= next).runIn t =
      match work.runIn t with
      | (none, t') => (none, t')
      | (some (.error failure), t') => (some (.error failure), t')
      | (some (.ok a), t') => (next a).runIn t' := by
  rw [runIn, ExceptT.run_bind, OptionT.run_bind, Option.elimM, StateT.run_bind]
  rw [runIn]
  rcases StateT.run work.run.run t with ⟨_ | _ | _, t'⟩ <;> rfl

/-- Work on a library fails with the error of the library. -/
theorem runIn_ofLibrary (work : ExceptT Error (StateM Tree) α) (t : Tree) :
    (ofLibrary work).runIn t =
      (some ((work.run.run t).1.mapError .library), (work.run.run t).2) := rfl

end Attempt

open Attempt

variable {t t' : Tree} {depth : Nat} {path dir output : Path} {code : String} {failure : Failure}

theorem runIn_isDirectory (t : Tree) (path : Path) :
    runIn (ExceptT.lift (OptionT.lift (Tree.access.isDirectory path))) t =
      (some (.ok (t.isDirectory path)), t) := rfl

/-- Building a library only reads. -/
theorem buildLibrary_tree (t : Tree) (depth : Nat) (dir : Path) :
    ((buildLibrary Tree.access depth dir).runIn t).2 = t := by
  have hload : ((ofLibrary (Library.load Tree.access dir)).runIn t).2 = t := OnlyReads.load dir t
  rw [buildLibrary, runIn_bind]
  rcases hanswer : (ofLibrary (Library.load Tree.access dir)).runIn t with ⟨_ | _ | env, t'⟩
  all_goals
    rw [hanswer] at hload
    exact hload

/-! ### Code to run -/

theorem codeToRun_of_isDirectory (h : t.isDirectory path = true) :
    (codeToRun Tree.access depth path).runIn t = (buildLibrary Tree.access depth path).runIn t := by
  rw [codeToRun, runIn_bind, runIn_isDirectory, h]
  rfl

theorem readText_runIn (hread : t.read path = .ok code.toUTF8) :
    (ofLibrary (Library.readText Tree.access path)).runIn t = (some (.ok code), t) := by
  rw [runIn_ofLibrary, Library.readText_run hread, Text.Utf8.decode?_toUTF8]
  rfl

/-- The code of a program file is its text. -/
theorem codeToRun_of_read (hfile : t.isDirectory path = false)
    (hextension : path.extension? = some (Name.ofString "bf"))
    (hread : t.read path = .ok code.toUTF8) :
    (codeToRun Tree.access depth path).runIn t = (some (.ok code), t) := by
  have hknown : programExtensions.any fun known => path.extension? = some known := by
    simp [programExtensions, hextension]
  rw [codeToRun, runIn_bind, runIn_isDirectory, hfile]
  simp only [Bool.false_eq_true, if_false, hknown, if_true]
  exact readText_runIn hread

/-! ### Command lines -/

/-- What a command line comes to up to the run of a program, and the tree that it leaves. -/
def prepareIn (t : Tree) (depth : Nat) (line : List String) : Option Job × Tree :=
  (prepare Tree.access depth line).run t

/-- A process: what it reports, given its standard input, if its run ends in so many steps, and
the tree that it leaves. -/
def processIn (t : Tree) (depth steps : Nat) (line : List String) (stdin : List UInt8) :
    Option Report × Tree :=
  ((prepareIn t depth line).1.bind (Job.complete steps stdin), (prepareIn t depth line).2)

/-- The job of some code: to run it, or to say why it is none. -/
def jobOf (settings : Settings) (code : String) : Job :=
  match Block.parse code with
  | .ok program => .execute settings program
  | .error error => .finished (.failure (.library error))

variable {line : List String} {arguments : Arguments} {directory file : String}

/-- The answer of a command is what its work comes to, and a failure is reported. -/
theorem prepareIn_eq (hline : parse line = .ok arguments) :
    prepareIn t depth line =
      match (perform Tree.access depth arguments).runIn t with
      | (none, t') => (none, t')
      | (some (.error failure), t') => (some (.finished (.failure failure)), t')
      | (some (.ok job), t') => (some job, t') := by
  rw [prepareIn, prepare, hline]
  simp only [StateT.run_bind]
  rw [runIn]
  rcases StateT.run (perform Tree.access depth arguments).run.run t with ⟨_ | _ | _, t'⟩ <;> rfl

theorem prepareIn_run (hline : parse line = .ok arguments) (hcommand : arguments.command = .run file)
    (hcode : (codeToRun Tree.access depth (.ofString file)).runIn t = (some (.ok code), t')) :
    prepareIn t depth line = (some (jobOf arguments.settings code), t') := by
  rw [prepareIn_eq hline, perform, hcommand]
  simp only [runIn_bind, hcode]
  rw [jobOf]
  cases Block.parse code with
  | ok program => rfl
  | error e => rfl

theorem prepareIn_run_failure (hline : parse line = .ok arguments)
    (hcommand : arguments.command = .run file)
    (hcode : (codeToRun Tree.access depth (.ofString file)).runIn t =
      (some (.error failure), t')) :
    prepareIn t depth line = (some (.finished (.failure failure)), t') := by
  rw [prepareIn_eq hline, perform, hcommand]
  simp only [runIn_bind, hcode]

theorem compileTo_runIn_error (hdir : t.isDirectory dir = true)
    (hbuild : (buildLibrary Tree.access depth dir).runIn t = (some (.error failure), t')) :
    (compileTo Tree.access depth dir output).runIn t = (some (.error failure), t') := by
  rw [compileTo, runIn_bind, runIn_isDirectory, hdir]
  simp only [if_true, runIn_bind, hbuild]

theorem access_write_run (t : Tree) (path : Path) (content : ByteArray) :
    (Tree.access.write path content).run t =
      match t.write path content with
      | .ok t' => (.ok (), t')
      | .error fault => (.error fault, t) := by
  cases hwrite : t.write path content
  all_goals
    simp only [Tree.access, StateT.run_bind, StateT.run_get, pure_bind, hwrite]
    rfl

theorem runIn_write (t : Tree) (path : Path) (content : ByteArray) :
    (ofLibrary (Library.ofFiles path (Tree.access.write path content))).runIn t =
      match t.write path content with
      | .ok t' => (some (.ok ()), t')
      | .error fault => (some (.error (.library (.file path fault))), t) := by
  rw [runIn_ofLibrary, Library.ofFiles]
  simp only [ExceptT.run_mk, StateT.run_bind, access_write_run]
  cases t.write path content <;> rfl

/-- **A compilation that succeeds** has built its library, and its code is what it has written; any
other leaves the tree as it is. -/
theorem compileTo_cases {answer : Option (Except Failure Unit)}
    (h : (compileTo Tree.access depth dir output).runIn t = (answer, t')) :
    (answer ≠ some (.ok ()) ∧ t' = t) ∨
      answer = some (.ok ()) ∧ ∃ code, t.isDirectory dir = true ∧
        (buildLibrary Tree.access depth dir).runIn t = (some (.ok code), t) ∧
        t.write output code.toUTF8 = .ok t' := by
  rw [compileTo, runIn_bind, runIn_isDirectory] at h
  cases hdir : t.isDirectory dir with
  | false =>
    rw [hdir] at h
    cases h
    exact .inl ⟨by simp, rfl⟩
  | true =>
    rw [hdir] at h
    simp only [if_true, runIn_bind] at h
    have htree := buildLibrary_tree t depth dir
    -- The library is built before the file is written, and building it changes nothing; so only the
    -- last of the three cases can leave another tree.
    rcases hbuild : (buildLibrary Tree.access depth dir).runIn t with ⟨_ | failure | code, t₁⟩
    all_goals
      rw [hbuild] at h htree
      obtain rfl : t₁ = t := htree
    · cases h
      exact .inl ⟨by simp, rfl⟩
    · cases h
      exact .inl ⟨by simp, rfl⟩
    · simp only [runIn_write] at h
      cases hwrite : t₁.write output code.toUTF8 with
      | ok t₂ =>
        rw [hwrite] at h
        cases h
        exact .inr ⟨rfl, code, rfl, rfl, hwrite⟩
      | error fault =>
        rw [hwrite] at h
        cases h
        exact .inl ⟨by simp, rfl⟩

theorem compileTo_runIn_ok (hdir : t.isDirectory dir = true)
    (hbuild : (buildLibrary Tree.access depth dir).runIn t = (some (.ok code), t))
    (hwrite : t.write output code.toUTF8 = .ok t') :
    (compileTo Tree.access depth dir output).runIn t = (some (.ok ()), t') := by
  rw [compileTo, runIn_bind, runIn_isDirectory, hdir]
  simp only [if_true, runIn_bind, hbuild, runIn_write, hwrite]

/-- **A library that can be built is compiled** to any file that can be written. -/
theorem prepareIn_compile (hline : parse line = .ok arguments)
    (hcommand : arguments.command = .compile directory) (houtput : arguments.output = some file)
    (hdir : t.isDirectory (.ofString directory) = true)
    (hbuild : (buildLibrary Tree.access depth (.ofString directory)).runIn t = (some (.ok code), t))
    (hwrite : t.write (.ofString file) code.toUTF8 = .ok t') :
    prepareIn t depth line = (some (.finished .success), t') := by
  rw [prepareIn_eq hline, perform, hcommand, houtput]
  simp only [runIn_bind, Option.map_some, Option.getD_some,
    compileTo_runIn_ok hdir hbuild hwrite]
  rfl

/-- A compilation of a library that cannot be built says why, and writes nothing. -/
theorem prepareIn_compile_failure (hline : parse line = .ok arguments)
    (hcommand : arguments.command = .compile directory)
    (hdir : t.isDirectory (.ofString directory) = true)
    (hbuild : (buildLibrary Tree.access depth (.ofString directory)).runIn t =
      (some (.error failure), t')) :
    prepareIn t depth line = (some (.finished (.failure failure)), t') := by
  rw [prepareIn_eq hline, perform, hcommand]
  simp only [runIn_bind, compileTo_runIn_error hdir hbuild]

/-- The file to write is the one that is named, or else stands beside the directory. -/
def outputOf (arguments : Arguments) (directory : String) : Path :=
  (arguments.output.map Path.ofString).getD (defaultOutput (.ofString directory))

/-- A command to compile fails and leaves the tree as it is, or has written the code. -/
theorem prepareIn_compile_cases {job : Option Job} (hline : parse line = .ok arguments)
    (hcommand : arguments.command = .compile directory) (h : prepareIn t depth line = (job, t')) :
    ((job = none ∨ ∃ failure, job = some (.finished (.failure failure))) ∧ t' = t) ∨
      job = some (.finished .success) ∧ ∃ code, t.isDirectory (.ofString directory) = true ∧
        (buildLibrary Tree.access depth (.ofString directory)).runIn t = (some (.ok code), t) ∧
        t.write (outputOf arguments directory) code.toUTF8 = .ok t' := by
  rw [prepareIn_eq hline, perform, hcommand] at h
  simp only [runIn_bind] at h
  rcases hanswer : (compileTo Tree.access depth (.ofString directory)
    (outputOf arguments directory)).runIn t with ⟨answer, t₁⟩
  rw [outputOf] at hanswer
  rw [hanswer] at h
  obtain ⟨hfailed, rfl⟩ | ⟨rfl, hwritten⟩ := compileTo_cases hanswer
  · obtain _ | failure | ⟨⟩ := answer
    · cases h
      exact .inl ⟨.inl rfl, rfl⟩
    · cases h
      exact .inl ⟨.inr ⟨failure, rfl⟩, rfl⟩
    · exact absurd rfl hfailed
  · cases h
    exact .inr ⟨rfl, hwritten⟩

theorem of_prepareIn_compile {report : Report} (hline : parse line = .ok arguments)
    (hcommand : arguments.command = .compile directory) (houtput : arguments.output = some file)
    (h : prepareIn t depth line = (some (.finished report), t')) (hexit : report.exit = 0) :
    ∃ code, t.isDirectory (.ofString directory) = true ∧
      (buildLibrary Tree.access depth (.ofString directory)).runIn t = (some (.ok code), t) ∧
      t.write (.ofString file) code.toUTF8 = .ok t' := by
  have hfile : outputOf arguments directory = .ofString file := by
    rw [outputOf, houtput]
    rfl
  -- A report with exit code zero is none of a failure.
  obtain ⟨hnone | ⟨failure, hfailure⟩, -⟩ | ⟨-, hwritten⟩ := prepareIn_compile_cases hline hcommand h
  · cases hnone
  · cases hfailure
    cases hexit
  · rw [← hfile]
    exact hwritten

/-- **Running a library is compiling it and running the result.**  A library that can be built is
compiled to any file that can be written.  If a compilation to a file with the extension of programs
exits with zero, then what is left to do for the library, in the tree as it was, is what is left to do
for the file, in the tree as it is then: to run the same program with the same settings, or to report
the same bracket.  So both processes give the same report, with the same exit code and the same
output on both streams, for every input and after as many steps, or neither ever gives one.  If the
library cannot be loaded or built, then to compile it and to run it end in the same report, and no
file is written. -/
theorem prepareIn_compiled {compileLine runLine resultLine : List String}
    {compileArgs runArgs resultArgs : Arguments} (hcompileLine : parse compileLine = .ok compileArgs)
    (hcompile : compileArgs.command = .compile directory) (houtput : compileArgs.output = some file)
    (hrunLine : parse runLine = .ok runArgs) (hrun : runArgs.command = .run directory)
    (hresultLine : parse resultLine = .ok resultArgs) (hresult : resultArgs.command = .run file)
    (hsettings : resultArgs.settings = runArgs.settings)
    (hextension : (Path.ofString file).extension? = some (Name.ofString "bf")) :
    (∀ code t', t.isDirectory (.ofString directory) = true →
      (buildLibrary Tree.access depth (.ofString directory)).runIn t = (some (.ok code), t) →
      t.write (.ofString file) code.toUTF8 = .ok t' →
      prepareIn t depth compileLine = (some (.finished .success), t')) ∧
    (∀ report t', prepareIn t depth compileLine = (some (.finished report), t') → report.exit = 0 →
      (∃ code, prepareIn t depth runLine = (some (jobOf runArgs.settings code), t) ∧
        prepareIn t' depth resultLine = (some (jobOf runArgs.settings code), t')) ∧
      ∀ steps stdin, (processIn t depth steps runLine stdin).1 =
        (processIn t' depth steps resultLine stdin).1) ∧
    (∀ failure t', t.isDirectory (.ofString directory) = true →
      (buildLibrary Tree.access depth (.ofString directory)).runIn t = (some (.error failure), t') →
      ∃ report, report.exit = 1 ∧ prepareIn t depth compileLine = (some (.finished report), t) ∧
        prepareIn t depth runLine = (some (.finished report), t) ∧
        ∀ steps stdin, processIn t depth steps compileLine stdin = (some report, t) ∧
          processIn t depth steps runLine stdin = (some report, t)) := by
  refine ⟨?_, ?_, ?_⟩
  · intro code t' hdir hbuild hwrite
    exact prepareIn_compile hcompileLine hcompile houtput hdir hbuild hwrite
  · intro report t' hcompiled hexit
    obtain ⟨code, hdir, hbuild, hwrite⟩ :=
      of_prepareIn_compile hcompileLine hcompile houtput hcompiled hexit
    -- The file holds the code, also if the compilation has put it into the library.
    obtain ⟨hread, hfile⟩ := Tree.read_of_write hwrite
    have hlibrary : prepareIn t depth runLine = (some (jobOf runArgs.settings code), t) :=
      prepareIn_run hrunLine hrun ((codeToRun_of_isDirectory hdir).trans hbuild)
    have hresult : prepareIn t' depth resultLine = (some (jobOf runArgs.settings code), t') := by
      rw [← hsettings]
      exact prepareIn_run hresultLine hresult (codeToRun_of_read hfile hextension hread)
    refine ⟨⟨code, hlibrary, hresult⟩, fun steps stdin => ?_⟩
    -- What a job reports depends on its input alone, and not on the tree.
    rw [processIn, processIn, hlibrary, hresult]
  · -- To build the library has left the tree as it was, so both commands start with the same
    -- failure.
    intro failure t' hdir hbuild
    obtain rfl : t' = t := by rw [← buildLibrary_tree t depth (.ofString directory), hbuild]
    have hcompiled : prepareIn t' depth compileLine =
        (some (.finished (.failure failure)), t') :=
      prepareIn_compile_failure hcompileLine hcompile hdir hbuild
    have hlibrary : prepareIn t' depth runLine = (some (.finished (.failure failure)), t') :=
      prepareIn_run_failure hrunLine hrun ((codeToRun_of_isDirectory hdir).trans hbuild)
    refine ⟨.failure failure, rfl, hcompiled, hlibrary, fun steps stdin => ⟨?_, ?_⟩⟩
    · rw [processIn, hcompiled]
      rfl
    · rw [processIn, hlibrary]
      rfl

/-! ### Libraries of one text -/

/-- A tree with one library, of one text. -/
def oneText (text : String) : Tree :=
  ({} : Tree).addFile (.ofString "d/program.bfm") text.toUTF8

/-- A library of one text is built as the text is expanded. -/
theorem buildLibrary_of_one (name : Name) (text : String) {answer : Except Error String}
    (hnames : t.regularFiles dir = .ok [name])
    (hsource : Library.source? name = some (.text entryName))
    (hread : t.read (dir.join name) = .ok text.toUTF8)
    (hexpand : (Environment.expand ⟨.ofList [⟨entryName, text⟩], {}⟩ depth entryName []).run =
      some answer) :
    (buildLibrary Tree.access depth dir).runIn t =
      (some ((answer.map Peephole.reduce).mapError .library), t) := by
  have hlisted : (Library.ofFiles dir (Tree.access.regularFiles dir)).run.run t =
      (.ok [name], t) := by
    change ((t.regularFiles dir).mapError _, t) = _
    rw [hnames]
    rfl
  have htext : (Library.readText Tree.access (dir.join name)).run.run t = (.ok text, t) := by
    rw [Library.readText_run hread, Text.Utf8.decode?_toUTF8]
  -- The only file holds the entry text, and there are no constants.
  have hdraft : ((Library.sorted [name]).foldlM (Library.addFile Tree.access dir) {}).run.run t =
      (.ok { macros := .ofList [⟨entryName, text⟩] }, t) := by
    rw [Library.sorted, List.mergeSort_singleton, List.foldlM_cons, Library.addFile, hsource]
    exact run_bind_of_ok (run_bind_of_ok htext)
  have hload : (Library.load Tree.access dir).run.run t =
      (.ok { macros := .ofList [⟨entryName, text⟩] }, t) := by
    rw [Library.load, run_bind_of_ok hlisted, run_bind_of_ok hdraft]
    rfl
  rw [buildLibrary, runIn_bind, runIn_ofLibrary, hload]
  simp only [Except.mapError, Environment.build, Environment.compile_eq_of_expand hexpand]
  rfl

/-- A program that never ends, compiled into its library, and a library that cannot be built. -/
theorem prepareIn_compiled_endless :
    let settings : Settings := { cells := .below 10 (by decide) (by decide) }
    let t' := (oneText "+[.]").addFile (.ofString "d/x.bf") "+[.]".toUTF8
    ((∃ code,
      prepareIn (oneText "+[.]") 9 ["--cell-size=10", "run", "d"] =
        (some (jobOf settings code), oneText "+[.]") ∧
      prepareIn t' 9 ["run", "d/x.bf", "--cell-size=10"] = (some (jobOf settings code), t')) ∧
      ∀ steps stdin,
        (processIn (oneText "+[.]") 9 steps ["--cell-size=10", "run", "d"] stdin).1 =
          (processIn t' 9 steps ["run", "d/x.bf", "--cell-size=10"] stdin).1) ∧
    ∃ report, report.exit = 1 ∧
      prepareIn (oneText "/n/") 9 ["compile", "d", "-o", "d/x.bf"] =
        (some (.finished report), oneText "/n/") ∧
      prepareIn (oneText "/n/") 9 ["--cell-size=10", "run", "d"] =
        (some (.finished report), oneText "/n/") ∧
      ∀ steps stdin,
        processIn (oneText "/n/") 9 steps ["compile", "d", "-o", "d/x.bf"] stdin =
          (some report, oneText "/n/") ∧
        processIn (oneText "/n/") 9 steps ["--cell-size=10", "run", "d"] stdin =
          (some report, oneText "/n/") := by
  intro settings t'
  have hcompileLine : parse ["compile", "d", "-o", "d/x.bf"] =
      .ok { command := .compile "d", settings := {}, output := some "d/x.bf", verbosity := 0 } := rfl
  have hrunLine : parse ["--cell-size=10", "run", "d"] =
      .ok { command := .run "d", settings, output := none, verbosity := 0 } := rfl
  have hresultLine : parse ["run", "d/x.bf", "--cell-size=10"] =
      .ok { command := .run "d/x.bf", settings, output := none, verbosity := 0 } := rfl
  have hextension : (Path.ofString "d/x.bf").extension? = some (Name.ofString "bf") := by
    decide +kernel
  have hlooping : (Environment.expand ⟨.ofList [⟨entryName, "+[.]"⟩], {}⟩ 9 entryName []).run =
      some (.ok "+[.]") := by
    simp only [Environment.expand_succ, Environment.expand_zero, Environment.body,
      MacroSet.get?_ofList]
    decide +kernel
  have hunbound : (Environment.expand ⟨.ofList [⟨entryName, "/n/"⟩], {}⟩ 9 entryName []).run =
      some (.error (.unboundVariable "program" "n")) := by
    simp only [Environment.expand_succ, Environment.expand_zero, Environment.body,
      MacroSet.get?_ofList]
    decide +kernel
  have hbuilt : (buildLibrary Tree.access 9 (.ofString "d")).runIn (oneText "+[.]") =
      (some (.ok "+[.]"), oneText "+[.]") :=
    buildLibrary_of_one (.ofString "program.bfm") "+[.]" (by decide +kernel) (by decide +kernel)
      (by decide +kernel) hlooping
  have hwritten : (oneText "+[.]").write (.ofString "d/x.bf") "+[.]".toUTF8 = .ok t' := by
    refine Tree.write_eq_ok_iff.mpr ⟨[.ofString "x.bf", .ofString "d"], by decide +kernel, ?_⟩
    ext1 <;> decide +kernel
  have hcompiled : prepareIn (oneText "+[.]") 9 ["compile", "d", "-o", "d/x.bf"] =
      (some (.finished .success), t') :=
    prepareIn_compile hcompileLine rfl rfl (by decide +kernel) hbuilt hwritten
  have hfailed : (buildLibrary Tree.access 9 (.ofString "d")).runIn (oneText "/n/") =
      (some (.error (.library (.unboundVariable "program" "n"))), oneText "/n/") :=
    buildLibrary_of_one (.ofString "program.bfm") "/n/" (by decide +kernel) (by decide +kernel)
      (by decide +kernel) hunbound
  constructor
  · exact (prepareIn_compiled hcompileLine rfl rfl hrunLine rfl hresultLine rfl rfl hextension).2.1
      .success t' hcompiled rfl
  · exact (prepareIn_compiled hcompileLine rfl rfl hrunLine rfl hresultLine rfl rfl hextension).2.2
      _ _ (by decide +kernel) hfailed

end CommandLine
end TapeLang
