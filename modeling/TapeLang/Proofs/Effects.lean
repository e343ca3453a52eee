import TapeLang.Proofs.CompiledRun

/-!
# What a process writes

A process takes a command line and its standard input to a report, and leaves a tree (`processIn`).
Its one effect on the tree is the last step of a compilation: to refuse arguments, to show help, to
run a program and to fail in any way all leave the tree as it is, and a compilation that ends well
has changed the file of its output and nothing else (`effect_of_processIn`).

Without a named output, the file stands beside the directory: its path is that of the directory
without the slashes and `/.` at its end (`trims_trimmed`), and `.bf`.
-/

namespace TapeLang

/-! ### Paths without their ends -/

namespace Path

/-- What stands before the slashes and `/.` at the end of a path.  The root, which is nothing but
such an end, keeps a slash. -/
def Trims (p core : Path) : Prop :=
  ∃ (front : List UInt8) (pieces : List (List UInt8)),
    p.bytes = front ++ pieces.flatten ∧ (∀ piece ∈ pieces, piece = [slash] ∨ piece = [slash, dot]) ∧
    ¬[slash] <:+ front ∧ ¬[slash, dot] <:+ front ∧
    core.bytes = if front = [] ∧ pieces ≠ [] then [slash] else front

/-- Read from the last byte on, what is dropped are slashes and `/.`, and nothing more of that
kind is left. -/
theorem dropTrailing_spec (bytes : List UInt8) :
    ∃ pieces : List (List UInt8), bytes = pieces.flatten ++ dropTrailing bytes ∧
      (∀ piece ∈ pieces, piece = [slash] ∨ piece = [dot, slash]) ∧
      ¬[slash] <+: dropTrailing bytes ∧ ¬[dot, slash] <+: dropTrailing bytes := by
  fun_induction dropTrailing bytes with
  | case1 => exact ⟨[], rfl, by simp, by simp, by simp⟩
  | case2 => exact ⟨[[slash]], rfl, by simp, by simp, by simp⟩
  | case3 b hslash => exact ⟨[], rfl, by simp, by simp [Ne.symm hslash], by simp⟩
  | case4 c rest ih =>
    obtain ⟨pieces, hbytes, hpieces, hend⟩ := ih
    refine ⟨[slash] :: pieces, ?_, List.forall_mem_cons.mpr ⟨.inl rfl, hpieces⟩, hend⟩
    rw [List.flatten_cons, List.append_assoc, ← hbytes]
    rfl
  | case5 b c rest hslash hboth ih =>
    obtain ⟨rfl, rfl⟩ : b = dot ∧ c = slash := by simpa using hboth
    obtain ⟨pieces, hbytes, hpieces, hend⟩ := ih
    refine ⟨[dot, slash] :: pieces, ?_, List.forall_mem_cons.mpr ⟨.inr rfl, hpieces⟩, hend⟩
    rw [List.flatten_cons, List.append_assoc, ← hbytes]
    rfl
  | case6 b c rest hslash hboth =>
    refine ⟨[], rfl, by simp, by simp [Ne.symm hslash], ?_⟩
    intro hprefix
    obtain ⟨hb, hprefix⟩ := List.cons_prefix_cons.mp hprefix
    obtain ⟨hc, -⟩ := List.cons_prefix_cons.mp hprefix
    simp [← hb, ← hc] at hboth

/-- The trimmed path stands before these ends. -/
theorem trims_trimmed (p : Path) : p.Trims p.trimmed := by
  obtain ⟨ends, hbytes, hends, hslash, hdot⟩ := dropTrailing_spec p.bytes.reverse
  -- Bytes are dropped from the end, so everything is turned round.
  obtain ⟨front, hfront⟩ : ∃ front, front = (dropTrailing p.bytes.reverse).reverse := ⟨_, rfl⟩
  obtain ⟨pieces, hpieces⟩ : ∃ pieces, pieces = (ends.map List.reverse).reverse := ⟨_, rfl⟩
  have hforward : p.bytes = front ++ pieces.flatten := by
    have hreverse := congrArg List.reverse hbytes
    rwa [List.reverse_reverse, List.reverse_append, List.reverse_flatten, ← hfront, ← hpieces]
      at hreverse
  have hall : ∀ piece ∈ pieces, piece = [slash] ∨ piece = [slash, dot] := by
    rw [hpieces]
    simp only [List.mem_reverse, List.mem_map]
    rintro _ ⟨piece, hmem, rfl⟩
    obtain rfl | rfl := hends piece hmem
    · exact .inl rfl
    · exact .inr rfl
  refine ⟨front, pieces, hforward, hall, ?_, ?_, ?_⟩
  · show ¬[slash].reverse <:+ front
    rwa [hfront, List.reverse_suffix]
  · show ¬[dot, slash].reverse <:+ front
    rwa [hfront, List.reverse_suffix]
  · unfold trimmed
    split
    case h_1 hnil =>
      obtain rfl : front = [] := by rw [hfront, hnil]; rfl
      -- The path is nothing but its end, so that it is empty or has a slash in front.
      cases pieces with
      | nil => simp [isAbsolute, hforward]
      | cons piece pieces =>
        obtain rfl | rfl := hall piece List.mem_cons_self
        · simp [isAbsolute, hforward]
        · simp [isAbsolute, hforward]
    case h_2 rest hne =>
      have hfront' : front ≠ [] := by
        rw [hfront]
        simpa using hne
      rw [if_neg fun hboth => hfront' hboth.1, hfront]

end Path

namespace CommandLine

open Attempt

variable {t t' : Tree} {depth steps : Nat} {line : List String} {arguments : Arguments}
  {directory path : String} {stdin : List UInt8} {outcome : Option Report}

/-! ### Commands that write nothing -/

theorem runIn_bind_tree {α β : Type} {work : Attempt (StateM Tree) α}
    {next : α → Attempt (StateM Tree) β} (hwork : (work.runIn t).2 = t)
    (hnext : ∀ a, ((next a).runIn t).2 = t) : ((work >>= next).runIn t).2 = t := by
  rw [runIn_bind]
  rcases hanswer : work.runIn t with ⟨_ | _ | a, t₁⟩
  all_goals
    rw [hanswer] at hwork
    obtain rfl : t₁ = t := hwork
  · rfl
  · rfl
  · exact hnext a

/-- To find the code to run only reads, be it a library's or a file's. -/
theorem codeToRun_tree (t : Tree) (depth : Nat) (path : Path) :
    ((codeToRun Tree.access depth path).runIn t).2 = t := by
  refine runIn_bind_tree (by rw [runIn_isDirectory]) fun isDirectory => ?_
  cases isDirectory with
  | true => exact buildLibrary_tree t depth path
  | false =>
    simp only [Bool.false_eq_true, if_false]
    split
    · exact OnlyReads.readText path t
    · rfl

/-- Help and runs write nothing. -/
theorem perform_tree (t : Tree) (depth : Nat) (arguments : Arguments)
    (hcommand : ∀ directory, arguments.command ≠ .compile directory) :
    ((perform Tree.access depth arguments).runIn t).2 = t := by
  unfold perform
  split
  case h_1 => rfl
  case h_2 path _ =>
    exact runIn_bind_tree (codeToRun_tree t depth _) fun code =>
      runIn_bind_tree rfl fun program => rfl
  case h_3 directory heq => exact absurd heq (hcommand directory)

theorem prepareIn_tree (t : Tree) (depth : Nat) (line : List String)
    (hcommand : ∀ arguments directory, parse line = .ok arguments →
      arguments.command ≠ .compile directory) :
    (prepareIn t depth line).2 = t := by
  cases hline : parse line with
  | error error =>
    rw [prepareIn, prepare, hline]
    rfl
  | ok arguments =>
    have htree := perform_tree t depth arguments fun directory => hcommand _ directory hline
    rw [prepareIn_eq hline]
    rcases hanswer : (perform Tree.access depth arguments).runIn t with ⟨_ | _ | job, t₁⟩
    all_goals
      rw [hanswer] at htree
      exact htree

/-! ### Processes -/

/-- The code of a library comes of the library as it is. -/
theorem of_buildLibrary {dir : Path} {code : String}
    (h : (buildLibrary Tree.access depth dir).runIn t = (some (.ok code), t')) :
    ∃ env, (Library.load Tree.access dir).run.run t = (.ok env, t) ∧
      env.build depth = some (.ok code) := by
  rw [buildLibrary, runIn_bind, runIn_ofLibrary] at h
  have hload : ((Library.load Tree.access dir).run.run t).2 = t := OnlyReads.load dir t
  rcases hanswer : (Library.load Tree.access dir).run.run t with ⟨error | env, t₁⟩
  all_goals
    rw [hanswer] at h hload
    obtain rfl : t₁ = t := hload
  · cases h
  · have hbuild : ((env.build depth).map fun result => result.mapError Failure.library) =
        some (.ok code) := (Prod.mk.inj h).1
    refine ⟨env, rfl, ?_⟩
    obtain ⟨result, hresult, hcode⟩ := Option.map_eq_some_iff.mp hbuild
    cases result with
    | error e => cases hcode
    | ok built =>
      rw [hresult]
      cases hcode
      rfl

theorem outputOf_cases (arguments : Arguments) (directory : String) :
    (∀ file, arguments.output = some file → outputOf arguments directory = .ofString file) ∧
      (arguments.output = none → ∃ core, (Path.ofString directory).Trims core ∧
        outputOf arguments directory = core.append ".bf") := by
  constructor
  · intro file houtput
    rw [outputOf, houtput]
    rfl
  · intro houtput
    refine ⟨(Path.ofString directory).trimmed, Path.trims_trimmed _, ?_⟩
    rw [outputOf, houtput]
    rfl

/-- A compilation ends at once: **what is reported is whether it has succeeded**. -/
theorem processIn_compile_cases (hline : parse line = .ok arguments)
    (hcommand : arguments.command = .compile directory)
    (h : processIn t depth steps line stdin = (outcome, t')) :
    ((∀ report, outcome = some report → report.exit = 1) ∧ t' = t) ∨
      outcome = some .success ∧ ∃ code,
        (buildLibrary Tree.access depth (.ofString directory)).runIn t = (some (.ok code), t) ∧
        t.write (outputOf arguments directory) code.toUTF8 = .ok t' := by
  rcases hjob : prepareIn t depth line with ⟨job, t₁⟩
  rw [processIn, hjob] at h
  obtain ⟨rfl, rfl⟩ := Prod.mk.inj h
  -- A command that fails has left the tree as it was, whether its depth did not suffice or its
  -- work failed; any other has written the code.
  obtain ⟨rfl | ⟨failure, rfl⟩, htree⟩ | ⟨rfl, code, -, hbuild, hwrite⟩ :=
    prepareIn_compile_cases hline hcommand hjob
  · refine .inl ⟨fun report hreport => ?_, htree⟩
    cases hreport
  · refine .inl ⟨fun report hreport => ?_, htree⟩
    obtain rfl := Option.some.inj hreport
    rfl
  · exact .inr ⟨rfl, code, hbuild, hwrite⟩

/-- **A process writes nothing unless a compilation succeeds.**  If the arguments are refused, ask
for help or for a run, or if the process does not exit with zero, the tree is left as it is.  If a
command to compile exits with zero, then its output holds the code of the library, as it was loaded
and built before, and at any other place there is what was there: the output is the file that is
named, or else the directory without its trailing ends, and `.bf`. -/
theorem effect_of_processIn (h : processIn t depth steps line stdin = (outcome, t')) :
    (∀ error, parse line = .error error → t' = t) ∧
    (∀ arguments, parse line = .ok arguments →
      (arguments.command = .help ∨ ∃ path, arguments.command = .run path) → t' = t) ∧
    ((∀ report, outcome = some report → report.exit ≠ 0) → t' = t) ∧
    ∀ arguments directory report, parse line = .ok arguments →
      arguments.command = .compile directory → outcome = some report → report.exit = 0 →
      ∃ env code output place,
        (Library.load Tree.access (.ofString directory)).run.run t = (.ok env, t) ∧
        env.build depth = some (.ok code) ∧
        (∀ file, arguments.output = some file → output = .ofString file) ∧
        (arguments.output = none → ∃ core, (Path.ofString directory).Trims core ∧
          output = core.append ".bf") ∧
        t'.read output = .ok code.toUTF8 ∧
        t'.resolve output = .ok place ∧ t'.node? place = some (.file code.toUTF8) ∧
        (∀ here, here ≠ place → t'.node? here = t.node? here) ∧
        t'.directories = t.directories ∧ t'.home = t.home := by
  -- Only a command to compile can leave another tree.
  have htree : t' = (prepareIn t depth line).2 := congrArg Prod.snd h.symm
  have hother : (∀ arguments directory, parse line = .ok arguments →
      arguments.command ≠ .compile directory) → t' = t := fun hcommand =>
    htree.trans (prepareIn_tree t depth line hcommand)
  refine ⟨fun error hline => hother ?_, fun arguments hline hcommand => hother ?_, fun hexit => ?_,
    fun arguments directory report hline hcommand houtcome hexit => ?_⟩
  · intro arguments directory hline'
    rw [hline] at hline'
    cases hline'
  · intro arguments' directory hline' hcompile
    obtain rfl := Except.ok.inj (hline.symm.trans hline')
    rw [hcompile] at hcommand
    obtain hcommand | ⟨path, hcommand⟩ := hcommand <;> cases hcommand
  · -- A process that is not to compile leaves the tree as it is; one that is and leaves it
    -- otherwise exits with zero.
    by_cases hcompile : ∃ arguments directory, parse line = .ok arguments ∧
        arguments.command = .compile directory
    · obtain ⟨arguments, directory, hline, hcommand⟩ := hcompile
      obtain ⟨-, htree⟩ | ⟨hsuccess, -⟩ := processIn_compile_cases hline hcommand h
      · exact htree
      · exact absurd rfl (hexit .success hsuccess)
    · refine hother fun arguments directory hline hcommand => hcompile ?_
      exact ⟨arguments, directory, hline, hcommand⟩
  · obtain ⟨hfailed, -⟩ | ⟨-, code, hbuild, hwrite⟩ := processIn_compile_cases hline hcommand h
    · rw [hfailed report houtcome] at hexit
      cases hexit
    · obtain ⟨env, hload, hcode⟩ := of_buildLibrary hbuild
      obtain ⟨place, -, hresolve, hplace, hframe⟩ := Tree.frame_of_write hwrite
      obtain ⟨hnamed, hbeside⟩ := outputOf_cases arguments directory
      exact ⟨env, code, outputOf arguments directory, place, hload, hcode, hnamed, hbeside,
        (Tree.read_of_write hwrite).1, hresolve, hplace, hframe⟩

/-- A library whose only text gives way to its code, while all else is as it was. -/
theorem effect_of_processIn_overwriting :
    parse ["compile", "d/./", "-o", "d/program.bfm"] =
      .ok { command := .compile "d/./", settings := {}, output := some "d/program.bfm",
            verbosity := 0 } ∧
    processIn (oneText "+ [.]") 9 0 ["compile", "d/./", "-o", "d/program.bfm"] [7] =
      (some .success, oneText "+[.]") ∧
    ∃ (code : String) (place : Place),
      (oneText "+[.]").read (.ofString "d/program.bfm") = .ok code.toUTF8 ∧
      ∀ here, here ≠ place → (oneText "+[.]").node? here = (oneText "+ [.]").node? here := by
  have hline : parse ["compile", "d/./", "-o", "d/program.bfm"] =
      .ok { command := .compile "d/./", settings := {}, output := some "d/program.bfm",
            verbosity := 0 } := rfl
  have hlooping : (Environment.expand ⟨.ofList [⟨entryName, "+ [.]"⟩], {}⟩ 9 entryName []).run =
      some (.ok "+[.]") := by
    simp only [Environment.expand_succ, Environment.expand_zero, Environment.body,
      MacroSet.get?_ofList]
    decide +kernel
  have hbuilt : (buildLibrary Tree.access 9 (.ofString "d/./")).runIn (oneText "+ [.]") =
      (some (.ok "+[.]"), oneText "+ [.]") :=
    buildLibrary_of_one (.ofString "program.bfm") "+ [.]" (by decide +kernel) (by decide +kernel)
      (by decide +kernel) hlooping
  have hprocess : processIn (oneText "+ [.]") 9 0 ["compile", "d/./", "-o", "d/program.bfm"] [7] =
      (some .success, oneText "+[.]") := by
    have hwritten : (oneText "+ [.]").write (.ofString "d/program.bfm") "+[.]".toUTF8 =
        .ok (oneText "+[.]") := by
      refine Tree.write_eq_ok_iff.mpr ⟨[.ofString "program.bfm", .ofString "d"], ?_, ?_⟩
      · decide +kernel
      · ext1 <;> decide +kernel
    rw [processIn, prepareIn_compile hline rfl rfl (by decide +kernel) hbuilt hwritten]
    rfl
  obtain ⟨-, code, output, place, -, -, hnamed, -, hread, -, -, hframe, -⟩ :=
    (effect_of_processIn hprocess).2.2.2 _ "d/./" .success hline rfl rfl rfl
  obtain rfl := hnamed "d/program.bfm" rfl
  exact ⟨hline, hprocess, code, place, hread, hframe⟩

end CommandLine
end TapeLang
