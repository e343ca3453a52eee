import TapeLang.Proofs.Constants.Joined
import TapeLang.Proofs.Directory
import TapeLang.Proofs.MacroIndex

/-!
# Loading a library

What a directory holds for a library can be told from its files in the order of their names: its texts
and the contents of its files of constants (`Holds`), unless there is a file that belongs to the
library and is no text.  `merge` puts the files together when their bytes are at hand (`merge_cases`),
and the library in a directory is the merge of its files, in whatever order the tree lists them
(`load_run`).

The constants of all files are read as one text, but what comes of it is what comes of them one after
another: that is `TapeLang.Proofs.Constants.Joined`.

Main statement: `load_is_ordered_merge`.
-/

namespace TapeLang.Library

/-! ### What files hold -/

/-- The file is the text of a macro. -/
def IsText (file : Name × ByteArray) (m : Macro) : Prop :=
  OfName file.1 (.text m.name) ∧ file.2 = m.content.toUTF8

/-- The file holds constants, in this text. -/
def IsConstants (file : Name × ByteArray) (text : String) : Prop :=
  OfName file.1 .constants ∧ file.2 = text.toUTF8

/-- What files hold for a library: the texts of macros and the texts of constants, in the order of
the files.  All other files are ignored. -/
inductive Holds : List (Name × ByteArray) → List Macro → List String → Prop
  | nil : Holds [] [] []
  | text {file m files macros texts} (hfile : IsText file m) (hrest : Holds files macros texts) :
      Holds (file :: files) (m :: macros) texts
  | constants {file text files macros texts} (hfile : IsConstants file text)
      (hrest : Holds files macros texts) : Holds (file :: files) macros (text :: texts)
  | ignored {file files macros texts} (hfile : ∀ source, ¬OfName file.1 source)
      (hrest : Holds files macros texts) : Holds (file :: files) macros texts

/-- The file is a text if it belongs to the library. -/
def Readable (file : Name × ByteArray) : Prop :=
  ∀ source, OfName file.1 source → ∃ text : String, file.2 = text.toUTF8

variable {t : Tree} {dir : Path} {place : Place} {file : Name × ByteArray}
  {files before after ordered : List (Name × ByteArray)} {macros : List Macro} {texts : List String}

theorem Holds.cons (hfile : Readable file) (h : Holds files macros texts) :
    ∃ macros texts, Holds (file :: files) macros texts := by
  by_cases hsource : ∃ source, OfName file.1 source
  · obtain ⟨source, hsource⟩ := hsource
    obtain ⟨content, hcontent⟩ := hfile source hsource
    cases source with
    | constants => exact ⟨macros, content :: texts, .constants ⟨hsource, hcontent⟩ h⟩
    | text name => exact ⟨⟨name, content⟩ :: macros, texts, .text ⟨hsource, hcontent⟩ h⟩
  · exact ⟨macros, texts, .ignored (not_exists.mp hsource) h⟩

/-- Files that can be read hold something. -/
theorem exists_holds (hfiles : ∀ file ∈ files, Readable file) :
    ∃ macros texts, Holds files macros texts := by
  induction files with
  | nil => exact ⟨[], [], .nil⟩
  | cons file files ih =>
    obtain ⟨hfile, hfiles⟩ := List.forall_mem_cons.mp hfiles
    obtain ⟨macros, texts, h⟩ := ih hfiles
    exact h.cons hfile

/-! ### Different names -/

theorem Holds.exists_file (h : Holds files macros texts) {m : Macro} (hmem : m ∈ macros) :
    ∃ file ∈ files, IsText file m := by
  induction h with
  | nil => cases hmem
  | @text file _ _ _ _ hfile _ ih =>
    obtain rfl | hmem := List.mem_cons.mp hmem
    · exact ⟨file, List.mem_cons_self, hfile⟩
    · obtain ⟨found, hfound, htext⟩ := ih hmem
      exact ⟨found, List.mem_cons_of_mem _ hfound, htext⟩
  | constants _ _ ih =>
    obtain ⟨found, hfound, htext⟩ := ih hmem
    exact ⟨found, List.mem_cons_of_mem _ hfound, htext⟩
  | ignored _ _ ih =>
    obtain ⟨found, hfound, htext⟩ := ih hmem
    exact ⟨found, List.mem_cons_of_mem _ hfound, htext⟩

/-- Files of different names hold macros of different names. -/
theorem Holds.nodup_names (h : Holds files macros texts) (hnames : (files.map Prod.fst).Nodup) :
    (macros.map Macro.name).Nodup := by
  induction h with
  | nil => exact List.nodup_nil
  | @text file m _ macros _ hfile hrest ih =>
    rw [List.map_cons, List.nodup_cons] at hnames
    rw [List.map_cons, List.nodup_cons]
    refine ⟨fun hmem => hnames.1 ?_, ih hnames.2⟩
    -- The other macro comes of some file, whose name would be this one's.
    obtain ⟨other, hother, hsame⟩ := List.mem_map.mp hmem
    obtain ⟨found, hfound, htext⟩ := hrest.exists_file hother
    have hname : file.1 = found.1 := by
      rw [hfile.1.2, htext.1.2, hsame]
    exact hname ▸ List.mem_map_of_mem hfound
  | constants _ _ ih => exact ih (List.nodup_cons.mp hnames).2
  | ignored _ _ ih => exact ih (List.nodup_cons.mp hnames).2

/-! ### Merging files -/

/-- What is read so far and one more file, whose bytes are at hand. -/
def addBytes (dir : Path) (draft : Draft) (file : Name × ByteArray) : Except Error Draft :=
  match source? file.1 with
  | none => .ok draft
  | some source =>
    match Text.Utf8.decode? file.2 with
    | none => .error (.file (dir.join file.1) .notText)
    | some text => .ok (draft.add source text)

/-- The library of files whose bytes are at hand. -/
def merge (dir : Path) (files : List (Name × ByteArray)) : Except Error Environment := do
  let draft ← files.foldlM (addBytes dir) {}
  let constants ← Constants.parse draft.constants
  return { macros := draft.macros, constants }

theorem addBytes_of_readable {source : Source} {text : String} (hname : OfName file.1 source)
    (hbytes : file.2 = text.toUTF8) (draft : Draft) :
    addBytes dir draft file = .ok (draft.add source text) := by
  rw [addBytes, source?_eq_some_iff.mpr hname, hbytes, Text.Utf8.decode?_toUTF8]

theorem addBytes_of_ignored (hname : ∀ source, ¬OfName file.1 source) (draft : Draft) :
    addBytes dir draft file = .ok draft := by
  have hnone : source? file.1 = none :=
    Option.eq_none_iff_forall_ne_some.mpr fun source h => hname source (source?_eq_some_iff.mp h)
  rw [addBytes, hnone]

theorem addBytes_of_not_readable (hfile : ¬Readable file) (draft : Draft) :
    addBytes dir draft file = .error (.file (dir.join file.1) .notText) := by
  simp only [Readable, not_forall] at hfile
  obtain ⟨source, hname, hbytes⟩ := hfile
  have hnone : Text.Utf8.decode? file.2 = none :=
    Option.eq_none_iff_forall_ne_some.mpr fun text h =>
      hbytes ⟨text, Text.Utf8.decode?_eq_some_iff.mp h⟩
  rw [addBytes, source?_eq_some_iff.mpr hname, hnone]

/-- What files hold is defined and joined, in the order of the files. -/
theorem Holds.foldlM_addBytes (h : Holds files macros texts) (dir : Path) (draft : Draft) :
    files.foldlM (addBytes dir) draft =
      .ok { macros := macros.foldl (fun set m => (set.insert m).2) draft.macros
            constants := Constants.joinedTo draft.constants texts } := by
  induction h generalizing draft with
  | nil => rfl
  | text hfile _ ih =>
    rw [List.foldlM_cons, addBytes_of_readable hfile.1 hfile.2]
    exact ih _
  | constants hfile _ ih =>
    rw [List.foldlM_cons, addBytes_of_readable hfile.1 hfile.2]
    exact ih _
  | ignored hfile _ ih =>
    rw [List.foldlM_cons, addBytes_of_ignored hfile]
    exact ih draft

theorem Holds.merge_eq (h : Holds files macros texts) (dir : Path) :
    merge dir files = (Constants.parse (Constants.joined texts)).map fun constants =>
      { macros := .ofList macros, constants } := by
  rw [merge, h.foldlM_addBytes]
  change (Constants.parse (Constants.joined texts)).bind _ = _
  cases Constants.parse (Constants.joined texts) <;> rfl

theorem Holds.merge_of_not_readable (h : Holds before macros texts) (hfile : ¬Readable file)
    (dir : Path) (after : List (Name × ByteArray)) :
    merge dir (before ++ file :: after) = .error (.file (dir.join file.1) .notText) := by
  rw [merge, List.foldlM_append, h.foldlM_addBytes]
  simp only [bind, Except.bind, List.foldlM_cons, addBytes_of_not_readable hfile]

/-- What comes of files: their macros and what is read of their constants, or the first of them
that is no text. -/
theorem merge_cases (dir : Path) (files : List (Name × ByteArray)) :
    (∃ macros texts, Holds files macros texts ∧
      merge dir files = (Constants.parse (Constants.joined texts)).map fun constants =>
        { macros := .ofList macros, constants }) ∨
      ∃ before file after, files = before ++ file :: after ∧ (∀ earlier ∈ before, Readable earlier) ∧
        ¬Readable file ∧ merge dir files = .error (.file (dir.join file.1) .notText) := by
  obtain hfiles | ⟨before, file, after, rfl, hbefore, hfile⟩ := forall_or_exists_first Readable files
  · obtain ⟨macros, texts, h⟩ := exists_holds hfiles
    exact .inl ⟨macros, texts, h, h.merge_eq dir⟩
  · obtain ⟨macros, texts, h⟩ := exists_holds hbefore
    exact .inr ⟨before, file, after, rfl, hbefore, hfile, h.merge_of_not_readable hfile dir after⟩

/-- **Files are a library** if they can be read and all of their constants too. -/
theorem merge_eq_ok_iff {env : Environment} :
    merge dir files = .ok env ↔ ∃ macros texts tables, Holds files macros texts ∧
      List.Forall₂ (fun text table => Constants.parse text = .ok table) texts tables ∧
      env.macros = .ofList macros ∧ env.constants = .ofList (tables.flatMap Constants.entries) := by
  constructor
  · intro hmerge
    obtain ⟨macros, texts, h, heq⟩ | ⟨_, _, _, -, -, -, heq⟩ := merge_cases dir files
    · -- The constants are read after all files, so their error would show here.
      obtain ⟨constants, hparse, rfl⟩ := map_eq_ok (heq.symm.trans hmerge)
      obtain ⟨tables, htables, rfl⟩ := Constants.parse_joined_eq_ok_iff.mp hparse
      exact ⟨macros, texts, tables, h, htables, rfl, rfl⟩
    · cases heq.symm.trans hmerge
  · rintro ⟨macros, texts, tables, h, htables, hmacros, hconstants⟩
    obtain ⟨envMacros, envConstants⟩ := env
    obtain rfl : envMacros = .ofList macros := hmacros
    obtain rfl : envConstants = .ofList (tables.flatMap Constants.entries) := hconstants
    rw [h.merge_eq, Constants.parse_joined_eq_ok_iff.mpr ⟨tables, htables, rfl⟩]
    rfl

/-- The first file that is no text is an error before any line of constants is. -/
theorem merge_eq_file_iff {path : Path} {fault : Fault} :
    merge dir files = .error (.file path fault) ↔ ∃ before file after,
      files = before ++ file :: after ∧ (∀ earlier ∈ before, Readable earlier) ∧
        ¬Readable file ∧ path = dir.join file.1 ∧ fault = .notText := by
  constructor
  · intro hmerge
    obtain ⟨macros, texts, h, heq⟩ | ⟨before, file, after, hfiles, hbefore, hfile, heq⟩ :=
      merge_cases dir files
    · -- Constants that are refused are refused for a line, and not for a file.
      obtain ⟨_, _, hbad⟩ :=
        Constants.exists_eq_of_parse_eq_error (map_eq_error (heq.symm.trans hmerge))
      cases hbad
    · obtain ⟨rfl, rfl⟩ := Error.file.inj (Except.error.inj (heq.symm.trans hmerge))
      exact ⟨before, file, after, hfiles, hbefore, hfile, rfl, rfl⟩
  · rintro ⟨before, file, after, rfl, hbefore, hfile, rfl, rfl⟩
    obtain ⟨macros, texts, h⟩ := exists_holds hbefore
    exact h.merge_of_not_readable hfile dir after

/-- Constants are refused for the line for which the first file of them is refused that is. -/
theorem exists_merge_eq_badConstant_iff {quoted : String} :
    (∃ number, merge dir files = .error (.badConstant number quoted)) ↔
      ∃ macros before text after, Holds files macros (before ++ text :: after) ∧
        (∀ earlier ∈ before, ∃ table, Constants.parse earlier = .ok table) ∧
        Constants.RefusedFor text quoted := by
  constructor
  · rintro ⟨number, hmerge⟩
    obtain ⟨macros, texts, h, heq⟩ | ⟨_, _, _, -, -, -, heq⟩ := merge_cases dir files
    · obtain ⟨before, text, after, rfl, hbefore, hrefused⟩ :=
        Constants.exists_parse_joined_eq_error_iff.mp ⟨number, map_eq_error (heq.symm.trans hmerge)⟩
      exact ⟨macros, before, text, after, h, hbefore, hrefused⟩
    · cases heq.symm.trans hmerge
  · rintro ⟨macros, before, text, after, h, hbefore, hrefused⟩
    obtain ⟨number, hjoined⟩ := Constants.exists_parse_joined_eq_error_iff.mpr
      ⟨before, text, after, rfl, hbefore, hrefused⟩
    refine ⟨number, ?_⟩
    rw [h.merge_eq, hjoined]
    rfl

theorem exists_eq_of_merge_eq_error {e : Error} (hmerge : merge dir files = .error e) :
    (∃ path fault, e = .file path fault) ∨ ∃ number quoted, e = .badConstant number quoted := by
  obtain ⟨macros, texts, h, heq⟩ | ⟨_, _, _, -, -, -, heq⟩ := merge_cases dir files
  · exact .inr (Constants.exists_eq_of_parse_eq_error (map_eq_error (heq.symm.trans hmerge)))
  · exact .inl ⟨_, _, (Except.error.inj (heq.symm.trans hmerge)).symm⟩

/-! ### Loading is merging -/

theorem readText_run {path : Path} {bytes : ByteArray} (hread : t.read path = .ok bytes) :
    (readText Tree.access path).run.run t =
      (match Text.Utf8.decode? bytes with
        | some text => .ok text
        | none => .error (.file path .notText), t) := by
  have hfile : (ofFiles path (Tree.access.read path)).run.run t = (.ok bytes, t) := by
    change ((t.read path).mapError _, t) = _
    rw [hread]
    rfl
  rw [readText, run_bind_of_ok hfile]
  cases Text.Utf8.decode? bytes <;> rfl

theorem addFile_run (hread : t.read (dir.join file.1) = .ok file.2) (draft : Draft) :
    (addFile Tree.access dir draft file.1).run.run t = (addBytes dir draft file, t) := by
  rw [addFile, addBytes]
  cases source? file.1 with
  | none => rfl
  | some source =>
    have htext := readText_run hread
    cases hdecode : Text.Utf8.decode? file.2 with
    | none =>
      rw [hdecode] at htext
      exact run_bind_of_error htext
    | some text =>
      rw [hdecode] at htext
      exact run_bind_of_ok htext

theorem foldlM_addFile_run (hread : ∀ file ∈ files, t.read (dir.join file.1) = .ok file.2)
    (draft : Draft) :
    ((files.map Prod.fst).foldlM (addFile Tree.access dir) draft).run.run t =
      (files.foldlM (addBytes dir) draft, t) := by
  induction files generalizing draft with
  | nil => rfl
  | cons file files ih =>
    obtain ⟨hfile, hfiles⟩ := List.forall_mem_cons.mp hread
    have hstep := addFile_run hfile draft
    rw [List.map_cons, List.foldlM_cons, List.foldlM_cons]
    cases hadd : addBytes dir draft file with
    | error e => exact run_bind_of_error (hadd ▸ hstep)
    | ok draft' => exact (run_bind_of_ok (hadd ▸ hstep)).trans (ih hfiles draft')

theorem pairwise_mergeSort_key {α : Type} (key : α → Name) (l : List α) :
    (l.mergeSort fun a b => decide (key a ≤ key b)).Pairwise fun a b => key a ≤ key b := by
  have htrans : ∀ a b c : α, decide (key a ≤ key b) = true → decide (key b ≤ key c) = true →
      decide (key a ≤ key c) = true := fun a b c hab hbc =>
    decide_eq_true (List.le_trans (of_decide_eq_true hab) (of_decide_eq_true hbc))
  have htotal : ∀ a b : α, (decide (key a ≤ key b) || decide (key b ≤ key a)) = true :=
    fun a b => by simpa using List.le_total (key a) (key b)
  exact (List.pairwise_mergeSort htrans htotal l).imp of_decide_eq_true

/-- Files of different names stand in one order. -/
theorem exists_ordered (hnames : (files.map Prod.fst).Nodup) :
    ∃ ordered : List (Name × ByteArray),
      ordered.Perm files ∧ ordered.Pairwise fun a b => a.1 < b.1 := by
  have hperm := List.mergeSort_perm files fun a b => decide (a.1 ≤ b.1)
  have hdifferent := List.pairwise_map.mp ((hperm.map Prod.fst).nodup_iff.mpr hnames)
  refine ⟨_, hperm, ?_⟩
  exact (pairwise_mergeSort_key Prod.fst files).imp₂ (fun _ _ hle hne => Std.lt_of_le_of_ne hle hne)
    hdifferent

/-- Names are sorted as their files are, in whatever order they are listed. -/
theorem sorted_map_fst (hlisted : ordered.Perm files)
    (hordered : ordered.Pairwise fun a b => a.1 < b.1) :
    sorted (files.map Prod.fst) = ordered.map Prod.fst := by
  refine List.Perm.eq_of_pairwise (fun a b _ _ => List.le_antisymm)
    (pairwise_mergeSort_key id _) (List.pairwise_map.mpr (hordered.imp List.le_of_lt)) ?_
  exact (List.mergeSort_perm _ _).trans (hlisted.map Prod.fst).symm

/-- **Loading a directory is merging its files in the order of their names.** -/
theorem load_run (hsound : t.Sound) (hdir : t.resolve dir = .ok place)
    (hplace : t.isDirectoryAt place = true) (hlisted : ordered.Perm (t.filesIn place))
    (hordered : ordered.Pairwise fun a b => a.1 < b.1) :
    (load Tree.access dir).run.run t = (merge dir ordered, t) := by
  have hnames : (ofFiles dir (Tree.access.regularFiles dir)).run.run t =
      (.ok ((t.filesIn place).map Prod.fst), t) := by
    change ((t.regularFiles dir).mapError _, t) = _
    rw [Tree.regularFiles_eq hdir hplace]
    rfl
  -- Each name that is listed leads to the file it came from.
  have hdraft := foldlM_addFile_run (fun file hmem =>
    hsound.read_join hdir hplace (hlisted.mem_iff.mp hmem)) {}
  rw [load, run_bind_of_ok hnames, sorted_map_fst hlisted hordered, merge]
  cases hmerged : ordered.foldlM (addBytes dir) {} with
  | error e => exact run_bind_of_error (hmerged ▸ hdraft)
  | ok draft =>
    rw [run_bind_of_ok (hmerged ▸ hdraft)]
    change _ = ((Constants.parse draft.constants).bind _, t)
    cases Constants.parse draft.constants <;> rfl

/-- **A library is the ordered merge of the files in its directory**, in whatever order the tree
lists them.  The files are taken in the order of the bytes of their names.  If all that belong to the
library are texts and each file of constants can be read on its own, the macros are the texts, named
by the stems of the files, and the constants are those of the files, one after another.  Otherwise the
error is the first file that is no text, or else the line for which the first file of constants is
refused that is; there are no other errors. -/
theorem load_is_ordered_merge (hsound : t.Sound) (hdir : t.resolve dir = .ok place)
    (hplace : t.isDirectoryAt place = true) :
    ∃ (ordered : List (Name × ByteArray)) (answer : Except Error Environment),
      ordered.Perm (t.filesIn place) ∧ (ordered.Pairwise fun a b => a.1 < b.1) ∧
      (∀ listing : List (Place × ByteArray), listing.Perm t.files →
        (load Tree.access dir).run.run { t with files := listing } =
          (answer, { t with files := listing })) ∧
      (∀ env, answer = .ok env ↔ ∃ macros texts tables, Holds ordered macros texts ∧
        List.Forall₂ (fun text table => Constants.parse text = .ok table) texts tables ∧
        env.macros = .ofList macros ∧ env.macros.toList = macros ∧
        env.constants = .ofList (tables.flatMap Constants.entries)) ∧
      (∀ path fault, answer = .error (.file path fault) ↔ ∃ before file after,
        ordered = before ++ file :: after ∧ (∀ earlier ∈ before, Readable earlier) ∧
          ¬Readable file ∧ path = dir.join file.1 ∧ fault = .notText) ∧
      (∀ quoted, (∃ number, answer = .error (.badConstant number quoted)) ↔
        ∃ macros before text after, Holds ordered macros (before ++ text :: after) ∧
          (∀ earlier ∈ before, ∃ table, Constants.parse earlier = .ok table) ∧
          Constants.RefusedFor text quoted) ∧
      ∀ e, answer = .error e →
        (∃ path fault, e = .file path fault) ∨ ∃ number quoted, e = .badConstant number quoted := by
  obtain ⟨ordered, hlisted, hordered⟩ := exists_ordered (hsound.nodup_filesIn place)
  -- The files of a directory have different names, and so do their macros.
  have hnames : (ordered.map Prod.fst).Nodup :=
    (hlisted.map Prod.fst).nodup_iff.mpr (hsound.nodup_filesIn place)
  refine ⟨ordered, merge dir ordered, hlisted, hordered, fun listing hlisting => ?_, fun env => ?_,
    fun path fault => merge_eq_file_iff, fun quoted => exists_merge_eq_badConstant_iff,
    fun e => exists_eq_of_merge_eq_error⟩
  · -- A listing in another order is a tree with the same directory in it.
    exact load_run (hsound.relist hlisting) ((hsound.resolve_relist hlisting dir).trans hdir)
      ((hsound.isDirectoryAt_relist hlisting place).trans hplace)
      (hlisted.trans (Tree.filesIn_relist hlisting place).symm) hordered
  · rw [merge_eq_ok_iff]
    constructor
    · rintro ⟨macros, texts, tables, h, htables, hmacros, hconstants⟩
      -- No macro replaces another one, so the set lists them as they are.
      have hlist : env.macros.toList = macros := by
        rw [hmacros, MacroSet.toList_ofList (h.nodup_names hnames)]
      exact ⟨macros, texts, tables, h, htables, hmacros, hlist, hconstants⟩
    · rintro ⟨macros, texts, tables, h, htables, hmacros, -, hconstants⟩
      exact ⟨macros, texts, tables, h, htables, hmacros, hconstants⟩

/-- The files of a directory in the order of their names: a file of constants that ends in a carriage
return, one more, an ignored file that is no text, and the text of a macro. -/
def fourFiles : List (Name × ByteArray) :=
  [(.ofString "a.bfc", "x=1\ny=2\r".toUTF8), (.ofString "b.bfc", "x=3".toUTF8),
    (.ofString "c.txt", ⟨#[0xFF]⟩), (.ofString "program.bfm", "/x/".toUTF8)]

/-- A tree that lists them backwards. -/
def backwards : Tree :=
  { files := fourFiles.reverse.map fun file => ([file.1, .ofString "d"], file.2)
    directories := [[.ofString "d"]] }

theorem load_is_ordered_merge_backwards :
    (load Tree.access (.ofString "d/")).run.run backwards =
      (.ok { macros := .ofList [⟨"program", "/x/"⟩]
             constants := .ofList [("x", "3"), ("y", "2")] }, backwards) := by
  have hsound : backwards.Sound := by
    refine ⟨?_, ?_, ?_⟩ <;> decide +kernel
  have hdir : backwards.resolve (.ofString "d/") = .ok [.ofString "d"] := by decide +kernel
  obtain ⟨ordered, answer, hlisted, hordered, hload, hok, -⟩ :=
    load_is_ordered_merge hsound hdir (by decide +kernel)
  -- The tree lists the files backwards; sorted, they stand in the order of their names.
  have hfiles : backwards.filesIn [.ofString "d"] = fourFiles.reverse := by decide +kernel
  have hlisted : ordered.Perm fourFiles := hlisted.trans (hfiles ▸ fourFiles.reverse_perm)
  have hfour : ordered = fourFiles :=
    hlisted.eq_of_pairwise (fun _ _ _ _ hab hba => absurd (List.lt_trans hab hba) (List.lt_irrefl _))
      hordered (by decide +kernel)
  have hholds : Holds fourFiles [⟨"program", "/x/"⟩] ["x=1\ny=2\r", "x=3"] := by
    refine .constants ⟨⟨Name.ofString "a", by decide +kernel, by decide +kernel⟩, rfl⟩ ?_
    refine .constants ⟨⟨Name.ofString "b", by decide +kernel, by decide +kernel⟩, rfl⟩ ?_
    refine .ignored (fun source hsource => ?_) (.text ⟨⟨by decide, by decide +kernel⟩, rfl⟩ .nil)
    have hnone : source? (.ofString "c.txt") = none := by decide +kernel
    cases hnone.symm.trans (source?_eq_some_iff.mpr hsource)
  have htables : List.Forall₂ (fun text table => Constants.parse text = .ok table)
      ["x=1\ny=2\r", "x=3"] [.ofList [("x", "1"), ("y", "2")], .ofList [("x", "3")]] :=
    .cons (by decide +kernel) (.cons (by decide +kernel) .nil)
  have hanswer : answer = .ok
      { macros := .ofList [⟨"program", "/x/"⟩], constants := .ofList [("x", "3"), ("y", "2")] } :=
    (hok _).mpr ⟨_, _, _, hfour ▸ hholds, htables, rfl, MacroSet.toList_ofList (by simp), by decide +kernel⟩
  rw [hanswer] at hload
  exact hload backwards.files (List.Perm.refl _)

end TapeLang.Library
