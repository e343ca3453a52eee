import TapeLang.Files.Tree
import TapeLang.Proofs.Fallible

/-!
# A file that was written

Storing a file at a place changes what is found there, and nothing else: the directories stay as
they are, and every walk that leads somewhere still leads there.

A path that was accepted for writing does not end in a slash, so its last segment is the name of the
file, and the segments before it lead to the directory (`targets_of_target`).  So the same path leads
to the file afterwards: it is read back as it was written.

Main statements: `read_of_write`, and `frame_of_write` for all other places.
-/

namespace TapeLang

/-! ### The last segment of a path -/

namespace Path

theorem intercalate_concat_nil {names : List Name} (h : names ≠ []) :
    [slash].intercalate (names ++ [[]]) = [slash].intercalate names ++ [slash] := by
  induction names with
  | nil => exact absurd rfl h
  | cons name names ih =>
    cases names with
    | nil => simp [List.intercalate_cons_cons]
    | cons next names =>
      have htail := ih (List.cons_ne_nil next names)
      rw [List.cons_append] at htail
      rw [List.cons_append, List.cons_append, List.intercalate_cons_cons, htail,
        List.intercalate_cons_cons, List.append_assoc, List.append_assoc, List.append_assoc]

/-- The last segment is a name, unless the path is empty or ends in a slash. -/
theorem segments_eq_concat {p : Path} (hbytes : p.bytes ≠ [])
    (hlast : p.bytes.getLast? ≠ some slash) :
    ∃ names name, p.segments = names ++ [name] ∧ name ≠ [] := by
  have hne : p.segments ≠ [] := List.splitOn_ne_nil slash p.bytes
  obtain ⟨names, name, hsegments⟩ := List.eq_nil_or_concat p.segments |>.resolve_left hne
  rw [List.concat_eq_append] at hsegments
  refine ⟨names, name, hsegments, ?_⟩
  -- An empty last segment leaves the slash before it at the end of the path.
  rintro rfl
  have hjoin : [slash].intercalate (names ++ [[]]) = p.bytes := by
    rw [← hsegments]
    exact List.intercalate_splitOn slash
  cases names with
  | nil => exact hbytes (by simpa using hjoin.symm)
  | cons first names =>
    rw [intercalate_concat_nil (List.cons_ne_nil first names)] at hjoin
    exact hlast (by rw [← hjoin, List.getLast?_concat])

end Path

namespace Tree

variable {t t' : Tree} {place here dir : Place} {path : Path} {content : ByteArray}

theorem isDirectoryAt_eq (t : Tree) (place : Place) :
    t.isDirectoryAt place = (place.isSuffixOf t.home || t.directories.contains place) := by
  rw [isDirectoryAt, node?]
  cases place.isSuffixOf t.home || t.directories.contains place with
  | true => rfl
  | false => cases t.files.lookup place <;> rfl

theorem node?_eq (t : Tree) (place : Place) :
    t.node? place =
      if t.isDirectoryAt place then some .directory else (t.files.lookup place).map .file := by
  rw [isDirectoryAt_eq, node?]

/-! ### One more file -/

@[simp] theorem put_home (t : Tree) (place : Place) (content : ByteArray) :
    (t.put place content).home = t.home := by
  rw [put]
  split <;> rfl

@[simp] theorem put_directories (t : Tree) (place : Place) (content : ByteArray) :
    (t.put place content).directories = t.directories := by
  rw [put]
  split <;> rfl

@[simp] theorem isDirectoryAt_put (t : Tree) (place here : Place) (content : ByteArray) :
    (t.put place content).isDirectoryAt here = t.isDirectoryAt here := by
  simp only [isDirectoryAt_eq, put_home, put_directories]

@[simp] theorem origin_put (t : Tree) (place : Place) (content : ByteArray) (path : Path) :
    (t.put place content).origin path = t.origin path := by
  rw [origin, origin, put_home]

/-- What is found among files, if those at a place give way to one. -/
theorem lookup_map_replace (files : List (Place × ByteArray)) (place : Place) (content : ByteArray)
    (here : Place) :
    (files.map fun entry => if entry.1 = place then (place, content) else entry).lookup here =
      if here = place then (files.lookup here).map fun _ => content else files.lookup here := by
  induction files with
  | nil => simp
  | cons entry files ih =>
    rw [List.map_cons, List.lookup_cons, List.lookup_cons, ih]
    -- The entry gives way to the new file or stays, and either is asked for or is not.
    by_cases hentry : entry.1 = place
    · simp only [hentry, if_true]
      by_cases hhere : here = place
      · simp [hhere]
      · simp [hhere, beq_false_of_ne hhere]
    · simp only [hentry, if_false]
      cases hhere : here == entry.1 with
      | false => rfl
      | true =>
        have hne : here ≠ place := by
          rw [beq_iff_eq.mp hhere]
          exact hentry
        simp [hne]

/-- What is found among the files of a tree with one more file. -/
theorem lookup_put (t : Tree) (place : Place) (content : ByteArray) (here : Place) :
    (t.put place content).files.lookup here =
      if here = place then some content else t.files.lookup here := by
  rw [put]
  split
  case isTrue hany =>
    rw [lookup_map_replace]
    have hfound : (t.files.lookup place).isSome := by
      obtain ⟨entry, hmem, hentry⟩ := List.any_eq_true.mp hany
      exact List.lookup_isSome_iff.mpr ⟨entry, hmem, by rw [beq_iff_eq.mp hentry, beq_self_eq_true]⟩
    obtain ⟨old, hold⟩ := Option.isSome_iff_exists.mp hfound
    by_cases hplace : here = place
    · simp [hplace, hold]
    · simp [hplace]
  -- It was not there, and comes behind all others: what was found before is found first.
  case isFalse hany =>
    have hnone : t.files.lookup place = none := by
      refine List.lookup_eq_none_iff.mpr fun entry hmem => bne_iff_ne.mpr ?_
      rintro rfl
      exact hany (List.any_eq_true.mpr ⟨entry, hmem, beq_self_eq_true entry.1⟩)
    rw [List.lookup_append]
    by_cases hplace : here = place
    · simp [hplace, hnone]
    · simp [hplace, List.lookup_cons, beq_false_of_ne hplace]

theorem node?_put (t : Tree) (content : ByteArray) (here : Place)
    (h : t.isDirectoryAt place = false) :
    (t.put place content).node? here =
      if here = place then some (.file content) else t.node? here := by
  rw [node?_eq, node?_eq, isDirectoryAt_put, lookup_put]
  by_cases hplace : here = place
  · subst hplace
    simp [h]
  · simp [hplace]

theorem node?_put_self (content : ByteArray) (h : t.isDirectoryAt place = false) :
    (t.put place content).node? place = some (.file content) := by
  rw [node?_put t content place h, if_pos rfl]

/-- A walk that leads somewhere still leads there: what it passes does not vanish. -/
theorem walk_put {names : List Name} (content : ByteArray) (h : t.isDirectoryAt place = false)
    (hwalk : t.walk here names = .ok dir) : (t.put place content).walk here names = .ok dir := by
  -- Along the names: only a name that goes down (the last case) asks for more than directories.
  fun_induction walk t here names with
  | case1 here => exact hwalk
  | case2 here name names hdir => cases hwalk
  | case3 here name names hdir hstay ih =>
    rw [walk, isDirectoryAt_put, if_neg hdir, if_pos hstay]
    exact ih hwalk
  | case4 here names hdir hstay ih =>
    rw [walk, isDirectoryAt_put, if_neg hdir, if_neg hstay, if_pos rfl]
    exact ih hwalk
  | case5 => cases hwalk
  | case6 here name names hdir hstay hparent hfound ih =>
    -- What was a name in a directory is still there, if it is not the new file itself.
    have hfound' : ¬((t.put place content).node? (name :: here)).isNone := by
      rw [node?_put t content _ h]
      split
      · simp
      · exact hfound
    rw [walk, isDirectoryAt_put, if_neg hdir, if_neg hstay, if_neg hparent, if_neg hfound']
    exact ih hwalk

theorem walk_append (t : Tree) (here : Place) (names rest : List Name) :
    t.walk here (names ++ rest) = (t.walk here names).bind fun dir => t.walk dir rest := by
  fun_induction walk t here names with
  | case1 here => rfl
  | case2 here name names hdir =>
    rw [List.cons_append, walk, if_pos hdir]
    rfl
  | case3 here name names hdir hstay ih =>
    rw [List.cons_append, walk, if_neg hdir, if_pos hstay, ih]
  | case4 here names hdir hstay ih =>
    rw [List.cons_append, walk, if_neg hdir, if_neg hstay, if_pos rfl, ih]
  | case5 here name names hdir hstay hparent hfound =>
    rw [List.cons_append, walk, if_neg hdir, if_neg hstay, if_neg hparent, if_pos hfound]
    rfl
  | case6 here name names hdir hstay hparent hfound ih =>
    rw [List.cons_append, walk, if_neg hdir, if_neg hstay, if_neg hparent, if_neg hfound, ih]

/-! ### The place of a file to be written -/

/-- What an accepted path says: all of its segments but the last lead to a directory, and the
last is the name of a file in it. -/
structure Targets (t : Tree) (path : Path) (names : List Name) (name : Name) (dir : Place) :
    Prop where
  bytes_ne_nil : path.bytes ≠ []
  segments_eq : path.segments = names ++ [name]
  walk_eq : t.walk (t.origin path) names = .ok dir
  isDirectoryAt_dir : t.isDirectoryAt dir = true
  name_ne_nil : name ≠ []
  name_ne_current : name ≠ Name.current
  name_ne_parent : name ≠ Name.parent
  isDirectoryAt_file : t.isDirectoryAt (name :: dir) = false

theorem targets_of_target (h : t.target path = .ok place) :
    ∃ names name dir, t.Targets path names name dir ∧ place = name :: dir := by
  unfold target at h
  obtain ⟨hbytes, h⟩ := guard_eq_ok h
  split at h
  case h_1 => cases h
  case h_2 name names hnames =>
    obtain ⟨dir, hwalk, h⟩ := bind_eq_ok h
    obtain ⟨hdir, h⟩ := guard_eq_ok h
    obtain ⟨hname, h⟩ := guard_eq_ok h
    obtain rfl : name :: dir = place := Except.ok.inj h
    simp only [Bool.or_eq_true, decide_eq_true_eq, not_or, Bool.not_eq_true] at hname
    obtain ⟨⟨⟨hlast, hcurrent⟩, hparent⟩, hfile⟩ := hname
    -- Trailing slashes are dropped from the names, and here there are none.
    obtain ⟨names', name', hsegments, hne⟩ := Path.segments_eq_concat hbytes hlast
    obtain ⟨rfl, rfl⟩ : name' = name ∧ names'.reverse = names := by
      rw [hsegments, List.reverse_append, List.reverse_singleton, List.singleton_append,
        List.dropWhile_cons_of_neg (by simpa using hne)] at hnames
      exact List.cons.inj hnames
    rw [List.reverse_reverse] at hwalk
    refine ⟨names', name', dir, ?_, rfl⟩
    exact ⟨hbytes, hsegments, hwalk, by simpa using hdir, hne, hcurrent, hparent, hfile⟩

/-- The path leads to the file once it is there. -/
theorem Targets.resolve_put {names : List Name} {name : Name} (h : t.Targets path names name dir)
    (content : ByteArray) :
    (t.put (name :: dir) content).resolve path = .ok (name :: dir) := by
  have hfound := node?_put_self content h.isDirectoryAt_file
  have hlast : (t.put (name :: dir) content).walk dir [name] = .ok (name :: dir) := by
    simp [walk, h.isDirectoryAt_dir, h.name_ne_nil, h.name_ne_current, h.name_ne_parent, hfound]
  rw [resolve, if_neg h.bytes_ne_nil, h.segments_eq, origin_put, walk_append,
    walk_put content h.isDirectoryAt_file h.walk_eq]
  exact hlast

/-- A path that may be written to has a place, and the file is stored there. -/
theorem write_eq_ok_iff :
    t.write path content = .ok t' ↔ ∃ place, t.target path = .ok place ∧ t' = t.put place content := by
  constructor
  · intro h
    obtain ⟨place, htarget, hput⟩ := bind_eq_ok h
    exact ⟨place, htarget, (Except.ok.inj hput).symm⟩
  · rintro ⟨place, htarget, rfl⟩
    rw [write, htarget]
    rfl

/-- **What is written is what is read**, and the path names no directory. -/
theorem read_of_write (h : t.write path content = .ok t') :
    t'.read path = .ok content ∧ t'.isDirectory path = false := by
  obtain ⟨place, htarget, rfl⟩ := write_eq_ok_iff.mp h
  obtain ⟨names, name, dir, htargets, rfl⟩ := targets_of_target htarget
  have hresolve := htargets.resolve_put content
  constructor
  · have hfound := node?_put_self content htargets.isDirectoryAt_file
    simp [read, hresolve, hfound, bind, Except.bind, pure, Except.pure]
  · rw [isDirectory, hresolve]
    exact (isDirectoryAt_put t _ _ content).trans htargets.isDirectoryAt_file

/-- **One place changes**: the one that the path names from then on. -/
theorem frame_of_write (h : t.write path content = .ok t') :
    ∃ place, t.target path = .ok place ∧ t'.resolve path = .ok place ∧
      t'.node? place = some (.file content) ∧ (∀ here, here ≠ place → t'.node? here = t.node? here) ∧
      t'.directories = t.directories ∧ t'.home = t.home := by
  obtain ⟨place, htarget, rfl⟩ := write_eq_ok_iff.mp h
  obtain ⟨names, name, dir, htargets, rfl⟩ := targets_of_target htarget
  have hfile := htargets.isDirectoryAt_file
  refine ⟨name :: dir, htarget, htargets.resolve_put content, node?_put_self content hfile, ?_,
    put_directories t _ content, put_home t _ content⟩
  intro here hother
  rw [node?_put t content here hfile, if_neg hother]

end Tree
end TapeLang
