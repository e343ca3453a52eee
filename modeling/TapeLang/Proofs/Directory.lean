import Mathlib.Data.List.Basic
import Mathlib.Data.List.Nodup
import TapeLang.Library
import TapeLang.Proofs.Encoding
import TapeLang.Proofs.Lists
import TapeLang.Proofs.WrittenFile

/-!
# The files of a directory

A directory of a tree holds the files whose places are names in it (`Tree.filesIn`).  In a tree where
names are names and no two files share a place (`Tree.Sound`), each of these files is what is read
under the path of the directory and its name (`Sound.read_join`), and no path leads elsewhere if the
tree lists its files in another order (`Sound.resolve_relist`).  Writing a file keeps this up
(`Sound.write`).

The name of a file tells what the file holds for a library (`OfName`): it ends in a dot and one of two
extensions, and something stands before that dot.
-/

namespace TapeLang

/-! ### Names -/

namespace Name

variable {name stem extension : Name}

/-- What stands behind the last dot is the extension, if something stands before that dot. -/
theorem split_append (hstem : stem ≠ []) (hne : extension ≠ []) (hdot : dot ∉ extension) :
    split (stem ++ dot :: extension) = (stem, some extension) := by
  have hreverse : (stem ++ dot :: extension).reverse = extension.reverse ++ dot :: stem.reverse := by
    simp
  -- Read from the end, all bytes before the first dot are those of the extension.
  have hother : ∀ b ∈ extension.reverse, (b != dot) = true := fun b hb =>
    bne_iff_ne.mpr fun heq => hdot (heq ▸ List.mem_reverse.mp hb)
  have hparent : stem ++ dot :: extension ≠ parent := by
    intro heq
    have hlength := congrArg List.length heq
    have hstemLength := List.length_pos_iff.mpr hstem
    have hneLength := List.length_pos_iff.mpr hne
    simp only [List.length_append, List.length_cons, parent, List.length_nil] at hlength
    omega
  rw [split, hreverse, List.takeWhile_append_of_pos hother, List.dropWhile_append_of_pos hother,
    List.takeWhile_cons_of_neg (by simp), List.dropWhile_cons_of_neg (by simp)]
  simp [hstem, hparent]

/-- A name with an extension is a stem, a dot and the extension. -/
theorem eq_append_of_split (h : split name = (stem, some extension)) :
    stem ≠ [] ∧ name = stem ++ dot :: extension := by
  have hname : name.reverse =
      name.reverse.takeWhile (· != dot) ++ name.reverse.dropWhile (· != dot) :=
    List.takeWhile_append_dropWhile.symm
  have hdot : ∀ b before, name.reverse.dropWhile (· != dot) = b :: before → b = dot := by
    intro b before hdrop
    have hhead := List.head?_dropWhile_not (· != dot) name.reverse
    rw [hdrop] at hhead
    simpa using hhead
  rw [split] at h
  split at h
  case h_1 => cases h
  case h_2 b before hdrop =>
    split at h
    case isTrue => cases h
    case isFalse hbefore =>
      obtain ⟨rfl, hafter⟩ := Prod.mk.inj h
      obtain rfl := Option.some.inj hafter
      rw [Bool.or_eq_true, decide_eq_true_eq, decide_eq_true_eq, not_or] at hbefore
      refine ⟨by simpa using hbefore.1, ?_⟩
      rw [hdrop, hdot b before hdrop] at hname
      -- Turned round again, the parts of the reversed name are those of the name.
      calc name = name.reverse.reverse := List.reverse_reverse name |>.symm
        _ = (name.reverse.takeWhile (· != dot) ++ dot :: before).reverse := congrArg _ hname
        _ = _ := by simp

theorem extension?_eq_some_iff (hne : extension ≠ []) (hdot : dot ∉ extension) :
    name.extension? = some extension ∧ name.stem = stem ↔
      stem ≠ [] ∧ name = stem ++ dot :: extension := by
  constructor
  · rintro ⟨hextension, hstem⟩
    exact eq_append_of_split (Prod.ext hstem hextension)
  · rintro ⟨hstem, rfl⟩
    have hsplit := split_append hstem hne hdot
    exact ⟨congrArg Prod.snd hsplit, congrArg Prod.fst hsplit⟩

/-- The name of a file is one that a path takes for nothing else. -/
structure IsFileName (name : Name) : Prop where
  ne_nil : name ≠ []
  ne_current : name ≠ current
  ne_parent : name ≠ parent
  slash_not_mem : slash ∉ name

instance (name : Name) : Decidable name.IsFileName :=
  decidable_of_iff (name ≠ [] ∧ name ≠ current ∧ name ≠ parent ∧ slash ∉ name)
    ⟨fun ⟨hne, hcurrent, hparent, hslash⟩ => ⟨hne, hcurrent, hparent, hslash⟩,
      fun ⟨hne, hcurrent, hparent, hslash⟩ => ⟨hne, hcurrent, hparent, hslash⟩⟩

end Name

namespace Library

/-! ### What a name tells -/

/-- The file of this name holds the text of a macro or constants: something, a dot and the
extension.  A macro is named by what stands before the dot. -/
def OfName (name : Name) : Source → Prop
  | .constants => ∃ stem, stem ≠ [] ∧ name = stem ++ dot :: constantsExtension
  | .text stem => stem ≠ "" ∧ name = Name.ofString stem ++ dot :: textExtension

theorem ofString_eq_nil_iff {text : String} : Name.ofString text = [] ↔ text = "" := by
  constructor
  · intro h
    have hread : Name.toString? [] = some text := Name.toString?_eq_some_iff.mpr h.symm
    have hempty : Name.toString? [] = some "" := Name.toString?_eq_some_iff.mpr (by decide +kernel)
    exact Option.some.inj (hread.symm.trans hempty)
  · rintro rfl
    decide +kernel

/-- **What the file of a name holds** is what its name tells. -/
theorem source?_eq_some_iff {name : Name} {source : Source} :
    source? name = some source ↔ OfName name source := by
  have hparts : ∀ extension : Name, extension ≠ [] → dot ∉ extension → ∀ stem,
      (stem ≠ [] ∧ name = stem ++ dot :: extension) ↔
        name.extension? = some extension ∧ name.stem = stem :=
    fun _ hne hdot _ => (Name.extension?_eq_some_iff hne hdot).symm
  have hdiffer : textExtension ≠ constantsExtension := by decide +kernel
  cases source with
  | constants =>
    simp only [OfName, hparts constantsExtension (by decide +kernel) (by decide +kernel),
      exists_and_left, exists_eq', and_true]
    rw [source?]
    split
    case isTrue hconstants => exact iff_of_true rfl hconstants
    case isFalse hother =>
      refine iff_of_false ?_ hother
      split <;> simp
  | text stem =>
    rw [OfName, ne_eq, ← ofString_eq_nil_iff, ← ne_eq,
      hparts textExtension (by decide +kernel) (by decide +kernel), source?]
    split
    case isTrue hconstants =>
      refine iff_of_false (by simp) fun ⟨htext, _⟩ => hdiffer ?_
      exact Option.some.inj (htext.symm.trans hconstants)
    case isFalse =>
      split
      case isTrue htext => simp [htext, Name.toString?_eq_some_iff]
      case isFalse hother => exact iff_of_false (by simp) fun ⟨htext, _⟩ => hother htext

end Library

/-! ### Paths into a directory -/

/-- The path of a name in a directory has the name behind the segments of the directory, but for
an empty last one. -/
theorem Path.segments_join {dir : Path} {name : Name} (hdir : dir.bytes ≠ []) (hname : slash ∉ name) :
    ∃ names, (dir.join name).segments = names ++ [name] ∧
      (dir.segments = names ∨ dir.segments = names ++ [[]]) := by
  rw [join]
  split
  -- A directory may be given with a slash at its end, and no other one is put behind it.
  case isTrue hlast =>
    obtain ⟨front, hfront⟩ : ∃ front, dir.bytes = front ++ [slash] := by
      simpa [hdir, List.getLast?_eq_some_iff] using hlast
    refine ⟨front.splitOn slash, ?_, .inr ?_⟩
    · rw [segments, hfront, List.append_assoc, List.singleton_append, List.splitOn_append_cons_self,
        List.splitOn_eq_singleton hname]
    · rw [segments, hfront, List.splitOn_append_cons_self, List.splitOn_nil]
  case isFalse =>
    refine ⟨dir.segments, ?_, .inl rfl⟩
    rw [segments, List.splitOn_append_cons_self, List.splitOn_eq_singleton hname, segments]

theorem Path.isAbsolute_join {dir : Path} (name : Name) (hdir : dir.bytes ≠ []) :
    (dir.join name).isAbsolute = dir.isAbsolute := by
  obtain ⟨b, bytes, hbytes⟩ := List.exists_cons_of_ne_nil hdir
  rw [join]
  split <;> simp [isAbsolute, hbytes]

namespace Tree

variable {t t' : Tree} {place : Place} {dir : Path} {name : Name} {content : ByteArray}
  {listing : List (Place × ByteArray)}

/-! ### The files of a directory -/

/-- The name and the bytes of a file, if it lies in the directory. -/
def inDirectory? (place : Place) (entry : Place × ByteArray) : Option (Name × ByteArray) :=
  match entry.1 with
  | name :: dir => if dir = place then some (name, entry.2) else none
  | [] => none

theorem inDirectory?_eq_some_iff {entry : Place × ByteArray} {file : Name × ByteArray} :
    inDirectory? place entry = some file ↔ entry = (file.1 :: place, file.2) := by
  obtain ⟨_ | ⟨name, dir⟩, content⟩ := entry
  · simp [inDirectory?]
  · obtain ⟨name', content'⟩ := file
    simp only [inDirectory?, Option.ite_none_right_eq_some, Option.some.injEq, Prod.mk.injEq,
      List.cons.injEq]
    exact ⟨fun ⟨hdir, hname, hcontent⟩ => ⟨⟨hname, hdir⟩, hcontent⟩,
      fun ⟨⟨hname, hdir⟩, hcontent⟩ => ⟨hdir, hname, hcontent⟩⟩

/-- The files of a directory, by their names, in the order in which the tree lists them. -/
def filesIn (t : Tree) (place : Place) : List (Name × ByteArray) :=
  t.files.filterMap (inDirectory? place)

theorem mem_filesIn_iff : (name, content) ∈ t.filesIn place ↔ (name :: place, content) ∈ t.files := by
  simp only [filesIn, List.mem_filterMap, inDirectory?_eq_some_iff, exists_eq_right]

theorem regularFiles_eq (hdir : t.resolve dir = .ok place) (hplace : t.isDirectoryAt place = true) :
    t.regularFiles dir = .ok ((t.filesIn place).map Prod.fst) := by
  rw [regularFiles, hdir]
  simp only [bind, Except.bind, hplace, Bool.not_true, Bool.false_eq_true, if_false]
  refine congrArg Except.ok ?_
  rw [filesIn, List.map_filterMap]
  refine List.filterMap_congr fun entry _ => ?_
  rw [inDirectory?]
  rcases entry.1 with _ | ⟨name, here⟩
  · rfl
  · dsimp only
    split <;> rfl

/-- Names are names, and files are files: no two files share a place, and no file is at the place
of a directory. -/
structure Sound (t : Tree) : Prop where
  nodup : (t.files.map Prod.fst).Nodup
  isDirectoryAt_file : ∀ entry ∈ t.files, t.isDirectoryAt entry.1 = false
  isFileName : ∀ entry ∈ t.files, ∀ name ∈ entry.1.head?, Name.IsFileName name

/-- Files of one directory have different names. -/
theorem Sound.nodup_filesIn (h : t.Sound) (place : Place) :
    ((t.filesIn place).map Prod.fst).Nodup := by
  refine List.pairwise_map.mpr (List.pairwise_filterMap.mpr ?_)
  refine (List.pairwise_map.mp h.nodup).imp fun hne file hfile other hother hsame => hne ?_
  rw [inDirectory?_eq_some_iff.mp hfile, inDirectory?_eq_some_iff.mp hother, hsame]

theorem Sound.node?_eq (h : t.Sound) (hmem : (place, content) ∈ t.files) :
    t.node? place = some (.file content) := by
  rw [Tree.node?_eq, h.isDirectoryAt_file _ hmem, (lookup_eq_some_iff_mem h.nodup).mpr hmem]
  rfl

/-- The path of a file in a directory leads to the file. -/
theorem Sound.resolve_join (h : t.Sound) (hdir : t.resolve dir = .ok place)
    (hplace : t.isDirectoryAt place = true) (hmem : (name, content) ∈ t.filesIn place) :
    t.resolve (dir.join name) = .ok (name :: place) := by
  have hfile := mem_filesIn_iff.mp hmem
  obtain ⟨hne, hcurrent, hparent, hslash⟩ := h.isFileName _ hfile name rfl
  rw [resolve] at hdir
  split at hdir
  case isTrue => cases hdir
  case isFalse hbytes =>
    obtain ⟨names, hjoin, hsegments⟩ := Path.segments_join hbytes hslash
    -- An empty last segment stays at the place, and so the walk is that without it.
    have hwalk : t.walk (t.origin dir) names = .ok place := by
      obtain hsegments | hsegments := hsegments
      · rwa [hsegments] at hdir
      · rw [hsegments, walk_append] at hdir
        obtain ⟨here, hwalk, hlast⟩ := bind_eq_ok hdir
        rw [walk] at hlast
        split at hlast
        case isTrue => cases hlast
        case isFalse =>
          obtain rfl : here = place := Except.ok.inj hlast
          exact hwalk
    have hname : t.walk place [name] = .ok (name :: place) := by
      simp [walk, hplace, hne, hcurrent, hparent, h.node?_eq hfile]
    have horigin : t.origin (dir.join name) = t.origin dir := by
      rw [origin, origin, Path.isAbsolute_join name hbytes]
    -- The joined path is not empty, hence no error before the walk.
    have hjoinBytes : (dir.join name).bytes ≠ [] := by
      rw [Path.join]
      split <;> simp [hbytes]
    rw [resolve, if_neg hjoinBytes, hjoin, horigin, walk_append, hwalk]
    exact hname

/-- **What is read under the path of a file** is what the directory holds under its name. -/
theorem Sound.read_join (h : t.Sound) (hdir : t.resolve dir = .ok place)
    (hplace : t.isDirectoryAt place = true) (hmem : (name, content) ∈ t.filesIn place) :
    t.read (dir.join name) = .ok content := by
  rw [read, h.resolve_join hdir hplace hmem]
  simp [h.node?_eq (mem_filesIn_iff.mp hmem), bind, Except.bind, pure, Except.pure]

/-! ### Files that are written -/

theorem mem_files_put {entry : Place × ByteArray} (hmem : entry ∈ (t.put place content).files) :
    entry ∈ t.files ∨ entry = (place, content) := by
  rw [put] at hmem
  split at hmem
  · obtain ⟨old, hold, rfl⟩ := List.mem_map.mp hmem
    split
    · exact .inr rfl
    · exact .inl hold
  · obtain hold | hnew := List.mem_append.mp hmem
    · exact .inl hold
    · exact .inr (List.mem_singleton.mp hnew)

theorem nodup_put (h : (t.files.map Prod.fst).Nodup) (place : Place) (content : ByteArray) :
    ((t.put place content).files.map Prod.fst).Nodup := by
  rw [put]
  split
  case isTrue =>
    have hplaces : (t.files.map fun entry => if entry.1 = place then (place, content) else entry).map
        Prod.fst = t.files.map Prod.fst := by
      rw [List.map_map]
      refine List.map_congr_left fun entry _ => ?_
      by_cases hentry : entry.1 = place <;> simp [hentry]
    rwa [hplaces]
  case isFalse hnone =>
    rw [List.map_append, List.nodup_append]
    refine ⟨h, List.nodup_singleton _, fun here hhere other hother heq => hnone ?_⟩
    obtain ⟨entry, hmem, rfl⟩ := List.mem_map.mp hhere
    obtain rfl := List.mem_singleton.mp hother
    exact List.any_eq_true.mpr ⟨entry, hmem, beq_iff_eq.mpr heq⟩

/-- Writing a file keeps a tree sound. -/
theorem Sound.write {path : Path} (h : t.Sound) (hwrite : t.write path content = .ok t') :
    t'.Sound := by
  obtain ⟨target, htarget, rfl⟩ := write_eq_ok_iff.mp hwrite
  obtain ⟨names, name, here, htargets, rfl⟩ := targets_of_target htarget
  -- The name is a segment of the path, and no segment has a slash.
  have hslash : slash ∉ name := by
    have hmem : name ∈ path.segments := by simp [htargets.segments_eq]
    exact fun hc => (of_mem_splitOn hmem slash hc).2 rfl
  have hname : name.IsFileName :=
    ⟨htargets.name_ne_nil, htargets.name_ne_current, htargets.name_ne_parent, hslash⟩
  refine ⟨nodup_put h.nodup _ _, fun entry hmem => ?_, fun entry hmem => ?_⟩
  · rw [isDirectoryAt_put]
    obtain hold | rfl := mem_files_put hmem
    · exact h.isDirectoryAt_file entry hold
    · exact htargets.isDirectoryAt_file
  · obtain hold | rfl := mem_files_put hmem
    · exact h.isFileName entry hold
    · rintro _ ⟨⟩
      exact hname

/-! ### Another order of the files -/

theorem walk_congr (h : ∀ place, t'.node? place = t.node? place) (here : Place) (names : List Name) :
    t'.walk here names = t.walk here names := by
  have hdirectory : ∀ place, t'.isDirectoryAt place = t.isDirectoryAt place := fun place => by
    rw [isDirectoryAt, isDirectoryAt, h]
  induction names generalizing here with
  | nil => rfl
  | cons name names ih => simp only [walk, hdirectory, h, ih]

section

variable (h : t.Sound) (hlisting : listing.Perm t.files)
include h hlisting

theorem Sound.node?_relist (place : Place) :
    { t with files := listing }.node? place = t.node? place := by
  have hnodup : (listing.map Prod.fst).Nodup := (hlisting.map Prod.fst).nodup_iff.mpr h.nodup
  have hlookup : listing.lookup place = t.files.lookup place := by
    refine Option.ext fun content => ?_
    rw [lookup_eq_some_iff_mem hnodup, lookup_eq_some_iff_mem h.nodup, hlisting.mem_iff]
  rw [node?, node?, hlookup]

theorem Sound.isDirectoryAt_relist (place : Place) :
    { t with files := listing }.isDirectoryAt place = t.isDirectoryAt place := by
  rw [isDirectoryAt, isDirectoryAt, h.node?_relist hlisting]

/-- The files may be listed in any order. -/
theorem Sound.relist : { t with files := listing }.Sound where
  nodup := (hlisting.map Prod.fst).nodup_iff.mpr h.nodup
  isDirectoryAt_file entry hmem := by
    rw [h.isDirectoryAt_relist hlisting]
    exact h.isDirectoryAt_file entry (hlisting.mem_iff.mp hmem)
  isFileName entry hmem := h.isFileName entry (hlisting.mem_iff.mp hmem)

theorem Sound.resolve_relist (path : Path) :
    { t with files := listing }.resolve path = t.resolve path := by
  rw [resolve, resolve, walk_congr (h.node?_relist hlisting)]
  rfl

end

theorem filesIn_relist (hlisting : listing.Perm t.files) (place : Place) :
    ({ t with files := listing }.filesIn place).Perm (t.filesIn place) :=
  hlisting.filterMap _

end Tree
end TapeLang
