import TapeLang.Files.Basic

/-!
# File trees

A tree of files and directories with a working directory in it, and paths looked up in the tree.  A
place is the list of names that lead there from the root, the last one first; the root is the empty
list.

A path is walked name by name, from the root if it is absolute and else from the working directory.
Empty names and `.` stay, `..` goes up (and stays at the root), any other name must exist, and
nothing but a directory may have names behind it.
-/

namespace TapeLang

/-- A place in a tree: names, the last one first. -/
abbrev Place := List Name

inductive Node
  | directory
  | file (content : ByteArray)

/-- A tree of files. -/
@[ext]
structure Tree where
  /-- The files and their places. -/
  files : List (Place × ByteArray) := []
  /-- The places of the directories.  The working directory and those above it may be left out. -/
  directories : List Place := []
  home : Place := []
  deriving Inhabited

namespace Tree

def node? (t : Tree) (place : Place) : Option Node :=
  if place.isSuffixOf t.home || t.directories.contains place then some .directory
  else (t.files.lookup place).map .file

def isDirectoryAt (t : Tree) (place : Place) : Bool :=
  match t.node? place with
  | some .directory => true
  | _ => false

/-- The place that names lead to from `here`, which exists. -/
def walk (t : Tree) (here : Place) : List Name → Except Fault Place
  | [] => .ok here
  | name :: names =>
    -- A name is looked up in a directory only, `.` and `..` included.
    if !t.isDirectoryAt here then .error .notDirectory
    else if name = [] || name = Name.current then walk t here names
    else if name = Name.parent then walk t here.tail names
    else if (t.node? (name :: here)).isNone then .error .notFound
    else walk t (name :: here) names

/-- The place where the walk of a path starts. -/
def origin (t : Tree) (path : Path) : Place := if path.isAbsolute then [] else t.home

def resolve (t : Tree) (path : Path) : Except Fault Place :=
  if path.bytes = [] then .error .notFound else t.walk (t.origin path) path.segments

/-! ### The operations -/

/-- The path names a directory. -/
def isDirectory (t : Tree) (path : Path) : Bool :=
  match t.resolve path with
  | .ok place => t.isDirectoryAt place
  | .error _ => false

def regularFiles (t : Tree) (path : Path) : Except Fault (List Name) := do
  let place ← t.resolve path
  if !t.isDirectoryAt place then throw .notDirectory
  return t.files.filterMap fun entry =>
    match entry.1 with
    | name :: dir => if dir = place then some name else none
    | [] => none

def read (t : Tree) (path : Path) : Except Fault ByteArray := do
  let place ← t.resolve path
  match t.node? place with
  | some (.file content) => return content
  | some .directory => throw .isDirectory
  | none => throw .notFound

/-- The tree with a file of these bytes at a place, in the place of the file there if there is
one. -/
def put (t : Tree) (place : Place) (content : ByteArray) : Tree :=
  if t.files.any (·.1 == place) then
    { t with files := t.files.map fun entry => if entry.1 = place then (place, content) else entry }
  else { t with files := t.files ++ [(place, content)] }

/-- The place that a path gives to a file to be written.  All but the last name must lead to a
directory.  A path that ends in a slash, in `.` or in `..` can only name a directory, which is
refused. -/
def target (t : Tree) (path : Path) : Except Fault Place := do
  if path.bytes = [] then throw .notFound
  match path.segments.reverse.dropWhile (· = []) with
  | [] => throw .isDirectory
  | name :: names =>
    let dir ← t.walk (t.origin path) names.reverse
    if !t.isDirectoryAt dir then throw .notDirectory
    let place := name :: dir
    if path.bytes.getLast? = some slash || name = Name.current || name = Name.parent ||
        t.isDirectoryAt place then
      throw .isDirectory
    return place

def write (t : Tree) (path : Path) (content : ByteArray) : Except Fault Tree := do
  return t.put (← t.target path) content

/-- The tree with the directory that names lead to from `here`, and all above it. -/
def makeDirectories (t : Tree) (here : Place) : List Name → Tree × Place
  | [] => (t, here)
  | name :: names =>
    if name = [] || name = Name.current then makeDirectories t here names
    else if name = Name.parent then makeDirectories t here.tail names
    else
      let place := name :: here
      let t := if t.directories.contains place then t
        else { t with directories := t.directories ++ [place] }
      makeDirectories t place names

/-- The tree with a file at a path, and the directories above it. -/
def addFile (t : Tree) (path : Path) (content : ByteArray) : Tree :=
  match path.segments.reverse.dropWhile (· = []) with
  | [] => t
  | name :: names =>
    let (t, dir) := t.makeDirectories (t.origin path) names.reverse
    t.put (name :: dir) content

/-- Access to the files of a tree. -/
def access : Files (StateM Tree) where
  isDirectory path := do return (← get).isDirectory path
  regularFiles path := do return (← get).regularFiles path
  read path := do return (← get).read path
  write path content := do
    match (← get).write path content with
    | .ok t =>
      set t
      return .ok ()
    | .error fault => return .error fault

end Tree
end TapeLang
