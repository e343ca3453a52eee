import TapeLang.Text.Utf8

/-!
# Paths and access to files

A path is a string of bytes, with `/` between its segments.  It is shown as text by
`Path.display`, whatever its bytes.  The last segment that is not empty names the file; its part
after the last dot is the extension, unless nothing stands before that dot.

What a program needs of a file system is a record of four operations in a monad (`Files`): the tree
of `TapeLang.Files.Tree` provides them, and so does the running system.  A `Fault` is the reason why
one of them was refused.
-/

namespace TapeLang

/-! ### Paths -/

/-- A name in a directory: bytes without `/`. -/
abbrev Name := List UInt8

/-- A path: bytes that name a place in the file system. -/
structure Path where
  bytes : List UInt8
  deriving DecidableEq, Repr, Inhabited

def slash : UInt8 := 0x2F

def dot : UInt8 := 0x2E

namespace Name

/-- The name that stands for the directory itself. -/
def current : Name := [dot]

/-- The name that stands for the directory above. -/
def parent : Name := [dot, dot]

def ofString (s : String) : Name := s.toUTF8.toList

/-- The stem and the extension of a name.  The last dot parts them; a name without a dot, or with
nothing in front of its last one, is all stem. -/
def split (name : Name) : Name × Option Name :=
  let after := (name.reverse.takeWhile (· != dot)).reverse
  match name.reverse.dropWhile (· != dot) with
  | [] => (name, none)
  | _ :: before => if before = [] || name = parent then (name, none) else (before.reverse, some after)

def stem (name : Name) : Name := name.split.1

def extension? (name : Name) : Option Name := name.split.2

def toString? (name : Name) : Option String := Text.Utf8.decode? name.toByteArray

end Name

namespace Path

def ofString (s : String) : Path := ⟨s.toUTF8.toList⟩

/-- The path as text; bytes that are no UTF-8 are shown as replacement characters. -/
def display (p : Path) : String := String.ofList (Text.Utf8.decodeLossy p.bytes)

def isAbsolute (p : Path) : Bool := p.bytes.head? == some slash

/-- The names between slashes, empty ones included. -/
def segments (p : Path) : List Name := p.bytes.splitOn slash

/-- The path of a name in a directory. -/
def join (dir : Path) (name : Name) : Path :=
  if dir.bytes = [] || dir.bytes.getLast? == some slash then ⟨dir.bytes ++ name⟩
  else ⟨dir.bytes ++ slash :: name⟩

/-- Bytes of a path, last one first, without the slashes and `/.` at its end. -/
def dropTrailing : List UInt8 → List UInt8
  | [] => []
  | [b] => if b = slash then [] else [b]
  | b :: c :: rest =>
    if b = slash then dropTrailing (c :: rest)
    else if b = dot && c = slash then dropTrailing rest
    else b :: c :: rest

/-- The path without its trailing `/` and `/.`; the root stays. -/
def trimmed (p : Path) : Path :=
  match dropTrailing p.bytes.reverse with
  | [] => if p.isAbsolute then ⟨[slash]⟩ else ⟨[]⟩
  | rest => ⟨rest.reverse⟩

/-- The path with more text at its end. -/
def append (p : Path) (text : String) : Path := ⟨p.bytes ++ text.toUTF8.toList⟩

def fileName? (p : Path) : Option Name :=
  p.trimmed.segments.getLast?.filter fun name =>
    name ≠ [] && name ≠ Name.current && name ≠ Name.parent

def extension? (p : Path) : Option Name := p.fileName?.bind Name.extension?

end Path

/-! ### Access -/

/-- Why a path could not be listed, read or written. -/
inductive Fault
  | notFound
  /-- A name is looked up in something that is no directory. -/
  | notDirectory
  /-- A directory is read or written as a file. -/
  | isDirectory
  | notText
  /-- A reason that only the running system knows. -/
  | other (text : String)
  deriving DecidableEq, Repr

def Fault.message : Fault → String
  | notFound => "No such file or directory (os error 2)"
  | notDirectory => "Not a directory (os error 20)"
  | isDirectory => "Is a directory (os error 21)"
  | notText => "stream did not contain valid UTF-8"
  | other text => text

/-- Access to files from the monad `m`. -/
structure Files (m : Type → Type) where
  /-- The path names a directory. -/
  isDirectory : Path → m Bool
  /-- The names of the regular files in a directory, in any order. -/
  regularFiles : Path → m (Except Fault (List Name))
  /-- The bytes of a file. -/
  read : Path → m (Except Fault ByteArray)
  /-- Store bytes in a file, new or not. -/
  write : Path → ByteArray → m (Except Fault Unit)

end TapeLang
