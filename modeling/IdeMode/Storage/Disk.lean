import IdeMode.Storage.Path
import IdeMode.Table
import IdeMode.Text.Lines
import IdeMode.Text.Utf8
set_option autoImplicit false

/-!
# The file system

Files with their bytes, and directories. Text files are UTF-8; reading one turns every line
terminator into a newline, and writing one changes nothing.
-/

namespace IdeMode

/-- Why a file cannot be used. -/
inductive FileFault where
  /-- there is none -/
  | missing
  /-- it is a directory -/
  | isDirectory
  /-- a directory on the way to it is a file -/
  | notDirectory
  /-- it does not hold UTF-8 -/
  | undecodable
  /-- what is to be written has no UTF-8 form -/
  | unencodable
  deriving DecidableEq, Repr

/-- The files and directories that exist. -/
structure Disk where
  files : Table Path (List UInt8) := []
  directories : List Path := []
  deriving Repr

namespace Disk

/-- The bytes of a file. -/
def file? (d : Disk) (p : Path) : Option (List UInt8) := d.files.get? p

/-- The path is a directory; the root is one. -/
def isDirectory (d : Disk) (p : Path) : Bool := p = Path.root || d.directories.contains p

/-- The path is a file or a directory. -/
def holds (d : Disk) (p : Path) : Bool := d.isDirectory p || (d.file? p).isSome

/-- The directories above a path, from the root down. -/
def ancestors (p : Path) : List Path := (List.range p.parts.length).map fun n => ⟨p.parts.take n⟩

/-- Why there is no file at a path. -/
def absence (d : Disk) (p : Path) : FileFault :=
  if d.isDirectory p then .isDirectory
  else if (ancestors p).any fun a => (d.file? a).isSome then .notDirectory
  else .missing

/-- The bytes of a file, or why there are none. -/
def read (d : Disk) (p : Path) : Except FileFault (List UInt8) :=
  match d.file? p with
  | some bytes => .ok bytes
  | none => .error (d.absence p)

/-- The text of a file, or why there is none. -/
def readText (d : Disk) (p : Path) : Except FileFault (List Char) :=
  match d.read p with
  | .error fault => .error fault
  | .ok bytes =>
    match Text.Utf8.decode? bytes with
    | some cs => .ok (Text.normalizeNewlines cs)
    | none => .error .undecodable

/-- Writes a file into an existing directory, all of it or nothing: that the device may be full is
left out. -/
def write (d : Disk) (p : Path) (bytes : List UInt8) : Except FileFault Disk :=
  if (d.file? p).isSome ∨ (d.isDirectory p.parent ∧ ¬ d.isDirectory p) then
    .ok { d with files := d.files.set p bytes }
  else .error (d.absence p)

/-- Writes a text file. -/
def writeText (d : Disk) (p : Path) (cs : List Char) : Except FileFault Disk :=
  d.write p (Text.Utf8.encode cs)

/-- Makes a directory and those above it. -/
def makeDirectory (d : Disk) (p : Path) : Disk :=
  let missing := (ancestors p ++ [p]).filter fun a => !d.isDirectory a
  { d with directories := d.directories ++ missing }

/-- Puts a file where it is to be, together with the directories above it. -/
def place (d : Disk) (p : Path) (bytes : List UInt8) : Disk :=
  let d := d.makeDirectory p.parent
  { d with files := d.files.set p bytes }

/-- Removes a file. -/
def delete (d : Disk) (p : Path) : Disk := { d with files := d.files.erase p }

/-- What became of files between two states: the new bytes of those written, and none for those
removed. -/
def changes (old new : Disk) : List (Path × Option (List UInt8)) :=
  (new.files.filterMap fun f => if old.file? f.1 = some f.2 then none else some (f.1, some f.2)) ++
    old.files.filterMap fun f => if (new.file? f.1).isNone then some (f.1, none) else none

/-! ## Laws -/

/-- After a write the file holds what was written, and the others hold what they held. -/
theorem file?_write {d d' : Disk} {p : Path} {bytes : List UInt8}
    (h : d.write p bytes = .ok d') (q : Path) :
    d'.file? q = if p = q then some bytes else d.file? q := by
  unfold write at h
  split at h
  · cases h
    exact Table.get?_set d.files p q bytes
  · cases h

end Disk

end IdeMode
