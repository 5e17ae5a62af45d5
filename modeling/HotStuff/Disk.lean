import HotStuff.Bytes
import HotStuff.Path
import HotStuff.Table

/-!
# Files and Directories

What is found under each path. The directory that a file is written to is taken to be there; only
`Disk.createDirectories` looks at what is above a path.
-/

namespace HotStuff

/-- What is found under a path. -/
inductive DiskEntry where
  | file (content : Bytes)
  | directory
  deriving DecidableEq, Repr

/-- Why a file operation fails. -/
inductive DiskFault where
  | notFound
  | refused
  deriving DecidableEq, Repr

/-- The files and directories by their paths. -/
structure Disk where
  entries : Table Path DiskEntry

namespace Disk

/-- No file and no directory. -/
def empty : Disk := ⟨∅⟩

instance : Inhabited Disk := ⟨empty⟩

variable (d : Disk)

/-- The content of a file. -/
def read (p : Path) : Except DiskFault Bytes :=
  match d.entries.get? p with
  | some (.file content) => .ok content
  | some .directory => .error .refused
  | none => .error .notFound

/-- Makes a path a file with some content. -/
def putFile (p : Path) (content : Bytes) : Disk := ⟨d.entries.insert p (.file content)⟩

/-- Puts content into a file, whether it is there or not. -/
def write (p : Path) (content : Bytes) : Except DiskFault Disk :=
  match d.entries.get? p with
  | some .directory => .error .refused
  | _ => .ok (d.putFile p content)

/-- Moves a file to another path, in place of a file there. -/
def rename (source target : Path) : Except DiskFault Disk :=
  match d.entries.get? source, d.entries.get? target with
  | none, _ => .error .notFound
  | some _, some .directory => .error .refused
  | some entry, _ => .ok ⟨(d.entries.erase source).insert target entry⟩

/-- Removes whatever is under a path. -/
def remove (p : Path) : Disk := ⟨d.entries.erase p⟩

/-- Whether there is a file under a path. -/
def isFile (p : Path) : Bool :=
  match d.entries.get? p with
  | some (.file _) => true
  | _ => false

/-- Makes a path a directory. -/
def putDirectory (p : Path) : Disk := ⟨d.entries.insert p .directory⟩

/-- Makes a path and all above it directories, unless one of them is a file. -/
def createDirectories (p : Path) : Except DiskFault Disk :=
  if p.ancestors.any d.isFile then .error .refused
  else .ok (p.ancestors.foldl putDirectory d)

end Disk

end HotStuff
