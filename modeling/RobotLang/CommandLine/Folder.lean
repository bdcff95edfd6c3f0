/-
  RobotLang.CommandLine.Folder
  ────────────────────────────
  **FILES TO READ AND WRITE.**

  The command reads and writes files through `Files`, so the same command
  runs on a disk and on a `Folder` held in memory.  In a folder, whatever
  stands above a file is a directory.

  A path is followed name by name.  Every name but the last has to lead to a
  directory, also `.` and `..`, so that nothing can be reached through a file
  or through something that is not there:

      a/.      where `a` is a file      not a directory
      n/..     where `n` is missing     not found

  Only then the last name decides.  A slash after it asks for a directory,
  which can be neither read nor written.
-/
import RobotLang.Binary
import RobotLang.Path

namespace RobotLang.CommandLine

/-! ## §1. Access to files. -/

/-- Why a file could not be read or written. -/
inductive FileError where
  | notFound
  | notDirectory
  | isDirectory
  | nameTooLong
  | other (text : String)
  deriving DecidableEq, Repr

/-- The error as the system words it. -/
def FileError.message : FileError → String
  | .notFound => "No such file or directory (os error 2)"
  | .notDirectory => "Not a directory (os error 20)"
  | .isDirectory => "Is a directory (os error 21)"
  | .nameTooLong => "File name too long (os error 36)"
  | .other text => text

/-- How files are read and written. -/
structure Files (m : Type → Type) where
  read : String → m (Except FileError Binary.Bytes)
  write : String → Binary.Bytes → m (Except FileError Unit)

/-! ## §2. Folders. -/

/-- Files by the names that lead to them. -/
structure Folder where
  files : List (List String × Binary.Bytes)

/-- A directory that a path can lead through. -/
inductive Directory where
  /-- In the folder, by the names that lead there; none lead to the folder
  itself. -/
  | inside (place : List String)
  /-- Above the folder or at the root.  Nothing is known to be in it. -/
  | outside
  deriving DecidableEq, Repr

/-- The directory above. -/
def Directory.parent : Directory → Directory
  | .inside [] => .outside
  | .inside (name :: names) => .inside (name :: names).dropLast
  | .outside => .outside

/-- What a name in a directory stands for. -/
inductive Item where
  | absent
  | file (bytes : Binary.Bytes)
  | directory (d : Directory)
  deriving DecidableEq, Repr

namespace Folder

/-- There is a file below that place, which is therefore a directory. -/
def hasBelow (folder : Folder) (place : List String) : Bool :=
  folder.files.any fun (name, _) => place != name && place.isPrefixOf name

/-- What stands at a place in the folder. -/
def itemAt (folder : Folder) (place : List String) : Item :=
  match folder.files.lookup place with
  | some bytes => .file bytes
  | none => if folder.hasBelow place then .directory (.inside place) else .absent

/-- The most bytes that a name can have. -/
def maxName : Nat := 255

/-- What `name` stands for in the directory `d`. -/
def look (folder : Folder) (d : Directory) (name : String) : Except FileError Item :=
  if name = "." then .ok (.directory d)
  else if name = ".." then .ok (.directory d.parent)
  else if maxName < name.utf8ByteSize then .error .nameTooLong
  else
    match d with
    | .inside place => .ok (folder.itemAt (place ++ [name]))
    | .outside => .ok .absent

/-- The directory that `name` leads to from `d`. -/
def enter (folder : Folder) (d : Directory) (name : String) : Except FileError Directory := do
  match ← folder.look d name with
  | .absent => throw .notFound
  | .file _ => throw .notDirectory
  | .directory d' => return d'

/-! ## §3. Following a path. -/

/-- The most bytes that a path can have. -/
def maxPath : Nat := 4095

/-- The directory that all names but the last lead to, and the last name.  A
path of slashes alone has none. -/
def follow (folder : Folder) (path : String) : Except FileError (Directory × Option String) := do
  if maxPath < path.utf8ByteSize then throw .nameTooLong
  let start : Directory := if Path.isAbsolute path then .outside else .inside []
  let names := Path.steps path
  return (← names.dropLast.foldlM folder.enter start, names.getLast?)

/-- The bytes of a file. -/
def read (folder : Folder) (path : String) : Except FileError Binary.Bytes := do
  let (d, last) ← folder.follow path
  match last with
  | none => throw .isDirectory
  | some name =>
    match ← folder.look d name with
    | .absent => throw .notFound
    | .directory _ => throw .isDirectory
    | .file bytes => if Path.endsInSlash path then throw .notDirectory else return bytes

/-- The folder with a file in one of its directories, in place of any that was
there before.  A file put elsewhere does not show in it. -/
def put (folder : Folder) (d : Directory) (name : String) (bytes : Binary.Bytes) : Folder :=
  match d with
  | .inside place =>
    ⟨(place ++ [name], bytes) :: folder.files.filter fun (other, _) => other != place ++ [name]⟩
  | .outside => folder

/-- The folder after writing a file.  A slash at the end is refused before the
last name is looked at. -/
def write (folder : Folder) (path : String) (bytes : Binary.Bytes) : Except FileError Folder := do
  let (d, last) ← folder.follow path
  match last with
  | none => throw .isDirectory
  | some name =>
    if Path.endsInSlash path then throw .isDirectory
    match ← folder.look d name with
    | .directory _ => throw .isDirectory
    | _ => return folder.put d name bytes

/-- Reading and writing in a folder. -/
def access : Files (StateM Folder) where
  read path := do return (← get).read path
  write path bytes := do
    match (← get).write path bytes with
    | .ok folder => set folder; return .ok ()
    | .error e => return .error e

end Folder
end RobotLang.CommandLine
