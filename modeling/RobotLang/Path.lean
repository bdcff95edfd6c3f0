/-
  RobotLang.Path
  ──────────────
  **FILE NAMES IN PATHS.**

  Slashes separate the names of a path.  Whoever follows a path meets all of
  its names; to tell what a path is called, `.` does not count, and a
  trailing slash changes nothing.  The file name is the last name unless that
  is `..`; the extension is what follows its last dot, and a dot that comes
  first starts no extension.
-/

namespace RobotLang.Path

/-! ## §1. The names of a path. -/

/-- The names of a path, in the order in which they are followed. -/
def steps (path : String) : List String :=
  ((path.toList.splitOn '/').map String.ofList).filter (· != "")

/-- The path starts from the root. -/
def isAbsolute (path : String) : Bool :=
  path.toList.head? == some '/'

/-- The path ends in a slash, and so asks for a directory. -/
def endsInSlash (path : String) : Bool :=
  path.toList.getLast? == some '/'

/-! ## §2. What a path is called. -/

/-- The names of a path that count. -/
def components (path : String) : List String :=
  (steps path).filter (· != ".")

/-- The last name, unless it leads up. -/
def fileName? (path : String) : Option String :=
  (components path).getLast?.filter (· != "..")

/-- What follows the last dot, if the dot is not the first character. -/
def extension? (path : String) : Option String := do
  let parts := (← fileName? path).toList.splitOn '.'
  guard (2 ≤ parts.length ∧ (parts.dropLast ≠ [[]]))
  return String.ofList (← parts.getLast?)

/-- The file name, or the whole path when it has none. -/
def displayName (path : String) : String :=
  (fileName? path).getD path

end RobotLang.Path
