import IdeMode.Storage.Path
set_option autoImplicit false

/-!
# Finding the compiler

The compiler is named by a file, or else looked up in a list of directories, where only an
executable file counts.
-/

namespace IdeMode.Host

/-- The name of a file in a directory, the directory as it is spelled. -/
def joinName (directory name : String) : String :=
  if directory = "" then name
  else if directory.toList.getLast? = some '/' then directory ++ name
  else directory ++ "/" ++ name

/-- The compiler that a name means, for a working directory, the files that exist, each with whether
it can be executed, and a search path of directories between colons. -/
def findExecutable (cwd : Path) (files : List (Path × Bool))
    (name searchPath : String) : Option String :=
  if files.any fun f => f.1 = cwd.resolve name then some name
  else if name.toList.contains '/' ∨ searchPath = "" then none
  else
    ((searchPath.splitOn ":").map fun directory => joinName directory name).find? fun candidate =>
      candidate.toList.getLast? ≠ some '/' && files.any fun f => f.2 && f.1 = cwd.resolve candidate

end IdeMode.Host
