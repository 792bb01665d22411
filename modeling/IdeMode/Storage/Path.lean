set_option autoImplicit false

/-!
# Paths

Absolute file names, with no empty, `.` or `..` component. A name is resolved against a directory;
there are no links, so a `..` removes the component before it.
-/

namespace IdeMode

/-- An absolute path: its components from the root down. -/
structure Path where
  parts : List String
  deriving DecidableEq, Repr, Inhabited

namespace Path

/-- The root directory. -/
def root : Path := ⟨[]⟩

/-- The path as text. -/
def text (p : Path) : String := "/" ++ "/".intercalate p.parts

/-- The directory that holds the path; the root holds itself. -/
def parent (p : Path) : Path := ⟨p.parts.dropLast⟩

/-- The last component; the root has an empty name. -/
def name (p : Path) : String := p.parts.getLast?.getD ""

/-- The components of a name between slashes. -/
def components (name : String) : List String := (name.toList.splitOn '/').map String.ofList

/-- Goes on from a path by one component of a name. -/
def descend (p : Path) (component : String) : Path :=
  if component = "" ∨ component = "." then p
  else if component = ".." then p.parent
  else ⟨p.parts ++ [component]⟩

/-- The path that a name means in a directory. -/
def resolve (base : Path) (name : String) : Path :=
  let start := if name.toList.head? = some '/' then root else base
  (components name).foldl descend start

/-- A name as it is spelled without empty and `.` components. Exactly two slashes at its start are
kept. -/
def spelling (name : String) : String :=
  let cs := name.toList
  let start := if cs.take 2 = ['/', '/'] ∧ cs.take 3 ≠ ['/', '/', '/'] then "//"
    else if cs.head? = some '/' then "/" else ""
  let rest := "/".intercalate ((components name).filter fun c => c ≠ "" ∧ c ≠ ".")
  if start = "" ∧ rest = "" then "." else start ++ rest

/-- The name of a path relative to a directory, if it lies below it. -/
def relativeTo? (base p : Path) : Option String :=
  if base.parts.isPrefixOf p.parts then some
    ("/".intercalate (p.parts.drop base.parts.length)) else none

/-- No file name holds the null character. -/
def isName (name : String) : Bool := !name.toList.contains '\x00'

end Path

end IdeMode
