import IdeMode.CommandLine
set_option autoImplicit false

/-!
# The executable

The command line is read, and what it chooses is announced on the standard error channel.
-/

/-- Runs the program. The status is zero, unless the arguments make no sense. -/
def main (args : List String) : IO UInt32 := do
  match IdeMode.CommandLine.parse args with
  | .error exit => return exit.code.toUInt32
  | .ok options =>
    IO.eprint (options.launch false).announcement
    return 0
