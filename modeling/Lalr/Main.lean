import Lalr.Command

/-!
# The program

Reads the command line, does what the plan for it says, and exits with the code that comes of it.
-/

namespace Lalr

/-- What to say about the cause of a failed write. -/
def describeFault : IO.Error → String
  | .noFileOrDirectory _ code details => s!"{details} (os error {code})"
  | .inappropriateType _ code details => s!"{details} (os error {code})"
  | .permissionDenied _ code details => s!"{details} (os error {code})"
  | .invalidArgument _ code details => s!"{details} (os error {code})"
  | .resourceExhausted _ code details => s!"{details} (os error {code})"
  | fault => toString fault

/-- The streams and the files of the running program. -/
def console : Command.Surroundings IO where
  print text := IO.print text
  complain text := IO.eprint text
  write path text := do
    try
      IO.FS.writeFile path text
      return none
    catch fault =>
      return some (describeFault fault)

end Lalr

def main (words : List String) : IO UInt32 := do
  return (← (Lalr.Command.plan words).perform Lalr.console).toUInt32
