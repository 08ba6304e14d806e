import Diglot.Cli.Command

/-!
# The program

Hands the arguments to the commands, and what they print to the output streams.
-/

/-- Runs the program and gives its exit code. -/
def main (args : List String) : IO UInt32 := do
  let outcome := Diglot.Cli.run args
  IO.print outcome.stdout
  IO.eprint outcome.stderr
  return outcome.code.toUInt32
