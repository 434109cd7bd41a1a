import MmixBackend.CommandLine

/-!
# The program

Prints what `CommandLine.output` says and ends with its exit code.
-/

/-- The entry point of the program. -/
def main (args : List String) : IO UInt32 := do
  let output := MmixBackend.CommandLine.output args
  IO.print output.stdout
  IO.eprint output.stderr
  return output.exitCode.toUInt32
