import LazyConfig.Command

/-! The program: writes what a command says and ends with its code. -/

/-- Runs the command given by the arguments. -/
def main (args : List String) : IO UInt32 := do
  let output := LazyConfig.Command.execute args
  IO.print output.stdout
  IO.eprint output.stderr
  return output.code.toUInt32
