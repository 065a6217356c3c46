import InfixTree.CommandLine

/-! The program: prints the outcome of a command line and exits with its code. -/

def main (args : List String) : IO UInt32 := do
  let outcome := InfixTree.runCommandLine args
  for line in outcome.log do
    IO.eprintln ("[" ++ line)
  for line in outcome.errors do
    IO.eprintln line
  IO.print outcome.output
  return outcome.exitCode.toUInt32
