import Vtxo.Cli.Report

/-!
# The command line

The program reads its arguments and its environment, and writes the outcome.
-/

set_option autoImplicit false

open Vtxo Vtxo.Cli

def main (arguments : List String) : IO UInt32 := do
  let network ← IO.getEnv Settings.networkVariable
  let lock ← IO.getEnv Settings.lockVariable
  let outcome := run arguments fun name =>
    if name == Settings.networkVariable then network
    else if name == Settings.lockVariable then lock
    else none
  IO.print outcome.output
  IO.eprint outcome.errors
  return outcome.status.toUInt32
