import Blockwise.Sample.TwoCalls

/-!
The command line: analyses the sample program with the options from the arguments.
-/
open Blockwise

def main (args : List String) : IO UInt32 := do
  let outcome := Sample.outcome Sample.stepLimit (.ofArgs args)
  for line in outcome.output do
    IO.println line
  match outcome.failure with
  | none => return 0
  | some halt =>
    IO.eprintln (Sample.failureText halt)
    return 1
