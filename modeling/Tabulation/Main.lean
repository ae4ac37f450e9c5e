import Tabulation.Example.Report

/-!
# The example analysis as a program
-/

namespace Tabulation

/-- Milliseconds as seconds with three decimals. -/
def seconds (ms : Nat) : String :=
  let rest := toString (ms % 1000)
  toString (ms / 1000) ++ "." ++ String.ofList (List.replicate (3 - rest.length) '0') ++ rest

end Tabulation

open Tabulation in
/-- Runs the example analysis with the options of the command line. -/
def main (args : List String) : IO UInt32 := do
  let start ← IO.monoMsNow
  match CallChain.Options.parse? args with
  | none =>
    IO.eprintln "error: invalid command line"
    return 2
  | some options =>
    match CallChain.report options with
    | .error fault =>
      IO.eprintln fault.message
      return 101
    | .ok text =>
      IO.print text
      IO.println ("All done in " ++ seconds ((← IO.monoMsNow) - start) ++ " s")
      return 0
