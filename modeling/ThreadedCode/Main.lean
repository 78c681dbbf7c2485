import ThreadedCode.Calculator.CommandLine

/-!
The calculator as a program.
-/
open ThreadedCode.Calculator

def main (arguments : List String) : IO UInt32 := do
  match CommandLine.parse arguments with
  | none =>
    IO.eprintln "usage: [--bytes N] [--cells N] [--strict-dictionary] [--] [WORD]..."
    return UInt32.ofNat CommandLine.refusal
  | some options =>
    let report := run options
    for line in report.output do IO.println line
    for line in report.complaints do IO.eprintln line
    return UInt32.ofNat report.exitCode
