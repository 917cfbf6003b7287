import Triversion.Demo

/-! The command line: prints the plan for a drawing tool. -/

/-- Prints the report and exits with its code. -/
def main : IO UInt32 := do
  let report := Triversion.Demo.report
  IO.print report.output
  IO.eprint report.complaint
  return report.code.toUInt32
