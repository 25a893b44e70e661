import BoolLaws.CommandLine

/-!
# The program

Prints what the command line answers, and complaints to the error output.
-/

/-- Runs the program. -/
def main (args : List String) : IO UInt32 := do
  let outcome := BoolLaws.CommandLine.run args
  for line in outcome.lines do
    IO.println line
  if let some complaint := outcome.complaint then
    IO.eprintln complaint
  return outcome.code.toUInt32
