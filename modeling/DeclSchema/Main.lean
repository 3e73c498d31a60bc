import DeclSchema.CommandLine

/-!
# The program

Reads the file that the command line names, does the job, and writes the result to
the output file or to standard output. Warnings and failures go to standard error.
The exit code is 0 for success, 1 for failure and 2 for wrong arguments.
-/

namespace DeclSchema.Program

open CommandLine

/-- How the program is used. -/
def usage : String :=
  "Usage: declschema [OPTIONS] INPUT\n\n" ++
  "  -o, --output FILE    write to this file instead of standard output\n" ++
  "      --indent N       blanks per level of nesting (2)\n" ++
  "      --tabs           indent with tabs\n" ++
  "      --marker TAG     documentation tag of the classes to convert (schema)\n" ++
  "      --no-interfaces  convert marked classes only\n" ++
  "      --exported-only  convert exported declarations only\n" ++
  "      --emit WHAT      schema or model (schema)\n" ++
  "      --check          fail unless the schema is well-formed\n" ++
  "  -v, --verbose        say more\n"

/-- The text of a file, if it can be read and is Unicode text. -/
def readSource (path : String) : IO (Option String) := do
  try
    return String.fromUTF8? (← IO.FS.readBinFile path)
  catch _ =>
    return none

/-- Writes the output to a file, or to standard output when there is none. Says
whether that could be done. -/
def writeOutput (path : Option String) (text : String) : IO Bool := do
  try
    match path with
    | some path => IO.FS.writeFile path text
    | none => IO.print text
    return true
  catch _ =>
    return false

/-- What a warning is about. -/
def warningSubject : Warning → String
  | .dropped diagnostic | .stray diagnostic => diagnostic.toText
  | .dangling reference => reference.element ++ ": " ++ reference.reference

/-- Tells of a failure. -/
def giveUp (failure : Failure) : IO UInt32 := do
  IO.eprintln ("Error: " ++ failure.message)
  return 1

/-- Does a job. -/
def runJob (job : Job) : IO UInt32 := do
  match ← readSource job.input with
  | none => giveUp (.unreadable job.input)
  | some source =>
    for warning in job.warnings source do
      IO.eprintln ("warning: " ++ warning.message ++ ": " ++ warningSubject warning)
    for remark in job.remarks source do
      IO.eprintln remark
    match job.output? source with
    | .error failure => giveUp failure
    | .ok text =>
      if ← writeOutput job.output text then
        return 0
      else
        giveUp (.unwritable (job.output.getD "standard output"))

end DeclSchema.Program

open DeclSchema Program CommandLine in
/-- The program. -/
def main (arguments : List String) : IO UInt32 := do
  match request? arguments with
  | none =>
    IO.eprint usage
    return 2
  | some .help =>
    IO.print usage
    return 0
  | some .version =>
    IO.println "declschema 0.1.0"
    return 0
  | some (.run job) => runJob job
