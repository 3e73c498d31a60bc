import DeclSchema.Model.Json
import DeclSchema.Schema.Basic

/-!
# The command line

What the arguments of the program mean, and what it writes for a source text. Reading
and writing files is left to `DeclSchema.Main`.
-/

namespace DeclSchema.CommandLine

/-- What is written for a source. -/
inductive Emit where
  /-- The schema. -/
  | schema
  /-- The elements as JSON. -/
  | model
deriving DecidableEq, Repr

/-- The input and the options that were given, each at most once. -/
structure Given where
  input : Option String := none
  output : Option String := none
  indent : Option Nat := none
  tabs : Bool := false
  marker : Option String := none
  noInterfaces : Bool := false
  exportedOnly : Bool := false
  emit : Option Emit := none
  check : Bool := false
  verbosity : Nat := 0

/-- What the program is asked to do. -/
structure Job where
  input : String
  output : Option String
  unit : String
  extraction : ExtractionOptions
  emit : Emit
  check : Bool
  verbosity : Nat

/-- What a command line asks for. -/
inductive Request where
  | run (job : Job)
  | help
  | version

/-- A flag that is given, unless it was given before. -/
def once (given : Bool) : Option Bool :=
  if given then none else some true

/-- A value that is given, unless one was given before. -/
def onceWith (given : Option α) (value : Option α) : Option (Option α) :=
  match given, value with
  | none, some value => some (some value)
  | _, _ => none

/-- A path, which is not empty. -/
def path? (text : String) : Option String :=
  if text.isEmpty then none else some text

-- The power is that of the core library, whatever is imported, so its exponent has a type.
attribute [local instance (1100)] instPowNat in
/-- A count of blanks: digits, with a plus sign allowed before them, of at most 64
bits. -/
def count? (text : String) : Option Nat :=
  let digits :=
    match text.toList with
    | '+' :: digits => digits
    | digits => digits
  (Digits.ofText? 10 digits).filter (· < 2 ^ (64 : Nat))

/-- What is to be written, by its name. -/
def emit? : String → Option Emit
  | "schema" => some .schema
  | "model" => some .model
  | _ => none

/-- Sets the flag of a long name. There may be no such flag. -/
def setFlag? (name : String) (given : Given) : Option (Option Given) :=
  match name with
  | "tabs" => some ((once given.tabs).map fun tabs => { given with tabs })
  | "no-interfaces" =>
    some ((once given.noInterfaces).map fun noInterfaces => { given with noInterfaces })
  | "exported-only" =>
    some ((once given.exportedOnly).map fun exportedOnly => { given with exportedOnly })
  | "check" => some ((once given.check).map fun check => { given with check })
  | "verbose" => some (some { given with verbosity := given.verbosity + 1 })
  | _ => none

/-- Sets the option of a long name to a value. -/
def setValue? (name value : String) (given : Given) : Option Given :=
  match name with
  | "output" => (onceWith given.output (path? value)).map fun output => { given with output }
  | "indent" => (onceWith given.indent (count? value)).map fun indent => { given with indent }
  | "marker" => (onceWith given.marker (some value)).map fun marker => { given with marker }
  | "emit" => (onceWith given.emit (emit? value)).map fun emit => { given with emit }
  | _ => none

/-- Whether an argument is an option and cannot be the value of one. -/
def isOption (argument : String) : Bool :=
  argument.startsWith "-" && argument != "-"

/-- The short names in one argument: flags, and at last `o` with the path behind it,
which is the next argument when nothing is. Gives how many further arguments were
used; no result means an error, and an error may also be a request for help. -/
def shortNames (names : List Char) (following : Option String) (given : Given) :
    Except (Option Request) (Given × Nat) :=
  match names with
  | [] => .ok (given, 0)
  | 'v' :: rest => shortNames rest following { given with verbosity := given.verbosity + 1 }
  | 'h' :: _ => .error (some .help)
  | 'V' :: _ => .error (some .version)
  | 'o' :: attached =>
    let (value, used) :=
      match attached with
      | [] => (following.filter (!isOption ·), 1)
      | '=' :: value => (some (String.ofList value), 0)
      | value => (some (String.ofList value), 0)
    match value.bind fun value => setValue? "output" value given with
    | some given => .ok (given, used)
    | none => .error none
  | _ :: _ => .error none

/-- A long name and the value attached to it. -/
def splitLong (text : List Char) : String × Option String :=
  let name := String.ofList (text.takeWhile (· != '='))
  match text.dropWhile (· != '=') with
  | [] => (name, none)
  | _ :: value => (name, some (String.ofList value))

/-- A long name, given without the two dashes before it. -/
def longName (text : List Char) (following : Option String) (given : Given) :
    Except (Option Request) (Given × Nat) :=
  let done (used : Nat) : Option Given → Except (Option Request) (Given × Nat)
    | some given => .ok (given, used)
    | none => .error none
  match splitLong text with
  | ("help", none) => .error (some .help)
  | ("version", none) => .error (some .version)
  | (name, none) =>
    match setFlag? name given with
    | some given => done 0 given
    | none =>
      done 1 ((following.filter (!isOption ·)).bind fun value => setValue? name value given)
  | (name, some value) => done 0 (setValue? name value given)

/-- Sets the input to an argument that is no option. -/
def setInput? (argument : String) (given : Given) : Option Given :=
  (onceWith given.input (path? argument)).map fun input => { given with input }

/-- Reads at most `count` arguments. Behind two dashes no argument is an option. -/
def readUpTo : Nat → List String → Given → Except (Option Request) Given
  | 0, _, given => .ok given
  | _, [], given => .ok given
  | count + 1, argument :: rest, given =>
    match argument.toList with
    | ['-', '-'] =>
      match rest.foldlM (fun given argument => setInput? argument given) given with
      | some given => .ok given
      | none => .error none
    | '-' :: '-' :: text =>
      match longName text rest.head? given with
      | .ok (given, used) => readUpTo count (rest.drop used) given
      | .error request => .error request
    | '-' :: c :: names =>
      match shortNames (c :: names) rest.head? given with
      | .ok (given, used) => readUpTo count (rest.drop used) given
      | .error request => .error request
    | _ =>
      match setInput? argument given with
      | some given => readUpTo count rest given
      | none => .error none

/-- The number of blanks for a level of nesting when none is given. -/
def defaultIndent : Nat := 2

/-- The unit of indentation that was asked for. -/
def indentUnit (given : Given) : String :=
  if given.tabs then "\t"
  else String.ofList (List.replicate (given.indent.getD defaultIndent) ' ')

/-- The options of extraction that were asked for. The at signs before the name of a
tag do not belong to it. -/
def extractionOptions (given : Given) : ExtractionOptions where
  marker :=
    match given.marker with
    | none => "schema"
    | some marker => String.ofList (marker.toList.dropWhile (· == '@'))
  interfaces := !given.noInterfaces
  exportedOnly := given.exportedOnly

/-- The job that was asked for: there is an input, and blanks and tabs are not both
asked for. -/
def job? (given : Given) : Option Job :=
  if given.tabs && given.indent.isSome then
    none
  else
    given.input.map fun input => {
      input
      output := given.output
      unit := indentUnit given
      extraction := extractionOptions given
      emit := given.emit.getD .schema
      check := given.check
      verbosity := given.verbosity }

/-- What a command line asks for; none when its arguments are wrong. -/
def request? (arguments : List String) : Option Request :=
  match readUpTo arguments.length arguments {} with
  | .ok given => (job? given).map .run
  | .error request => request

/-- Why the program gives up. -/
inductive Failure where
  | unreadable (path : String)
  | noSchema (path : String)
  | illFormed
  | unwritable (path : String)
deriving DecidableEq, Repr

/-- What the user is told of a failure. -/
def Failure.message : Failure → String
  | .unreadable path => "failed to read " ++ path
  | .noSchema path => "no schema for " ++ path
  | .illFormed => "emitted schema is not well-formed"
  | .unwritable path => "failed to write " ++ path

/-- What is written for a source text, with a line feed at its end. A check parses the text of a
schema again. `Xml.isLegalText` stands for that: in such a text the tags are closed where they
have to be, all names and the namespace of the root are fixed, no key is repeated in a tag and
values are escaped, so that a parser can object to nothing but a character that no document may
hold. -/
def Job.output? (job : Job) (source : String) : Except Failure String :=
  match job.emit with
  | .model =>
    .ok (Element.prettyText (Extraction.ofSource job.extraction source).elements ++ "\n")
  | .schema =>
    match (Conversion.ofSource job.extraction source).schema with
    | .error _ => .error (.noSchema job.input)
    | .ok schema =>
      let text := schema.render 0 job.unit
      if job.check && !Xml.isLegalText text then .error .illFormed else .ok (text ++ "\n")

/-- The warnings about a source text. -/
def Job.warnings (job : Job) (source : String) : List Warning :=
  let conversion := Conversion.ofSource job.extraction source
  match job.emit with
  | .model => Warning.ofExtraction conversion.extraction
  | .schema => Warning.ofConversion conversion

/-- What the user is told besides: that a check was asked for in vain, and, when more
is to be said, how many declarations became elements. -/
def Job.remarks (job : Job) (source : String) : List String :=
  match job.emit with
  | .model => if job.check then ["--check only applies to schema output"] else []
  | .schema =>
    if job.verbosity = 0 then
      []
    else
      let extraction := (Conversion.ofSource job.extraction source).extraction
      ["converted " ++ toString extraction.elements.length ++ ", dropped " ++
        toString extraction.diagnostics.length]

end DeclSchema.CommandLine
