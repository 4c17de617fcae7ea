import Rdf.Command.Arguments
import Rdf.Graph.Statistics

/-!
The converter.

A run reads the arguments, then the input, then writes the output. It fails at the first thing that
goes wrong, with nothing written.
-/

namespace Rdf.Command

def programName : String := "rdfgraph"

def programVersion : String := "0.3.0"

def usage : String := "usage: " ++ programName ++ " [options] input [output]\n"

/-- A conversion that makes sense. -/
structure Job where
  source : Format
  target : Option Format
  options : Turtle.Options
  deriving DecidableEq, Repr

/-- The format that a user names, or the one that a path tells. -/
def chooseFormat (named path : Option String) : Except RequestFault (Option Format) :=
  match named with
  | some text => (formatNamed text).map some
  | none => .ok (path.bind formatOfPath?)

def Arguments.job (arguments : Arguments) : Except RequestFault Job := do
  let some source ← chooseFormat arguments.source (some arguments.input)
    | .error .noSourceFormat
  let target ← chooseFormat arguments.target arguments.output
  if !arguments.validateOnly then
    if arguments.output.isNone then
      .error .noOutput
    if target.isNone then
      .error .noTargetFormat
  return {
    source, target
    options := {
      writesBase := !arguments.noBase
      writesLabels := !arguments.noLabels
      lists := .ofName arguments.lists } }

def Arguments.sourceName (arguments : Arguments) : String :=
  if arguments.input = standardPath then "<stdin>" else arguments.input

/-- The base that the input is read with: the one asked for, or else the identifier of the file. -/
def Arguments.baseFor (arguments : Arguments) (directory : List String) : Option Plain :=
  match arguments.base with
  | some base => some base
  | none =>
    if arguments.input = standardPath then none
    else some (.text ((Path.ofText arguments.input).toIri directory))

/-- The text of bytes, with line feeds as line ends. A byte order mark is part of it. -/
def textOf (bytes : List UInt8) : Except Failure String :=
  match Utf8.decode bytes with
  | .ok text => .ok (String.ofList (Text.unifyLines text))
  | .error fault => .error (.bytes fault)

/-- What has been printed, on standard output and as messages. -/
structure Printed where
  output : String := ""
  messages : String := ""
  deriving DecidableEq, Repr

/-- The end of a run. A defect breaks a run off that would have ended otherwise. -/
structure Outcome where
  status : Nat
  printed : Printed
  defect : Option Fault := none
  deriving DecidableEq, Repr

def report (s : Statistics) : String :=
  "stats:\n" ++ String.join (s.entries.map fun entry =>
    entry.1 ++ ": " ++ toString entry.2 ++ "\n")

variable {m : Type → Type} [Monad m]

/-- The steps of a run that may fail, with what they print. -/
abbrev Steps (m : Type → Type) : Type → Type := ExceptT Failure (StateT Printed m)

def note (text : String) : Steps m Unit :=
  modify fun printed => { printed with messages := printed.messages ++ text }

/-- Tells what has been done, where that is wanted. -/
def log (arguments : Arguments) (level text : String) : Steps m Unit :=
  if arguments.verbose then note (level ++ " " ++ programName ++ ".cli: " ++ text ++ "\n")
  else pure ()

def ask {α : Type} (step : m α) : Steps m α := ExceptT.lift (StateT.lift step)

def readInput (system : System m) (arguments : Arguments) : Steps m String := do
  if arguments.input = standardPath then
    textOf (← ask system.input)
  else
    match ← ask (system.readFile (Path.ofText arguments.input)) with
    | .ok bytes => textOf bytes
    | .error fault => throw (.file fault)

def writeOutput (system : System m) (path text : String) : Steps m Unit := do
  if path = standardPath then
    modify fun printed => { printed with output := printed.output ++ text }
  else
    match ← ask (system.writeFile (Path.ofText path) text) with
    | .ok () => pure ()
    | .error fault => throw (.file fault)

def convert (system : System m) (arguments : Arguments) : Steps m Unit := do
  let job ← arguments.job.mapError Failure.request
  let base := arguments.baseFor (← ask system.directory)
  let text ← readInput system arguments
  log arguments "DEBUG" s!"read {text.length} characters from {arguments.sourceName}"
  let graph ← (job.source.read text (.text arguments.sourceName) base).mapError
    Failure.read
  log arguments "INFO" s!"parsed {graph.size} triples from {arguments.sourceName}"
  if !arguments.validateOnly then
    if let (some path, some target) := (arguments.output, job.target) then
      let written ← (target.write graph job.options).mapError Failure.write
      writeOutput system path written
      log arguments "INFO" s!"wrote {target.name} output to {path}"
  if arguments.statistics then
    note (report (Statistics.ofGraph graph))

def runArguments (system : System m) (arguments : Arguments) : m Outcome := do
  let (result, printed) ← (convert system arguments).run.run {}
  match result with
  | .ok () => return { status := 0, printed }
  | .error failure =>
    let messages := printed.messages ++ "Error: " ++ failure.message ++ "\n"
    return { status := 1, printed := { printed with messages }, defect := failure.defect? }

def run (system : System m) (written : List String) : m Outcome :=
  match Arguments.read written with
  | .ok arguments => runArguments system arguments
  | .error .help => return { status := 0, printed := { output := usage } }
  | .error .version =>
    return { status := 0, printed := { output := programName ++ " " ++ programVersion ++ "\n" } }
  | .error (.wrong message) =>
    return { status := 2, printed := { messages := programName ++ ": error: " ++ message ++ "\n" } }

end Rdf.Command
