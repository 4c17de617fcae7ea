import Rdf.Command.Files
import Rdf.Document.Format
import Rdf.Text.Layout

/-!
Formats as users name them: by name, by the ending of a file, or not at all.
-/

namespace Rdf.Command

/-- Why a request for a conversion makes no sense. -/
inductive RequestFault where
  | format (name : String)
  | source (name : String)
  | target (name : String)
  | noSourceFormat
  | noOutput
  | noTargetFormat
  deriving DecidableEq, Repr

def RequestFault.message : RequestFault → String
  | format name => "unsupported format: " ++ name
  | source name => "unsupported source format: " ++ name
  | target name => "unsupported target format: " ++ name
  | noSourceFormat => "could not infer input format; provide --from"
  | noOutput => "output path is required unless --validate-only"
  | noTargetFormat => "could not infer output format; provide --to or output extension"

/-- The names that users may give to formats, in alphabetical order. -/
def formatNames : List (String × Format) :=
  [("n-triples", .nTriples), ("nt", .nTriples), ("ntriples", .nTriples), ("ttl", .turtle),
    ("turtle", .turtle)]

/-- The format that a user names, whatever the case and the blanks around the name. -/
def formatNamed (text : String) : Except RequestFault Format :=
  match formatNames.lookup (String.ofList (Text.lowerCase (Text.trim text.toList))) with
  | some format => .ok format
  | none => .error (.format text)

def formatEndings : List (String × Format) :=
  [(".nt", .nTriples), (".ttl", .turtle), (".turtle", .turtle)]

/-- The path that stands for standard input and standard output. -/
def standardPath : String := "-"

def formatOfPath? (path : String) : Option Format :=
  if path = standardPath then none
  else formatEndings.lookup (String.ofList (Text.lowerCase (Path.ofText path).suffix))

inductive Failure where
  | request (fault : RequestFault)
  | file (fault : FileFault)
  | bytes (fault : Utf8.Fault)
  | read (failure : ReadFailure)
  | write (fault : WriteFault)
  deriving DecidableEq, Repr

def Failure.message : Failure → String
  | request fault => fault.message
  | file fault => fault.message
  | bytes fault => fault.message
  | read failure => failure.message
  | write fault => fault.message

/-- The fault of a base that is no text, for which no run has a report. -/
def Failure.defect? : Failure → Option Fault
  | read (.argument (.iriNotText kind)) => some (.iriNotText kind)
  | _ => none

def load (text name : String) (source : SourceName) (base : Option Plain) :
    Except Failure Graph :=
  match Format.ofName? name with
  | none => .error (.request (.source name))
  | some format => (format.read text source base).mapError .read

def dump (g : Graph) (name : String) (options : Turtle.Options) : Except Failure String :=
  match Format.ofName? name with
  | none => .error (.request (.target name))
  | some format => (format.write g options).mapError .write

end Rdf.Command
