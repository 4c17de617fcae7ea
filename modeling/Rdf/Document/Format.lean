import Rdf.Document.Input
import Rdf.NTriples.Printer
import Rdf.NTriples.Reader
import Rdf.Turtle.Printer
import Rdf.Turtle.Reader

/-!
The formats of documents, and reading and writing in any of them.
-/

namespace Rdf

inductive Format where
  | nTriples
  | turtle
  deriving DecidableEq, Repr

namespace Format

def name : Format → String
  | nTriples => "nt"
  | turtle => "turtle"

def ofName? : String → Option Format
  | "nt" => some nTriples
  | "turtle" => some turtle
  | _ => none

/-- The graph of a document in a format. Only Turtle has a use for a base, which then has to be the
text of an identifier. -/
def read (format : Format) (text : String) (source : SourceName) (base : Option Plain) :
    Except ReadFailure Graph :=
  match format with
  | nTriples => NTriples.read text source
  | turtle =>
    match base.mapM Iri.make with
    | .error fault => .error (.argument fault)
    | .ok base => Turtle.read text source base

/-- The graph of a document that comes from a stream. A source that is known by a number gives its
name to errors as a text, once the document has been decoded. -/
def readContent (format : Format) (content : Document.Content) (source : SourceName)
    (base : Option Plain) : Except ReadFailure Graph :=
  match Document.decode source content with
  | .error failure => .error failure
  | .ok text => format.read text (.text source.toText) base

/-- The document of a graph in a format. Only Turtle has options. -/
def write (format : Format) (g : Graph) (options : Turtle.Options) : Except WriteFault String :=
  match format with
  | nTriples => NTriples.write g
  | turtle => Turtle.write g options

end Format

end Rdf
