import Rdf.Document.Spelling
import Rdf.Graph.Basic

/-!
Writing N-Triples: one line for each triple, in the order of the graph.
-/

namespace Rdf.NTriples

open Spelling

def term : Term → Written
  | .iri iri => .ok (iriRef iri.value)
  | .blank id => blank id
  | .literal l => do
    checkLiteral l
    return literal l fun iri => iriRef iri.value
  | .plain value => .error (.unsupported value.kindName)

def line (t : Triple) : Written := do
  checkTriple t
  let subject ← term t.subject
  let predicate ← term t.predicate
  let object ← term t.object
  return subject ++ ' ' :: predicate ++ ' ' :: object ++ [' ', '.', '\n']

def lines (g : Graph) : Except WriteFault (List (List Char)) := g.triples.mapM line

def write (g : Graph) : Except WriteFault String := do
  return String.ofList (← lines g).flatten

end Rdf.NTriples
