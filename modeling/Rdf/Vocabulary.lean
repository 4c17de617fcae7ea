import Rdf.Iri.Basic

/-!
The identifiers of the RDF and XML Schema vocabularies that documents abbreviate.
-/

namespace Rdf.Vocabulary

def rdf (name : String) : Iri := ⟨"http://www.w3.org/1999/02/22-rdf-syntax-ns#" ++ name⟩

def xsd (name : String) : Iri := ⟨"http://www.w3.org/2001/XMLSchema#" ++ name⟩

def type : Iri := rdf "type"

def first : Iri := rdf "first"

/-- The predicate from a list cell to the rest of the list. -/
def rest : Iri := rdf "rest"

/-- The empty list. -/
def nil : Iri := rdf "nil"

def boolean : Iri := xsd "boolean"

def integer : Iri := xsd "integer"

def decimal : Iri := xsd "decimal"

def double : Iri := xsd "double"

end Rdf.Vocabulary
