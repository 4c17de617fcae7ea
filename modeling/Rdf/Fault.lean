import Rdf.Plain

/-!
Why a term, a triple or a change of a graph is refused.
-/

namespace Rdf

/-- The causes of a refusal. Those that speak of a kind carry the name of the kind found. -/
inductive Fault where
  | iriNotText (kind : String)
  | iriEmpty
  | relativeBase (base : String)
  | nodeNotIri (kind : String)
  | blankIdInvalid
  | literalNotText (kind : String)
  | languageAndDatatype
  | languageEmpty
  | datatypeNotIri (kind : String)
  | subjectKind (kind : String)
  | predicateKind (kind : String)
  | objectKind (kind : String)
  | notTriple (kind : String)
  | namespaceNotIri (kind : String)
  | notKey (kind : String)
  | unboundLabel (label : String)
  deriving DecidableEq, Repr

def kindMark (kind : String) : String := "<class '" ++ kind ++ "'>"

def Fault.message : Fault → String
  | iriNotText kind => "URI value must be a string, not " ++ kindMark kind
  | iriEmpty => "URI must not be empty"
  | relativeBase base => "cannot resolve against relative base URI '" ++ base ++ "'"
  | nodeNotIri kind => "UriNode requires a Uri, not " ++ kindMark kind
  | blankIdInvalid => "blank node id must be a non-empty string"
  | literalNotText kind => "literal value must be a string, not " ++ kindMark kind
  | languageAndDatatype => "a literal cannot have both a language tag and a datatype"
  | languageEmpty => "language tag must not be empty"
  | datatypeNotIri kind => "literal datatype must be a Uri, not " ++ kindMark kind
  | subjectKind kind => "triple subject must be a URI or blank node, not " ++ kind
  | predicateKind kind => "triple predicate must be a URI node, not " ++ kind
  | objectKind kind => "triple object must be an RDF node, not " ++ kind
  | notTriple kind => "expected a Triple, not " ++ kindMark kind
  | namespaceNotIri kind => "namespace must be a Uri, not " ++ kindMark kind
  | notKey kind => "unhashable type: '" ++ kind ++ "'"
  | unboundLabel label => "no namespace bound to prefix '" ++ label ++ "'"

end Rdf
