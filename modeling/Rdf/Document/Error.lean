import Rdf.Token.Stream
import Rdf.Fault

/-!
Why a document is not read.

Each error of a document has a place in it. A refusal is the cause of an error at a token; its
place is the place of the token.
-/

namespace Rdf

/-- What the source of a document is called: by a text, or by the number of its stream. -/
inductive SourceName where
  | text (name : String)
  | number (number : Int)
  deriving DecidableEq, Repr

def SourceName.toText : SourceName → String
  | text name => name
  | number n => toString n

/-- What an identifier is for in a line of N-Triples. -/
inductive Role where
  | subject
  | predicate
  | object
  | datatype
  deriving DecidableEq, Repr

def Role.name : Role → String
  | subject => "subject"
  | predicate => "predicate"
  | object => "object"
  | datatype => "datatype"

/-- How many blank nodes and collections a Turtle document may have inside one another. -/
def maxNesting : Nat := 128

/-- What the grammar does not allow a token to be. -/
inductive GrammarFault where
  | statementEnd
  | directiveLabel (word : String)
  | directiveIri (word : String)
  | directiveEnd (word : String)
  | subject
  | predicate
  | object
  | datatype
  | bracketEnd
  | collectionEnd
  | nesting
  | lineEnd
  | lineString
  | lineIri (role : Role)
  | lineRelativeIri
  deriving DecidableEq, Repr

/-- What is said of the token that a fault is found at. -/
def GrammarFault.message (fault : GrammarFault) (lexeme : Lexeme) : String :=
  let found := ", found " ++ lexeme.describe
  match fault with
  | statementEnd => "expected '.' to end triple statement" ++ found
  | directiveLabel word => "expected prefix label such as 'ex:' after " ++ word
  | directiveIri word => "expected IRI in " ++ word ++ " directive" ++ found
  | directiveEnd word => "expected '.' after " ++ word ++ " directive" ++ found
  | subject => "expected subject" ++ found
  | predicate => "expected predicate" ++ found
  | object => "expected object" ++ found
  | datatype => "expected datatype IRI after '^^'" ++ found
  | bracketEnd => "expected ']' to close blank node property list" ++ found
  | collectionEnd => "unterminated collection, expected ')'"
  | nesting => "blank nodes and collections nested deeper than " ++ toString maxNesting
  | lineEnd => "expected '.' to end N-Triples statement" ++ found
  | lineString => "N-Triples literals must use a single pair of double quotes"
  | lineIri role => "expected IRI as N-Triples " ++ role.name ++ found
  | lineRelativeIri => "N-Triples requires absolute IRIs" ++ found

/-- Why a name stands for no identifier. -/
inductive ResolutionFault where
  | noBase (iri : String)
  | relativeBase (base : String)
  | unresolvable (iri base : String) (fault : Fault)
  | undefinedLabel (label : String)
  deriving DecidableEq, Repr

def ResolutionFault.message : ResolutionFault → String
  | noBase iri => "relative IRI <" ++ iri ++ "> used with no base URI"
  | relativeBase base => "base URI <" ++ base ++ "> is not absolute"
  | unresolvable iri base fault =>
    "cannot resolve <" ++ iri ++ "> against <" ++ base ++ ">: " ++ fault.message
  | undefinedLabel label => "undefined prefix '" ++ label ++ ":'"

/-- Why a token is not accepted. No document makes the checked constructors of terms refuse what
a reader hands them, but a reader does not know that. -/
inductive Refusal where
  | grammar (fault : GrammarFault)
  | resolution (fault : ResolutionFault)
  | invalid (fault : Fault)
  deriving DecidableEq, Repr

namespace Refusal

def refuse {α : Type} (fault : GrammarFault) : Except Refusal α := .error (.grammar fault)

def checked {α : Type} : Except Fault α → Except Refusal α
  | .ok value => .ok value
  | .error fault => .error (.invalid fault)

end Refusal

/-- The causes of errors that have a place. -/
inductive ReadFault where
  | lexical (fault : LexicalFault)
  | grammar (fault : GrammarFault) (token : Token)
  | resolution (fault : ResolutionFault)
  deriving DecidableEq, Repr

def ReadFault.message : ReadFault → String
  | lexical fault => fault.message
  | grammar fault token => fault.message token.lexeme
  | resolution fault => fault.message

/-- An error of a document. -/
structure ReadError where
  source : SourceName
  place : Place
  fault : ReadFault
  deriving DecidableEq, Repr

def ReadError.message (error : ReadError) : String :=
  let place := toString error.place.line ++ ":" ++ toString error.place.column
  error.source.toText ++ ":" ++ place ++ ": " ++ error.fault.message

/-- How reading fails: by an error of the document, by an argument that is refused, or because the
tokens stop before the end of the text. -/
inductive ReadFailure where
  | document (error : ReadError)
  | argument (fault : Fault)
  | unfinished
  deriving DecidableEq, Repr

namespace ReadFailure

def message : ReadFailure → String
  | document error => error.message
  | argument fault => fault.message
  | unfinished => "the tokens have no end"

def ofRefusal (source : SourceName) (token : Token) : Refusal → ReadFailure
  | .grammar fault => document ⟨source, token.place, .grammar fault token⟩
  | .resolution fault => document ⟨source, token.place, .resolution fault⟩
  | .invalid fault => argument fault

def ofLexical (source : SourceName) (error : LexicalError) : ReadFailure :=
  document ⟨source, error.place, .lexical error.fault⟩

end ReadFailure

end Rdf
