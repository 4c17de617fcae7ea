import Rdf.Document.Machine
import Rdf.Graph.Basic

/-!
Reading N-Triples.

The format shares its tokens with Turtle and allows few of them: absolute identifiers, labels of
blank nodes and strings in one pair of double quotes.
-/

namespace Rdf.NTriples

/-- What the next token has to be. -/
inductive Expecting where
  /-- A subject, or the end of the document. -/
  | subject
  | predicate (subject : Term)
  | object (subject predicate : Term)
  /-- What comes behind a string. -/
  | suffix (subject predicate : Term) (value : String)
  | datatype (subject predicate : Term) (value : String)
  /-- The dot behind a triple. -/
  | dot (subject predicate object : Term)
  /-- Nothing: the document has ended. -/
  | nothing
  deriving DecidableEq, Repr

structure State where
  graph : Graph := {}
  expecting : Expecting := .subject
  deriving DecidableEq, Repr

namespace State

open Refusal

def expect (s : State) (expecting : Expecting) : State := { s with expecting }

/-- The absolute identifier that a lexeme is. -/
def iri (role : Role) : Lexeme → Except Refusal Iri
  | .iri value =>
    if hasScheme value.toList then checked (Iri.ofText value) else refuse .lineRelativeIri
  | _ => refuse (.lineIri role)

/-- The literal with the given parts, before the dot of its line. -/
def literal (s : State) (subject predicate : Term) (value : String) (language : Option String)
    (datatype : Option Iri) : Except Refusal State :=
  match checked (Literal.make (.text value) language (datatype.map .proper)) with
  | .error refusal => .error refusal
  | .ok literal => .ok (s.expect (.dot subject predicate (.literal literal)))

/-- The blank node with a label, which the graph will not mint. -/
def blank (s : State) (label : String) : Except Refusal (Term × State) :=
  match checked (s.graph.reserve (.text label)) with
  | .error refusal => .error refusal
  | .ok (node, graph) => .ok (node, { s with graph })

def endLine (s : State) (subject predicate object : Term) (lexeme : Lexeme) :
    Except Refusal State :=
  if lexeme = .punct .dot then
    match checked (Triple.make subject predicate object) with
    | .error refusal => .error refusal
    | .ok t => .ok ({ s with graph := s.graph.add t }.expect .subject)
  else refuse .lineEnd

/-- Reads a lexeme. One that is no suffix of a string ends the literal before it is read itself. -/
def step (s : State) (lexeme : Lexeme) : Except Refusal State :=
  match s.expecting, lexeme with
  | .nothing, _ => .ok s
  | .subject, .eof => .ok (s.expect .nothing)
  | .subject, .blank label =>
    match s.blank label with
    | .error refusal => .error refusal
    | .ok (node, s) => .ok (s.expect (.predicate node))
  | .subject, lexeme =>
    match iri .subject lexeme with
    | .error refusal => .error refusal
    | .ok name => .ok (s.expect (.predicate (.iri name)))
  | .predicate subject, lexeme =>
    match iri .predicate lexeme with
    | .error refusal => .error refusal
    | .ok name => .ok (s.expect (.object subject (.iri name)))
  | .object subject predicate, .blank label =>
    match s.blank label with
    | .error refusal => .error refusal
    | .ok (node, s) => .ok (s.expect (.dot subject predicate node))
  | .object subject predicate, .string delimiter value =>
    if delimiter = "\"" then .ok (s.expect (.suffix subject predicate value))
    else refuse .lineString
  | .object subject predicate, lexeme =>
    match iri .object lexeme with
    | .error refusal => .error refusal
    | .ok name => .ok (s.expect (.dot subject predicate (.iri name)))
  | .suffix subject predicate value, .languageTag tag =>
    s.literal subject predicate value (some tag) none
  | .suffix subject predicate value, .datatypeMark =>
    .ok (s.expect (.datatype subject predicate value))
  | .suffix subject predicate value, lexeme =>
    match checked (Literal.make (.text value) none none) with
    | .error refusal => .error refusal
    | .ok literal => s.endLine subject predicate (.literal literal) lexeme
  | .datatype subject predicate value, lexeme =>
    match iri .datatype lexeme with
    | .error refusal => .error refusal
    | .ok name => s.literal subject predicate value none (some name)
  | .dot subject predicate object, lexeme => s.endLine subject predicate object lexeme

end State

def State.graph? (s : State) : Option Graph := if s.expecting = .nothing then some s.graph else none

def machine : Machine State Graph := ⟨State.step, State.graph?⟩

def readTokens (source : SourceName) (tokens : Tokens) : Except ReadFailure Graph :=
  machine.read source {} tokens

def read (text : String) (source : SourceName) : Except ReadFailure Graph :=
  readTokens source (Token.scanAll text)

end Rdf.NTriples
