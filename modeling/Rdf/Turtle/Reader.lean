import Rdf.Document.Machine
import Rdf.Graph.Basic
import Rdf.Vocabulary

/-!
Reading Turtle.

The reader is a machine with a stack. `State.expecting` says what the next token has to be or to
begin; `State.waiting` holds, for each bracket and each parenthesis that is open, the innermost
first, what its node is for. A term goes to a `Target` as soon as it is complete, and a triple is
added as soon as its object is.
-/

namespace Rdf.Turtle

inductive Target where
  /-- The subject of a statement. -/
  | subject
  /-- The object of a subject and a predicate. -/
  | object (subject predicate : Term)
  /-- The next item of a collection, which holds the given items, the last one first. -/
  | item (items : List Term)
  deriving DecidableEq, Repr

/-- What the next token has to be, or to begin. -/
inductive Expecting where
  /-- A term; where it would be a subject, a directive or the end of the document. -/
  | term (target : Target)
  /-- The label that a directive binds. -/
  | label (word : Directive)
  /-- The namespace that a directive binds a label to. -/
  | space (word : Directive) (label : String)
  /-- The base that a directive sets. -/
  | base (word : Directive)
  /-- The dot behind a directive. -/
  | directiveEnd (word : String)
  /-- A predicate for a subject. -/
  | predicate (subject : Term)
  /-- A predicate for the node of a bracket just opened, or the end of the bracket. -/
  | firstPredicate (node : Term)
  /-- A predicate for the subject of a statement, or the end of the statement. -/
  | anyPredicate (subject : Term)
  /-- What comes behind an object. -/
  | more (subject predicate : Term)
  /-- What comes behind a semicolon. -/
  | nextPredicate (subject : Term)
  /-- What comes behind a string. -/
  | suffix (value : String) (target : Target)
  /-- The datatype of a string. -/
  | datatype (value : String) (target : Target)
  /-- Nothing: the document has ended. -/
  | nothing
  deriving DecidableEq, Repr

structure State where
  graph : Graph
  /-- The blank nodes that stand for the labels of the document. -/
  labels : List (String × Term) := []
  waiting : List Target := []
  expecting : Expecting := .term .subject
  deriving DecidableEq, Repr

namespace State

open Refusal

/-! ### Identifiers and labels -/

/-- The identifier that a text in angle brackets stands for, where a base is in force. -/
def resolve (base : Option Iri) (value : String) : Except Refusal Iri :=
  if hasScheme value.toList then checked (Iri.ofText value)
  else match base with
    | none => .error (.resolution (.noBase value))
    | some base =>
      if base.isAbsolute then
        match Iri.ofText (String.ofList (resolveText base.value.toList value.toList)) with
        | .ok iri => .ok iri
        | .error fault => .error (.resolution (.unresolvable value base.value fault))
      else .error (.resolution (.relativeBase base.value))

def expand (g : Graph) (label localPart : String) : Except Refusal Iri :=
  match g.namespace? label with
  | some iri => checked (Iri.ofText (iri.value ++ localPart))
  | none => .error (.resolution (.undefinedLabel label))

/-- The identifier that a lexeme stands for, if it is of a kind that stands for one. -/
def iri? (g : Graph) : Lexeme → Option (Except Refusal Iri)
  | .iri value => some (resolve g.base value)
  | .name label localPart => some (expand g label localPart)
  | _ => none

/-- The blank node of a label of the document. The label is kept unless the graph has seen it
before the document uses it; then a new one stands in. -/
def nodeOfLabel (s : State) (label : String) : Except Refusal (Term × State) :=
  match s.labels.lookup label with
  | some node => .ok (node, s)
  | none =>
    if s.graph.hasSeen label then
      let (minted, graph) := s.graph.mint
      let node := Term.blank minted
      .ok (node, { s with graph, labels := (label, node) :: s.labels })
    else match checked (s.graph.reserve (.text label)) with
      | .error refusal => .error refusal
      | .ok (node, graph) => .ok (node, { s with graph, labels := (label, node) :: s.labels })

/-! ### Terms -/

def expect (s : State) (expecting : Expecting) : State := { s with expecting }

def addTriple (s : State) (subject predicate object : Term) : Except Refusal State :=
  match checked (Triple.make subject predicate object) with
  | .error refusal => .error refusal
  | .ok t => .ok { s with graph := s.graph.add t }

/-- Hands a term over to its target. Behind a bracket with something in it that is a subject, the
statement may end. -/
def deliver (s : State) (term : Term) (mayEnd : Bool) : Target → Except Refusal State
  | .subject => .ok (s.expect (if mayEnd then .anyPredicate term else .predicate term))
  | .object subject predicate =>
    match s.addTriple subject predicate term with
    | .error refusal => .error refusal
    | .ok s => .ok (s.expect (.more subject predicate))
  | .item items => .ok (s.expect (.term (.item (term :: items))))

def deliverLiteral (s : State) (value : String) (language : Option String)
    (datatype : Option Iri) (target : Target) : Except Refusal State :=
  match checked (Literal.make (.text value) language (datatype.map .proper)) with
  | .error refusal => .error refusal
  | .ok literal => s.deliver (.literal literal) false target

def datatypeOf : NumberKind → Iri
  | .integer => Vocabulary.integer
  | .decimal => Vocabulary.decimal
  | .double => Vocabulary.double

/-- Opens a bracket or a parenthesis, whose node is for a target. -/
def nest (s : State) (target : Target) : Except Refusal State :=
  if maxNesting ≤ s.waiting.length then refuse .nesting
  else .ok { s with waiting := target :: s.waiting }

def beginTerm (s : State) (target : Target) (lexeme : Lexeme) : Except Refusal State :=
  let isSubject := target = .subject
  match iri? s.graph lexeme with
  | some (.error refusal) => .error refusal
  | some (.ok iri) => s.deliver (.iri iri) false target
  | none =>
    match lexeme with
    | .blank label =>
      match s.nodeOfLabel label with
      | .error refusal => .error refusal
      | .ok (node, s) => s.deliver node false target
    | .punct .openBracket =>
      match s.nest target with
      | .error refusal => .error refusal
      | .ok s =>
        let (label, graph) := s.graph.mint
        .ok ({ s with graph }.expect (.firstPredicate (.blank label)))
    | .punct .openParen =>
      match s.nest target with
      | .error refusal => .error refusal
      | .ok s => .ok (s.expect (.term (.item [])))
    | .string _ value =>
      if isSubject then refuse .subject else .ok (s.expect (.suffix value target))
    | .number kind text =>
      if isSubject then refuse .subject
      else s.deliverLiteral text none (some (datatypeOf kind)) target
    | .boolean text =>
      if isSubject then refuse .subject
      else s.deliverLiteral text none (some Vocabulary.boolean) target
    | _ => refuse (if isSubject then .subject else .object)

/-! ### Brackets and collections -/

def closeBracket (s : State) (node : Term) (hadContent : Bool) : Except Refusal State :=
  match s.waiting with
  | [] => refuse .bracketEnd
  | target :: waiting => { s with waiting }.deliver node hadContent target

def chain (s : State) : List (Term × Term) → Except Refusal State
  | [] => .ok s
  | (cell, item) :: rest =>
    match s.addTriple cell (.iri Vocabulary.first) item with
    | .error refusal => .error refusal
    | .ok s =>
      let next := match rest with
        | (cell, _) :: _ => cell
        | [] => .iri Vocabulary.nil
      match s.addTriple cell (.iri Vocabulary.rest) next with
      | .error refusal => .error refusal
      | .ok s => chain s rest

/-- Ends the innermost collection, whose items are given, the last one first. All its cells are
minted before the first of its triples is added. -/
def closeCollection (s : State) (items : List Term) : Except Refusal State :=
  match s.waiting with
  | [] => refuse .collectionEnd
  | target :: waiting =>
    let s := { s with waiting }
    let (labels, graph) := s.graph.mintMany items.length
    let cells := labels.map Term.blank
    match { s with graph }.chain (cells.zip items.reverse) with
    | .error refusal => .error refusal
    | .ok s => s.deliver (cells.headD (.iri Vocabulary.nil)) false target

/-! ### Statements -/

/-- The predicate that a lexeme stands for, if it is of a kind that stands for one. -/
def predicate? (g : Graph) : Lexeme → Option (Except Refusal Iri)
  | .a => some (.ok Vocabulary.type)
  | lexeme => iri? g lexeme

/-- Reads a predicate for a subject, or does something else where there is none. -/
def predicateOr (s : State) (subject : Term) (lexeme : Lexeme)
    (otherwise : Except Refusal State) : Except Refusal State :=
  match predicate? s.graph lexeme with
  | some (.error refusal) => .error refusal
  | some (.ok iri) => .ok (s.expect (.term (.object subject (.iri iri))))
  | none => otherwise

/-- Ends the predicates of a subject: at the outermost level by a dot, and inside a bracket by the
end of the bracket. -/
def endSubject (s : State) (subject : Term) (lexeme : Lexeme) : Except Refusal State :=
  match s.waiting with
  | [] =>
    if lexeme = .punct .dot then .ok (s.expect (.term .subject)) else refuse .statementEnd
  | _ :: _ =>
    if lexeme = .punct .closeBracket then s.closeBracket subject true else refuse .bracketEnd

def openDirective (s : State) (word : Directive) : State :=
  s.expect (match word.declares with
    | .label => .label word
    | .base => .base word)

def endDirective (s : State) (word : Directive) : State :=
  s.expect (if word.isDotted then .directiveEnd word.word else .term .subject)

/-- Reads a lexeme where no string waits for its suffix. -/
def advance (s : State) (lexeme : Lexeme) : Except Refusal State :=
  match s.expecting, lexeme with
  | .nothing, _ => .ok s
  | .term .subject, .eof => .ok (s.expect .nothing)
  | .term .subject, .directive word => .ok (s.openDirective word)
  | .term (.item items), .punct .closeParen => s.closeCollection items
  | .term (.item _), .eof => refuse .collectionEnd
  | .term target, _ => s.beginTerm target lexeme
  | .label word, .name label "" => .ok (s.expect (.space word label))
  | .label word, _ => refuse (.directiveLabel word.word)
  | .space word label, .iri value =>
    match resolve s.graph.base value with
    | .error refusal => .error refusal
    | .ok iri => .ok ({ s with graph := s.graph.bind label iri }.endDirective word)
  | .space word _, _ => refuse (.directiveIri word.word)
  | .base word, .iri value =>
    match resolve s.graph.base value with
    | .error refusal => .error refusal
    | .ok iri => .ok ({ s with graph := s.graph.setBase (some iri) }.endDirective word)
  | .base word, _ => refuse (.directiveIri word.word)
  | .directiveEnd _, .punct .dot => .ok (s.expect (.term .subject))
  | .directiveEnd word, _ => refuse (.directiveEnd word)
  | .predicate subject, _ => s.predicateOr subject lexeme (refuse .predicate)
  | .firstPredicate node, .punct .closeBracket => s.closeBracket node false
  | .firstPredicate node, _ => s.predicateOr node lexeme (refuse .predicate)
  | .anyPredicate subject, _ => s.predicateOr subject lexeme (s.endSubject subject lexeme)
  | .more subject predicate, .punct .comma =>
    .ok (s.expect (.term (.object subject predicate)))
  | .more subject _, .punct .semicolon => .ok (s.expect (.nextPredicate subject))
  | .more subject _, _ => s.endSubject subject lexeme
  | .nextPredicate _, .punct .semicolon => .ok s
  | .nextPredicate subject, _ => s.predicateOr subject lexeme (s.endSubject subject lexeme)
  | .datatype value target, _ =>
    match iri? s.graph lexeme with
    | some (.error refusal) => .error refusal
    | some (.ok iri) => s.deliverLiteral value none (some iri) target
    | none => refuse .datatype
  | .suffix _ _, _ => refuse .object

/-- Reads a lexeme. One that is no suffix of a string ends the literal before it is read itself. -/
def step (s : State) (lexeme : Lexeme) : Except Refusal State :=
  match s.expecting with
  | .suffix value target =>
    match lexeme with
    | .languageTag tag => s.deliverLiteral value (some tag) none target
    | .datatypeMark => .ok (s.expect (.datatype value target))
    | lexeme =>
      match s.deliverLiteral value none none target with
      | .error refusal => .error refusal
      | .ok s => s.advance lexeme
  | _ => s.advance lexeme

end State

def State.graph? (s : State) : Option Graph := if s.expecting = .nothing then some s.graph else none

def machine : Machine State Graph := ⟨State.step, State.graph?⟩

/-- The graph of a row of tokens, where a base is in force at first. -/
def readTokens (source : SourceName) (base : Option Iri) (tokens : Tokens) :
    Except ReadFailure Graph :=
  machine.read source { graph := { base } } tokens

def read (text : String) (source : SourceName) (base : Option Iri) : Except ReadFailure Graph :=
  readTokens source base (Token.scanAll text)

end Rdf.Turtle
