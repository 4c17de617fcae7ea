import Rdf.Graph.Basic
import Rdf.Document.Error

/-!
The grammar of Turtle, over lexemes.

A document is a row of statements, and a statement has phrases in it. Brackets and collections
stand for nodes without a label; a phrase gives each of them a mark from `ν`, which shows nowhere
in its lexemes.
-/

namespace Rdf.Turtle

/-! ### Phrases -/

/-- A name of an identifier: in angle brackets, or with the label of a namespace. -/
inductive Name where
  | iri (value : String)
  | short (label localPart : String)
  deriving DecidableEq, Repr

def Name.lexeme : Name → Lexeme
  | iri value => .iri value
  | short label localPart => .name label localPart

inductive Verb where
  | a
  | name (name : Name)
  deriving DecidableEq, Repr

def Verb.lexeme : Verb → Lexeme
  | a => .a
  | name n => n.lexeme

def Verb.names : Verb → List Name
  | a => []
  | name n => [n]

/-- What may stand behind a string. -/
inductive Suffix where
  | nothing
  | language (tag : String)
  | datatype (name : Name)
  deriving DecidableEq, Repr

def Suffix.lexemes : Suffix → List Lexeme
  | nothing => []
  | language tag => [.languageTag tag]
  | datatype name => [.datatypeMark, name.lexeme]

def Suffix.names : Suffix → List Name
  | datatype name => [name]
  | _ => []

/-- A literal as it is written. -/
inductive Constant where
  | string (delimiter value : String) (suffix : Suffix)
  | number (kind : NumberKind) (text : String)
  | boolean (text : String)
  deriving DecidableEq, Repr

def Constant.lexemes : Constant → List Lexeme
  | string delimiter value suffix => .string delimiter value :: suffix.lexemes
  | number kind text => [.number kind text]
  | boolean text => [.boolean text]

def Constant.names : Constant → List Name
  | string _ _ suffix => suffix.names
  | _ => []

inductive Part where
  /-- What may be a subject. -/
  | resource
  | object
  /-- What stands between parentheses. -/
  | items
  /-- The objects behind the first one. -/
  | objects
  | predicates
  /-- What stands behind the objects of a predicate. -/
  | more

inductive Phrase (ν : Type) : Part → Type
  | name (name : Name) : Phrase ν .resource
  | blank (label : String) : Phrase ν .resource
  | emptyBracket (node : ν) : Phrase ν .resource
  | bracket (node : ν) (content : Phrase ν .predicates) : Phrase ν .resource
  | collection (items : Phrase ν .items) : Phrase ν .resource
  | resource (node : Phrase ν .resource) : Phrase ν .object
  | constant (literal : Constant) : Phrase ν .object
  | noItems : Phrase ν .items
  | item (cell : ν) (first : Phrase ν .object) (rest : Phrase ν .items) : Phrase ν .items
  | noObjects : Phrase ν .objects
  | nextObject (first : Phrase ν .object) (rest : Phrase ν .objects) : Phrase ν .objects
  | predicates (verb : Verb) (first : Phrase ν .object) (rest : Phrase ν .objects)
      (more : Phrase ν .more) : Phrase ν .predicates
  | noMore : Phrase ν .more
  | semicolon (rest : Phrase ν .more) : Phrase ν .more
  | nextPredicates (content : Phrase ν .predicates) : Phrase ν .more

namespace Phrase

variable {ν : Type}

def lexemes : {part : Part} → Phrase ν part → List Lexeme
  | _, name n => [n.lexeme]
  | _, blank label => [.blank label]
  | _, emptyBracket _ => [.punct .openBracket, .punct .closeBracket]
  | _, bracket _ content => .punct .openBracket :: content.lexemes ++ [.punct .closeBracket]
  | _, collection items => .punct .openParen :: items.lexemes ++ [.punct .closeParen]
  | _, resource node => node.lexemes
  | _, constant literal => literal.lexemes
  | _, item _ first rest => first.lexemes ++ rest.lexemes
  | _, nextObject first rest => .punct .comma :: first.lexemes ++ rest.lexemes
  | _, predicates verb first rest more =>
    verb.lexeme :: first.lexemes ++ rest.lexemes ++ more.lexemes
  | _, semicolon rest => .punct .semicolon :: rest.lexemes
  | _, nextPredicates content => .punct .semicolon :: content.lexemes
  | _, noItems | _, noObjects | _, noMore => []

/-- The names of identifiers in a phrase. -/
def names : {part : Part} → Phrase ν part → List Name
  | _, name n => [n]
  | _, bracket _ content => content.names
  | _, collection items => items.names
  | _, resource node => node.names
  | _, constant literal => literal.names
  | _, item _ first rest => first.names ++ rest.names
  | _, nextObject first rest => first.names ++ rest.names
  | _, predicates verb first rest more => verb.names ++ first.names ++ rest.names ++ more.names
  | _, semicolon rest => rest.names
  | _, nextPredicates content => content.names
  | _, blank _ | _, emptyBracket _ | _, noItems | _, noObjects | _, noMore => []

/-- How deep brackets and parentheses are nested. -/
def depth : {part : Part} → Phrase ν part → Nat
  | _, emptyBracket _ => 1
  | _, bracket _ content => content.depth + 1
  | _, collection items => items.depth + 1
  | _, resource node => node.depth
  | _, item _ first rest => max first.depth rest.depth
  | _, nextObject first rest => max first.depth rest.depth
  | _, predicates _ first rest more => max (max first.depth rest.depth) more.depth
  | _, semicolon rest => rest.depth
  | _, nextPredicates content => content.depth
  | _, name _ | _, blank _ | _, constant _ | _, noItems | _, noObjects | _, noMore => 0

end Phrase

/-! ### Statements -/

/-- A statement with its dot. A bracket with something in it may be a statement of its own. -/
inductive Statement (ν : Type) where
  | space (word : String) (isDotted : Bool) (label iri : String)
  | base (word : String) (isDotted : Bool) (iri : String)
  | triples (subject : Phrase ν .resource) (content : Phrase ν .predicates)
  | lone (node : ν) (content : Phrase ν .predicates)

/-- The dot behind a directive, where it has one. -/
def directiveEnd (isDotted : Bool) : List Lexeme := if isDotted then [.punct .dot] else []

namespace Statement

variable {ν : Type}

def lexemes : Statement ν → List Lexeme
  | space word isDotted label iri =>
    [.directive ⟨.label, word, isDotted⟩, .name label "", .iri iri] ++ directiveEnd isDotted
  | base word isDotted iri =>
    [.directive ⟨.base, word, isDotted⟩, .iri iri] ++ directiveEnd isDotted
  | triples subject content => subject.lexemes ++ content.lexemes ++ [.punct .dot]
  | lone node content => (Phrase.bracket node content).lexemes ++ [.punct .dot]

def names : Statement ν → List Name
  | space _ _ _ iri => [.iri iri]
  | base _ _ iri => [.iri iri]
  | triples subject content => subject.names ++ content.names
  | lone _ content => content.names

def depth : Statement ν → Nat
  | space _ _ _ _ | base _ _ _ => 0
  | triples subject content => max subject.depth content.depth
  | lone node content => (Phrase.bracket node content).depth

end Statement

/-! ### Scopes -/

/-- The base and the namespaces that are in force. -/
structure Scope where
  base : Option Iri
  spaces : List (String × Iri)
  deriving DecidableEq, Repr

namespace Scope

/-- The identifier that a name stands for, where it stands for one. -/
def iri (scope : Scope) : Name → Iri
  | .iri value =>
    if hasScheme value.toList then ⟨value⟩
    else ⟨String.ofList (resolveText (scope.base.elim [] (·.value.toList)) value.toList)⟩
  | .short label localPart => ⟨(scope.spaces.lookup label).elim "" (·.value) ++ localPart⟩

end Scope

/-- A label that is bound once is looked up. -/
theorem lookup_of_mem {β : Type} {entries : List (String × β)} (h : (entries.map (·.1)).Nodup)
    {entry : String × β} (hmem : entry ∈ entries) : entries.lookup entry.1 = some entry.2 := by
  obtain ⟨before, behind, rfl⟩ := List.append_of_mem hmem
  refine List.lookup_eq_some_iff.2 ⟨before, behind, rfl, fun other hother => ?_⟩
  rw [List.map_append, List.nodup_append] at h
  have hne := h.2.2 _ (List.mem_map_of_mem hother) _ (List.mem_map_of_mem List.mem_cons_self)
  exact bne_iff_ne.2 (Ne.symm hne)

/-- A name stands for an identifier: a relative one needs an absolute base, and a label a
namespace. -/
def Name.InScope (scope : Scope) : Name → Prop
  | iri value => hasScheme value.toList = true ∨ ∃ base ∈ scope.base, base.isAbsolute = true
  | short label _ => label ∈ scope.spaces.map (·.1)

instance (scope : Scope) (n : Name) : Decidable (n.InScope scope) :=
  match n with
  | .iri _ => inferInstanceAs (Decidable (_ ∨ _))
  | .short _ _ => inferInstanceAs (Decidable (_ ∈ _))

def Statement.scopeAfter {ν : Type} (scope : Scope) : Statement ν → Scope
  | .space _ _ label value =>
    { scope with spaces := Graph.bindIn label (scope.iri (.iri value)) scope.spaces }
  | .base _ _ value => { scope with base := some (scope.iri (.iri value)) }
  | .triples _ _ | .lone _ _ => scope

abbrev Document (ν : Type) : Type := List (Statement ν)

namespace Document

variable {ν : Type}

def lexemes (document : Document ν) : List Lexeme := document.flatMap Statement.lexemes

/-- Each name stands for an identifier where it occurs. -/
def InScope (scope : Scope) : Document ν → Prop
  | [] => True
  | statement :: rest =>
    (∀ name ∈ statement.names, name.InScope scope) ∧ InScope (statement.scopeAfter scope) rest

instance decidableInScope (scope : Scope) (document : Document ν) :
    Decidable (document.InScope scope) :=
  match document with
  | [] => inferInstanceAs (Decidable True)
  | statement :: rest =>
    have := decidableInScope (statement.scopeAfter scope) rest
    inferInstanceAs (Decidable (_ ∧ _))

/-- No nesting is too deep. -/
def IsShallow (document : Document ν) : Prop :=
  ∀ statement ∈ document, statement.depth ≤ maxNesting

instance (document : Document ν) : Decidable document.IsShallow :=
  inferInstanceAs (Decidable (∀ _ ∈ _, _))

end Document

end Rdf.Turtle
