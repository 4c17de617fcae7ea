import Rdf.Proofs.Turtle.Grammar
import Rdf.Vocabulary

/-!
What Turtle documents mean.

A phrase stands for a term or adds triples, once its names, its labels and its marks are given
meanings.
-/

namespace Rdf.Turtle

/-- What names, labels of blank nodes and marks stand for. -/
structure Interpretation (ν : Type) where
  iri : Name → Iri
  label : String → String
  node : ν → String

variable {ν : Type} (i : Interpretation ν)

def Verb.iri : Verb → Iri
  | a => Vocabulary.type
  | name n => i.iri n

/-- The datatype of the numbers in a notation. -/
def numberType : NumberKind → Iri
  | .integer => Vocabulary.integer
  | .decimal => Vocabulary.decimal
  | .double => Vocabulary.double

def Constant.literal : Constant → Literal
  | string _ value .nothing => ⟨value, none, none⟩
  | string _ value (.language tag) => ⟨value, some tag, none⟩
  | string _ value (.datatype name) => ⟨value, none, some (i.iri name)⟩
  | number kind text => ⟨text, none, some (numberType kind)⟩
  | boolean text => ⟨text, none, some Vocabulary.boolean⟩

/-- The triples of a list with the given cells and items. -/
def chainTriples : List (Term × Term) → List Triple
  | [] => []
  | (cell, item) :: rest =>
    ⟨cell, .iri Vocabulary.first, item⟩ ::
      ⟨cell, .iri Vocabulary.rest, (rest.map (·.1)).headD (.iri Vocabulary.nil)⟩ ::
        chainTriples rest

/-- The triples of a list go from its cells to its items, its cells and the empty list. -/
theorem forall_mem_chainTriples {holds : Triple → Prop} (isCell isItem : Term → Prop)
    {links : List (Term × Term)}
    (hfirst : ∀ {cell item}, isCell cell → isItem item → holds ⟨cell, .iri Vocabulary.first, item⟩)
    (hrest : ∀ {cell next}, isCell cell → isCell next ∨ next = .iri Vocabulary.nil →
      holds ⟨cell, .iri Vocabulary.rest, next⟩)
    (h : ∀ link ∈ links, isCell link.1 ∧ isItem link.2) : ∀ t ∈ chainTriples links, holds t := by
  induction links with
  | nil => simp [chainTriples]
  | cons link links ih =>
    obtain ⟨⟨hcell, hitem⟩, hlinks⟩ := List.forall_mem_cons.1 h
    have hnext : isCell ((links.map Prod.fst).headD (.iri Vocabulary.nil)) ∨
        (links.map Prod.fst).headD (.iri Vocabulary.nil) = .iri Vocabulary.nil := by
      cases links with
      | nil => exact .inr rfl
      | cons next _ => exact .inl (hlinks next List.mem_cons_self).1
    simp only [chainTriples, List.forall_mem_cons]
    exact ⟨hfirst hcell hitem, hrest hcell hnext, ih hlinks⟩

namespace Phrase

/-- The marks of the items of a collection. -/
def cells : {part : Part} → Phrase ν part → List ν
  | _, item cell _ rest => cell :: rest.cells
  | _, _ => []

/-- The marks in a phrase, each bracket before and each collection behind what stands in it. -/
def marks : {part : Part} → Phrase ν part → List ν
  | _, emptyBracket node => [node]
  | _, bracket node content => node :: content.marks
  | _, collection items => items.marks ++ items.cells
  | _, resource node => node.marks
  | _, item _ first rest => first.marks ++ rest.marks
  | _, nextObject first rest => first.marks ++ rest.marks
  | _, predicates _ first rest more => first.marks ++ rest.marks ++ more.marks
  | _, semicolon rest => rest.marks
  | _, nextPredicates content => content.marks
  | _, name _ | _, blank _ | _, constant _ | _, noItems | _, noObjects | _, noMore => []

/-- The labels of blank nodes in a phrase. -/
def labels : {part : Part} → Phrase ν part → List String
  | _, blank label => [label]
  | _, bracket _ content => content.labels
  | _, collection items => items.labels
  | _, resource node => node.labels
  | _, item _ first rest => first.labels ++ rest.labels
  | _, nextObject first rest => first.labels ++ rest.labels
  | _, predicates _ first rest more => first.labels ++ rest.labels ++ more.labels
  | _, semicolon rest => rest.labels
  | _, nextPredicates content => content.labels
  | _, name _ | _, emptyBracket _ | _, constant _ | _, noItems | _, noObjects | _, noMore => []

/-- The node that a phrase stands for. -/
def node : Phrase ν .resource → Term
  | name n => .iri (i.iri n)
  | blank label => .blank (i.label label)
  | emptyBracket mark => .blank (i.node mark)
  | bracket mark _ => .blank (i.node mark)
  | collection items =>
    (items.cells.map fun cell => Term.blank (i.node cell)).headD (.iri Vocabulary.nil)

/-- The term that a phrase stands for. -/
def term : Phrase ν .object → Term
  | resource phrase => phrase.node i
  | constant literal => .literal (literal.literal i)

/-- The terms of the items of a collection. -/
def itemTerms : {part : Part} → Phrase ν part → List Term
  | _, item _ first rest => first.term i :: rest.itemTerms
  | _, _ => []

/-- The triples that a phrase adds, in their order. Objects are those of a subject and a predicate,
and predicates those of a subject; the other phrases do not depend on either. -/
def triples (subject : Term) : {part : Part} → Phrase ν part → (predicate : Term) → List Triple
  | _, bracket mark content, predicate => content.triples (.blank (i.node mark)) predicate
  | _, collection items, predicate =>
    items.triples subject predicate ++
      chainTriples ((items.cells.map fun cell => Term.blank (i.node cell)).zip (items.itemTerms i))
  | _, resource phrase, predicate => phrase.triples subject predicate
  | _, item _ first rest, predicate =>
    first.triples subject predicate ++ rest.triples subject predicate
  | _, nextObject first rest, predicate =>
    first.triples subject predicate ++ ⟨subject, predicate, first.term i⟩ ::
      rest.triples subject predicate
  | _, predicates verb first rest more, _ =>
    first.triples subject (.iri (verb.iri i)) ++
      ⟨subject, .iri (verb.iri i), first.term i⟩ :: rest.triples subject (.iri (verb.iri i)) ++
        more.triples subject (.iri (verb.iri i))
  | _, semicolon rest, predicate => rest.triples subject predicate
  | _, nextPredicates content, predicate => content.triples subject predicate
  | _, name _, _ | _, blank _, _ | _, emptyBracket _, _ | _, constant _, _ | _, noItems, _
  | _, noObjects, _ | _, noMore, _ => []

end Phrase

/-! ### Documents -/

namespace Statement

def marks : Statement ν → List ν
  | .space _ _ _ _ | .base _ _ _ => []
  | .triples subject content => subject.marks ++ content.marks
  | .lone mark content => mark :: content.marks

def labels : Statement ν → List String
  | .space _ _ _ _ | .base _ _ _ => []
  | .triples subject content => subject.labels ++ content.labels
  | .lone _ content => content.labels

def added (scope : Scope) (label : String → String) (node : ν → String) :
    Statement ν → List Triple
  | .space _ _ _ _ | .base _ _ _ => []
  | .triples subject content =>
    let i : Interpretation ν := ⟨scope.iri, label, node⟩
    subject.triples i (subject.node i) (subject.node i) ++
      content.triples i (subject.node i) (subject.node i)
  | .lone mark content =>
    let i : Interpretation ν := ⟨scope.iri, label, node⟩
    content.triples i (.blank (node mark)) (.blank (node mark))

end Statement

namespace Document

def marks (document : Document ν) : List ν := document.flatMap Statement.marks

def labels (document : Document ν) : List String := document.flatMap Statement.labels

/-- The triples that a document adds, in their order. -/
def triples (label : String → String) (node : ν → String) (scope : Scope) :
    Document ν → List Triple
  | [] => []
  | statement :: rest =>
    statement.added scope label node ++ triples label node (statement.scopeAfter scope) rest

def scopeAfter (scope : Scope) (document : Document ν) : Scope :=
  document.foldl (fun scope statement => statement.scopeAfter scope) scope

end Document

end Rdf.Turtle
