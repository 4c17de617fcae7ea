import Rdf.Graph.Basic

/-!
Counts of the different terms of a graph.
-/

namespace Rdf

structure Statistics where
  triples : Nat
  namespaces : Nat
  subjects : Nat
  predicates : Nat
  objects : Nat
  iris : Nat
  blankNodes : Nat
  literals : Nat
  deriving DecidableEq, Repr

namespace Statistics

def distinct {α : Type} [BEq α] (values : List α) : Nat := values.eraseDups.length

/-- The identifiers that a term mentions: itself, or the datatype of a literal. -/
def irisOf : Term → List Iri
  | .iri iri => [iri]
  | .literal literal => literal.datatype.toList
  | _ => []

def literalsOf : Term → List Literal
  | .literal literal => [literal]
  | _ => []

def ofGraph (g : Graph) : Statistics :=
  let terms := g.triples.flatMap Triple.terms
  { triples := g.size
    namespaces := g.namespaces.length
    subjects := distinct (g.triples.map (·.subject.key))
    predicates := distinct (g.triples.map (·.predicate.key))
    objects := distinct (g.triples.map (·.object.key))
    iris := distinct (terms.flatMap irisOf)
    blankNodes := distinct (terms.filterMap Term.blankId?)
    literals := distinct (terms.flatMap literalsOf) }

/-- The counts by the names they are reported under, in the order of the report. -/
def entries (s : Statistics) : List (String × Nat) :=
  [("triples", s.triples), ("namespaces", s.namespaces), ("subjects_unique", s.subjects),
    ("predicates_unique", s.predicates), ("objects_unique", s.objects), ("iris_unique", s.iris),
    ("blank_nodes_unique", s.blankNodes), ("literals_unique", s.literals)]

end Statistics

end Rdf
