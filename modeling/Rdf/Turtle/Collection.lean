import Rdf.Term.Triple
import Rdf.Vocabulary

/-!
Lists that can be written as collections.

A cell of a list is a blank node with two triples of its own, one to its item and one to the rest
of the list. A chain of cells is compact when it ends in the empty list, when one triple refers to
its head, not as a rest, and when each later cell is referred to only by the cell before it. Chains
that are nested in a ring have no place to be written at and stay as they are.

Triples are known by their positions.
-/

namespace Rdf.Turtle

/-- A cell: the positions of its two triples, its item and what follows it. -/
structure Cell where
  firstIndex : Nat
  restIndex : Nat
  item : Term
  next : Term
  deriving DecidableEq, Repr

/-- A list that may be written as a collection: the id of its head, and its cells in order. -/
structure Chain where
  head : String
  cells : List Cell
  deriving DecidableEq, Repr

namespace Chain

def items (chain : Chain) : List Term := chain.cells.map (·.item)

def indices (chain : Chain) : List Nat :=
  chain.cells.flatMap fun cell => [cell.firstIndex, cell.restIndex]

end Chain

abbrev Indexed : Type := List (Triple × Nat)

namespace Indexed

def outgoing (ts : Indexed) (id : String) : Indexed := ts.filter (·.1.subject = .blank id)

def incoming (ts : Indexed) (id : String) : Indexed := ts.filter (·.1.object = .blank id)

/-- The blank nodes that are subjects, in the order of their first triples. -/
def subjects (ts : Indexed) : List String :=
  (ts.filterMap fun entry => entry.1.subject.blankId?).eraseDups

def cell? (ts : Indexed) (id : String) : Option Cell :=
  match ts.outgoing id with
  | [(s, i), (t, j)] =>
    if s.predicate = .iri Vocabulary.first ∧ t.predicate = .iri Vocabulary.rest then
      some ⟨i, j, s.object, t.object⟩
    else if s.predicate = .iri Vocabulary.rest ∧ t.predicate = .iri Vocabulary.first then
      some ⟨j, i, t.object, s.object⟩
    else none
  | _ => none

/-- Whether a blank node is referred to once, as the rest of a list. -/
def isRest (ts : Indexed) (id : String) : Bool :=
  match ts.incoming id with
  | [(t, _)] => t.predicate = .iri Vocabulary.rest
  | _ => false

/-- Whether a blank node is referred to once, and not as the rest of a list. -/
def isHead (ts : Indexed) (id : String) : Bool :=
  match ts.incoming id with
  | [(t, _)] => t.predicate ≠ .iri Vocabulary.rest
  | _ => false

/-- The cells from a term to the end of its list, at most `bound` of them. -/
def walk (ts : Indexed) : Nat → Term → Option (List Cell)
  | _, .iri iri => if iri = Vocabulary.nil then some [] else none
  | bound + 1, .blank id =>
    if ts.isRest id then
      match ts.cell? id with
      | some cell => (walk ts bound cell.next).map (cell :: ·)
      | none => none
    else none
  | _, _ => none

/-- The chain that a blank node is the head of. A chain has fewer cells than there are triples. -/
def chain? (ts : Indexed) (id : String) : Option Chain :=
  if ts.isHead id then
    match ts.cell? id with
    | some cell => (ts.walk ts.length cell.next).map fun cells => ⟨id, cell :: cells⟩
    | none => none
  else none

/-- All chains, in the order of the first triples of their heads. -/
def chains (ts : Indexed) : List Chain := ts.subjects.filterMap ts.chain?

/-- The chain that the triple referring to a head belongs to. -/
def parent? (ts : Indexed) (chains : List Chain) (head : String) : Option Chain :=
  match ts.incoming head with
  | (_, i) :: _ => chains.find? fun chain => chain.indices.contains i
  | [] => none

/-- Whether the way up from a head, through at most `bound` chains, ends outside of all chains. -/
def isRooted (ts : Indexed) (chains : List Chain) : Nat → String → Bool
  | 0, head => (ts.parent? chains head).isNone
  | bound + 1, head =>
    match ts.parent? chains head with
    | none => true
    | some chain => isRooted ts chains bound chain.head

end Indexed

/-- The collections that the lists of a row of triples are written as. A way up that is longer than
the number of chains never ends. -/
def collections (triples : List Triple) : List Chain :=
  let ts : Indexed := triples.zipIdx
  let chains := ts.chains
  chains.filter fun chain => ts.isRooted chains chains.length chain.head

/-- The positions of the triples that the collections stand for, in increasing order. -/
def compacted (triples : List Triple) (chains : List Chain) : List Nat :=
  let indices := chains.flatMap Chain.indices
  (List.range triples.length).filter indices.contains

end Rdf.Turtle
