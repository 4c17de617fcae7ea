import Rdf.Term.Triple

/-!
Graphs: sets of triples in the order of their insertion, with a table of namespaces, a base and a
supply of labels for blank nodes.

Minted labels are `auto0`, `auto1` and so on. The supply skips every label that the graph has seen,
whether it was minted, reserved or brought in by a triple, and a label stays seen when its triples
are removed.
-/

namespace Rdf

structure Graph where
  base : Option Iri := none
  /-- The triples, without repetition, the oldest first. -/
  triples : List Triple := []
  /-- The namespaces by label, in the order of their first binding. -/
  namespaces : List (String × Iri) := []
  /-- The number that the next minted label tries first. -/
  nextNumber : Nat := 0
  /-- The labels that are not to be minted. -/
  seen : List String := []
  /-- A value that was set as the base and is no identifier. It is shown, and used for nothing. -/
  strayBase : Option Plain := none
  deriving DecidableEq, Repr

namespace Graph

def size (g : Graph) : Nat := g.triples.length

def isEmpty (g : Graph) : Bool := g.triples.isEmpty

def setBase (g : Graph) (base : Option Iri) : Graph := { g with base, strayBase := none }

/-- Sets what should be an identifier as the base. -/
def setBaseGiven (g : Graph) : Option (Given Iri) → Graph
  | none => g.setBase none
  | some (.proper iri) => g.setBase (some iri)
  | some (.plain value) => { g with base := none, strayBase := some value }

/-! ### Namespaces -/

/-- The table with a label bound. A label that is bound already keeps its position. -/
def bindIn (label : String) (iri : Iri) : List (String × Iri) → List (String × Iri)
  | [] => [(label, iri)]
  | entry :: rest =>
    if entry.1 = label then (label, iri) :: rest else entry :: bindIn label iri rest

def bind (g : Graph) (label : String) (iri : Iri) : Graph :=
  { g with namespaces := bindIn label iri g.namespaces }

def bindGiven (g : Graph) (label : String) : Given Iri → Except Fault Graph
  | .proper iri => .ok (g.bind label iri)
  | .plain value => .error (.namespaceNotIri value.kindName)

def namespace? (g : Graph) (label : String) : Option Iri := g.namespaces.lookup label

/-- The namespace of a label, or the fault that there is none. -/
def namespaceOf (g : Graph) (label : String) : Except Fault Iri :=
  match g.namespace? label with
  | some iri => .ok iri
  | none => .error (.unboundLabel label)

/-! ### Blank nodes -/

def mintedLabel (number : Nat) : String := "auto" ++ toString number

/-- The first of `tries` numbers, from one on, whose label is not seen, or the number behind
them. -/
def freeNumber (seen : List String) : Nat → Nat → Nat
  | 0, number => number
  | tries + 1, number =>
    if seen.contains (mintedLabel number) then freeNumber seen tries (number + 1) else number

def hasSeen (g : Graph) (id : String) : Bool := g.seen.contains id

def hasSeenGiven (g : Graph) : Plain → Except Fault Bool
  | .text id => .ok (g.hasSeen id)
  | value => if value.isKey then .ok false else .error (.notKey value.kindName)

def see (g : Graph) (id : String) : Graph :=
  if g.hasSeen id then g else { g with seen := g.seen ++ [id] }

/-- A new label, and the graph that will not mint it again. As many tries as there are seen labels
suffice, for each of them can stand in the way once. -/
def mint (g : Graph) : String × Graph :=
  let number := freeNumber g.seen g.seen.length g.nextNumber
  let label := mintedLabel number
  (label, { g with nextNumber := number + 1, seen := g.seen ++ [label] })

def mintMany (g : Graph) : Nat → List String × Graph
  | 0 => ([], g)
  | count + 1 =>
    let (label, g) := g.mint
    let (labels, g) := g.mintMany count
    (label :: labels, g)

def reserve (g : Graph) (id : Plain) : Except Fault (Term × Graph) := do
  let node ← Term.ofBlankId id
  return (node, node.blankId?.elim g g.see)

/-! ### Triples -/

def has (g : Graph) (t : Triple) : Bool := t.isIn g.triples

/-- The graph with a triple in it. A triple that is there already keeps its place. -/
def add (g : Graph) (t : Triple) : Graph :=
  if g.has t then g
  else
    let g := t.blankIds.foldl see g
    { g with triples := g.triples ++ [t] }

def addAll (g : Graph) (ts : List Triple) : Graph := ts.foldl add g

def addGiven (g : Graph) : Given Triple → Except Fault Graph
  | .plain value => .error (.notTriple value.kindName)
  | .proper t =>
    match t.notKey? with
    | some value => .error (.notKey value.kindName)
    | none => .ok (g.add t)

/-- The value in what should be a triple that cannot be looked up. -/
def notKey? : Given Triple → Option Plain
  | .plain value => if value.isKey then none else some value
  | .proper t => t.notKey?

def containsGiven (g : Graph) (t : Given Triple) : Except Fault Bool :=
  match notKey? t, t with
  | some value, _ => .error (.notKey value.kindName)
  | none, .plain _ => .ok false
  | none, .proper t => .ok (g.has t)

/-- The graph without a triple. Its labels stay seen. -/
def erase (g : Graph) (t : Triple) : Graph :=
  { g with triples := g.triples.eraseP (·.key = t.key) }

/-- Removes what should be a triple. From an empty graph anything can be removed. -/
def eraseGiven (g : Graph) (t : Given Triple) : Except Fault Graph :=
  if g.isEmpty then .ok g
  else match notKey? t, t with
    | some value, _ => .error (.notKey value.kindName)
    | none, .plain _ => .ok g
    | none, .proper t => .ok (g.erase t)

/-- The triples that agree with a pattern, in which an absent term stands for any. -/
def matching (g : Graph) (subject predicate object : Option Term) : List Triple :=
  g.triples.filter fun t =>
    subject.all (·.key = t.subject.key) && predicate.all (·.key = t.predicate.key)
      && object.all (·.key = t.object.key)

def display (g : Graph) : String :=
  let base := match g.base, g.strayBase with
    | some iri, _ => iri.display
    | none, some value => value.display
    | none, none => "None"
  "<Graph base=" ++ base ++ " triples=" ++ toString g.size ++ ">"

end Graph

end Rdf
