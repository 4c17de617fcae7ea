import Rdf.Term.Triple

/-!
Colours of blank nodes.

Two blank nodes that a renaming can take to each other have equal surroundings. A colouring gives
equal numbers to nodes whose surroundings, seen to some depth, are equal; colours of two sets of
triples are numbered together, so that they can be compared.
-/

namespace Rdf

/-- A triple seen from one of its blank nodes: whether the node is the subject, the predicate, and
the term at the other end. -/
structure Edge (α : Type) where
  outward : Bool
  predicate : Term
  other : α
  deriving DecidableEq, Repr

def edgesOf (ts : List Triple) (id : String) : List (Edge Term) :=
  ts.flatMap fun t =>
    (if t.subject = .blank id then [⟨true, t.predicate, t.object⟩] else [])
    ++ (if t.object = .blank id then [⟨false, t.predicate, t.subject⟩] else [])

/-- The blank nodes of a row of triples, in the order of their first appearance. -/
def blankNodes (ts : List Triple) : List String := (ts.flatMap Triple.blankIds).eraseDups

/-- The numbers of the colours of blank nodes. -/
abbrev Colouring : Type := List (String × Nat)

namespace Colouring

/-- The colour of a node, which for a node that has none is one that no node has. -/
def colour (colouring : Colouring) (id : String) : Nat :=
  (colouring.lookup id).getD colouring.length

def colours (colouring : Colouring) : List Nat := colouring.map (·.2)

/-- The position of the first element that is the same as a value; behind the last one if there is
none. -/
def position {σ : Type} (same : σ → σ → Bool) (value : σ) (palette : List σ) : Nat :=
  palette.findIdx (same value)

/-- Numbers values by the first of the palette that is the same, and puts new ones behind it. -/
def number {σ : Type} (same : σ → σ → Bool) (palette : List σ) :
    List (String × σ) → Colouring × List σ
  | [] => ([], palette)
  | (id, value) :: rest =>
    let found := position same value palette
    let palette := if found < palette.length then palette else palette ++ [value]
    let (numbered, palette) := number same palette rest
    ((id, found) :: numbered, palette)

/-- A term as it is seen from a blank node, all blank nodes looking alike. -/
def seen : Term → Option Term
  | .blank _ => none
  | .plain .absent => none
  | term => some term

def surroundings (ts : List Triple) (id : String) : List (Edge (Option Term)) :=
  (edgesOf ts id).map fun edge => { edge with other := seen edge.other }

def start (palette : List (List (Edge (Option Term)))) (ts : List Triple) :
    Colouring × List (List (Edge (Option Term))) :=
  number List.isPerm palette ((blankNodes ts).map fun id => (id, surroundings ts id))

/-- The edges of a node whose other end is a blank node, with the id there. -/
def links (ts : List Triple) (id : String) : List (Edge String) :=
  (edgesOf ts id).filterMap fun edge =>
    edge.other.blankId?.map fun other => { edge with other }

/-- The colour of a node together with those of its neighbours. -/
structure View where
  own : Nat
  around : List (Edge Nat)
  deriving DecidableEq, Repr

def View.same (v w : View) : Bool := v.own == w.own && v.around.isPerm w.around

/-- Colours by the colours of each node and of its neighbours. -/
def refine (palette : List View) (nodes : List (String × List (Edge String)))
    (colouring : Colouring) : Colouring × List View :=
  number View.same palette (nodes.map fun (id, links) =>
    (id, ⟨colouring.colour id,
      links.map fun edge => { edge with other := colouring.colour edge.other }⟩))

/-- Colours of two sets of triples that are numbered together. -/
structure Paired where
  left : Colouring
  right : Colouring
  deriving DecidableEq, Repr

namespace Paired

def classes (paired : Paired) : Nat := (paired.left.colours ++ paired.right.colours).eraseDups.length

/-- Refines the colours of two sets of triples, given by their nodes with the links of each. -/
def refine (left right : List (String × List (Edge String))) (paired : Paired) : Paired :=
  let (finerLeft, palette) := Colouring.refine [] left paired.left
  let (finerRight, _) := Colouring.refine palette right paired.right
  ⟨finerLeft, finerRight⟩

end Paired

theorem length_number {σ : Type} (same : σ → σ → Bool) (palette : List σ)
    (entries : List (String × σ)) : (number same palette entries).1.length = entries.length := by
  induction entries generalizing palette with
  | nil => rfl
  | cons entry rest ih => simp only [number, List.length_cons, ih]

theorem length_eraseDups_le {α : Type} [BEq α] [LawfulBEq α] (xs : List α) :
    xs.eraseDups.length ≤ xs.length := by
  induction hn : xs.length using Nat.strongRecOn generalizing xs with
  | ind n ih =>
    cases xs with
    | nil => simp
    | cons x xs =>
      have hf := List.length_filter_le (fun y => !y == x) xs
      simp only [List.length_cons] at hn
      have hr := ih (xs.filter fun y => !y == x).length (by omega) _ rfl
      simp only [List.eraseDups_cons, List.length_cons]
      omega

/-- A refinement has no more classes than there are nodes. -/
theorem Paired.classes_refine_le (left right : List (String × List (Edge String)))
    (paired : Paired) : (paired.refine left right).classes ≤ left.length + right.length := by
  have h := length_eraseDups_le
    ((paired.refine left right).left.colours ++ (paired.refine left right).right.colours)
  simpa [classes, refine, Colouring.refine, colours, length_number] using h

/-- Refines the colours of two sets of triples together as long as that splits a class. Nothing is
given once the classes of the two differ in size. -/
def settle (left right : List (String × List (Edge String))) (paired : Paired) : Option Paired :=
  if paired.left.colours.isPerm paired.right.colours then
    let finer := paired.refine left right
    if _more : paired.classes < finer.classes then settle left right finer else some paired
  else none
termination_by left.length + right.length - paired.classes
decreasing_by
  have h := Paired.classes_refine_le left right paired
  change paired.classes < (paired.refine left right).classes at _more
  omega

/-- The blank nodes of a row of triples, with the links of each. -/
def linked (ts : List Triple) : List (String × List (Edge String)) :=
  (blankNodes ts).map fun id => (id, links ts id)

/-- The colours of two sets of triples by the terms around each node. -/
def startBoth (left right : List Triple) : Paired :=
  let (leftColours, palette) := start [] left
  let (rightColours, _) := start palette right
  ⟨leftColours, rightColours⟩

/-- The stable colours of two sets of triples, unless they differ. -/
def stable (left right : List Triple) : Option Paired :=
  settle (linked left) (linked right) (startBoth left right)

end Colouring

end Rdf
