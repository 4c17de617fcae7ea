import Rdf.Graph.Basic
import Rdf.Graph.Colouring

/-!
Equality of graphs up to the names of blank nodes.

Triples without blank nodes are compared as they are. For the others a renaming is looked for, node
by node, among the nodes of the same colour; a partial renaming is given up as soon as a triple
that it renames completely is not there on the other side.
-/

namespace Rdf

/-- The blank nodes that blank nodes are renamed to. -/
abbrev Renaming : Type := List (String × String)

namespace Renaming

/-- A term under a renaming, which may not reach it yet. -/
def term? (names : Renaming) : Term → Option Term
  | .blank id => (names.lookup id).map .blank
  | .plain .absent => none
  | term => some term

/-- Whether a triple, as far as it is renamed, is in a set. -/
def keeps (names : Renaming) (right : List Triple) (t : Triple) : Except Fault Bool :=
  match names.term? t.subject, names.term? t.object with
  | some subject, some object => do
    let renamed ← Triple.make subject t.predicate object
    return right.contains renamed
  | _, _ => .ok true

/-- Looks for targets of the nodes of a row, beyond those renamed already. -/
def completes (left right : List Triple) (candidates : String → List String) :
    List String → Renaming → Except Fault Bool
  | [], _ => .ok true
  | node :: rest, names =>
    (candidates node).anyM fun target =>
      if names.any (·.2 = target) then .ok false
      else do
        let names : Renaming := (node, target) :: names
        let around := left.filter (·.blankIds.contains node)
        if ← around.allM (names.keeps right) then completes left right candidates rest names
        else return false

end Renaming

def Colouring.nodesOf (colouring : Colouring) (colour : Nat) : List String :=
  (colouring.filter (·.2 = colour)).map (·.1)

/-- The order in which a search tries nodes and the candidates of a node. -/
structure SearchOrder where
  /-- A row of nodes, each of which has candidates, in the order they are renamed in. -/
  nodes : (String → List String) → List String → List String
  /-- The candidates of a node in the order they are tried in. -/
  targets : String → List String → List String
  nodes_perm : ∀ candidates ids, (nodes candidates ids).Perm ids
  targets_perm : ∀ id ids, (targets id ids).Perm ids

/-- Nodes with the fewest candidates come first, and candidates as they are found. -/
def SearchOrder.fewestFirst : SearchOrder where
  nodes candidates ids :=
    ids.mergeSort fun a b =>
      (candidates a).length < (candidates b).length
        || ((candidates a).length = (candidates b).length && a ≤ b)
  targets _ ids := ids
  nodes_perm _ ids := List.mergeSort_perm ids _
  targets_perm _ _ := .rfl

def Triple.isGround (t : Triple) : Bool := t.blankIds.isEmpty

/-- Whether some renaming of the blank nodes of one set of triples makes it the other, by a search
in some order. -/
def isomorphicBy (order : SearchOrder) (left right : List Triple) : Except Fault Bool :=
  let left := left.eraseDupsBy fun t u => t.key = u.key
  let right := right.eraseDupsBy fun t u => t.key = u.key
  let (leftGround, leftBlank) := left.partition Triple.isGround
  let (rightGround, rightBlank) := right.partition Triple.isGround
  if left.length ≠ right.length then .ok false
  else if !(leftGround.all (·.isIn rightGround) && rightGround.all (·.isIn leftGround)) then
    .ok false
  else match Colouring.stable (leftBlank.map Triple.key) (rightBlank.map Triple.key) with
    | none => .ok false
    | some colours =>
      let candidates := fun id => colours.right.nodesOf (colours.left.colour id)
      Renaming.completes leftBlank rightBlank (fun id => order.targets id (candidates id))
        (order.nodes candidates (colours.left.map (·.1))) []

/-- Whether some renaming of the blank nodes of one set of triples makes it the other. -/
def isomorphic (left right : List Triple) : Except Fault Bool :=
  isomorphicBy .fewestFirst left right

/-- Whether two graphs hold the same triples up to the names of blank nodes. -/
def Graph.isIsomorphic (left right : Graph) : Except Fault Bool :=
  isomorphic left.triples right.triples

end Rdf
