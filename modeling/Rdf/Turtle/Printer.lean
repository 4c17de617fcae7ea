import Rdf.Document.Spelling
import Rdf.Graph.Basic
import Rdf.Turtle.Collection
import Rdf.Turtle.LocalName

/-!
Writing Turtle.

Statements are grouped by subject and, within it, by predicate, each in the order of first
appearance. Identifiers are written as prefixed names where a namespace fits, lists as collections
and numbers without quotes, as far as the options want it.
-/

namespace Rdf.Turtle

open Spelling

inductive ListMode where
  | collections
  | cells
  | unknown (name : String)
  deriving DecidableEq, Repr

def ListMode.ofName : String → ListMode
  | "auto" => collections
  | "off" => cells
  | name => unknown name

structure Options where
  writesBase : Bool := true
  writesLabels : Bool := true
  lists : ListMode := .collections
  shortLiterals : Bool := true
  deriving DecidableEq, Repr

abbrev Spaces : Type := List (String × Iri)

/-! ### Terms -/

/-- The prefixed name of an identifier in a namespace, with the length of the namespace. -/
def nameIn (iri : Iri) (space : String × Iri) : Option (Nat × List Char) :=
  let value := iri.value.toList
  let start := space.2.value.toList
  if start.isPrefixOf value then
    (escapeLocal (value.drop start.length)).map fun localPart =>
      (start.length, space.1.toList ++ ':' :: localPart)
  else none

/-- The longer of two namespaces, the first where they are equal. -/
def longer (best : Option (Nat × List Char)) (other : Nat × List Char) :
    Option (Nat × List Char) :=
  match best with
  | none => some other
  | some found => if found.1 < other.1 then some other else some found

/-- An identifier, as a prefixed name in the longest namespace that fits or else in brackets. -/
def iri (spaces : Spaces) (name : Iri) : List Char :=
  match (spaces.filterMap (nameIn name)).foldl longer none with
  | some (_, text) => text
  | none => iriRef name.value

def predicate (spaces : Spaces) (name : Iri) : List Char :=
  if name = Vocabulary.type then ['a'] else iri spaces name

def isShort (value : List Char) (datatype : Iri) : Bool :=
  if datatype = Vocabulary.boolean then
    value = "true".toList || value = "false".toList
  else if datatype = Vocabulary.integer then Pattern.fits .integer value
  else if datatype = Vocabulary.decimal then Pattern.fits .decimal value
  else if datatype = Vocabulary.double then Pattern.fits .double value
  else false

def literal (options : Options) (spaces : Spaces) (l : Literal) : Written := do
  checkLiteral l
  if options.shortLiterals && l.datatype.any (isShort l.value.toList) then
    return l.value.toList
  else return Spelling.literal l (iri spaces)

def spaced (texts : List (List Char)) : List Char := [' '].intercalate texts

theorem length_eraseP_lt {chains : List Chain} {id : String} {chain : Chain}
    (h : chains.find? (·.head = id) = some chain) :
    (chains.eraseP (·.head = id)).length < chains.length := by
  have hm := List.mem_of_find?_eq_some h
  have hp := List.find?_some h
  have hpos := List.length_pos_of_mem hm
  rw [List.length_eraseP_of_mem hm hp]
  omega

/-- A term. A blank node that is the head of a collection is written as the collection, in which
that head does not come again. -/
def term (options : Options) (spaces : Spaces) (chains : List Chain) : Term → Written
  | .iri name => .ok (iri spaces name)
  | .blank id =>
    match _h : chains.find? (·.head = id) with
    | some chain => do
      let items ← chain.items.mapM fun item =>
        term options spaces (chains.eraseP (·.head = id)) item
      return '(' :: spaced items ++ [')']
    | none => blank id
  | .literal l => literal options spaces l
  | .plain value => .error (.unsupported value.kindName)
termination_by chains.length
decreasing_by exact length_eraseP_lt _h

/-! ### Statements -/

/-- The values of a table under a key, with one more behind them. -/
def pushTo {α β : Type} [DecidableEq α] (key : α) (value : β) :
    List (α × List β) → List (α × List β)
  | [] => [(key, [value])]
  | (k, values) :: rest =>
    if k = key then (k, values ++ [value]) :: rest else (k, values) :: pushTo key value rest

/-- Values by their keys, each key at its first appearance. -/
def groupBy {α β : Type} [DecidableEq α] (entries : List (α × β)) : List (α × List β) :=
  entries.foldl (fun groups entry => pushTo entry.1 entry.2 groups) []

/-- The triples of a row by subject and, for each subject, by predicate. -/
def grouped (triples : List Triple) : List (Term × List (Term × List Term)) :=
  (groupBy (triples.map fun t => (t.subject, (t.predicate, t.object)))).map fun group =>
    (group.1, groupBy group.2)

def predicatePart (options : Options) (spaces : Spaces) (chains : List Chain)
    (group : Term × List Term) : Written := do
  let name ← match group.1 with
    | .iri name => pure (predicate spaces name)
    | other => Except.error (.predicate other.display)
  let objects ← group.2.mapM (term options spaces chains)
  return name ++ ' ' :: [',', ' '].intercalate objects

def statement (options : Options) (spaces : Spaces) (chains : List Chain)
    (group : Term × List (Term × List Term)) : Written := do
  let subject ← term options spaces chains group.1
  let parts ← group.2.mapM (predicatePart options spaces chains)
  return subject ++ ' ' :: "\n    ; ".toList.intercalate parts ++ [' ', '.']

def statements (options : Options) (spaces : Spaces) (chains : List Chain)
    (triples : List Triple) : Except WriteFault (List (List Char)) :=
  (grouped triples).mapM (statement options spaces chains)

/-! ### Documents -/

def baseLine (base : Iri) : List Char := "@base ".toList ++ iriRef base.value ++ [' ', '.']

def spaceLine (space : String × Iri) : List Char :=
  "@prefix ".toList ++ space.1.toList ++ ':' :: ' ' :: iriRef space.2.value ++ [' ', '.']

/-- The namespaces of a graph whose labels can be written, if the options want labels. -/
def writtenSpaces (options : Options) (g : Graph) : Spaces :=
  if options.writesLabels then g.namespaces.filter fun space => isSpaceLabel space.1.toList else []

/-- The directives of a graph, with an empty line behind them if there are any. -/
def header (options : Options) (g : Graph) : List (List Char) :=
  let base := if options.writesBase then g.base.toList.map baseLine else []
  let directives := base ++ (writtenSpaces options g).map spaceLine
  if directives.isEmpty then [] else directives ++ [[]]

def Options.check (options : Options) : Except WriteFault Unit :=
  match options.lists with
  | .unknown name => .error (.listMode name)
  | _ => .ok ()

/-- The collections of a row of triples, if the options want them. -/
def Options.chains (options : Options) (triples : List Triple) : List Chain :=
  if options.lists = .collections then collections triples else []

/-- The triples of a row that are not part of a collection. -/
def visible (triples : List Triple) (chains : List Chain) : List Triple :=
  let hidden := compacted triples chains
  (triples.zipIdx.filter fun entry => !hidden.contains entry.2).map (·.1)

def unlines (texts : List (List Char)) : List Char := texts.flatMap (· ++ ['\n'])

def write (g : Graph) (options : Options) : Except WriteFault String := do
  options.check
  g.triples.forM checkTriple
  let chains := options.chains g.triples
  let blocks ← statements options (writtenSpaces options g) chains (visible g.triples chains)
  return String.ofList (unlines (header options g ++ blocks))

end Rdf.Turtle
