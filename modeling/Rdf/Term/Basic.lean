import Rdf.Iri.Basic

/-!
Terms of the data model.

`Term.plain` holds a value that is no term. No checked constructor gives it a place in a triple,
but triples that were built without checks may carry it, and the printers then refuse them.
-/

namespace Rdf

/-- A literal: a text, with a language tag, with a datatype or with neither. -/
structure Literal where
  value : String
  language : Option String := none
  datatype : Option Iri := none
  deriving DecidableEq, Repr

inductive Term where
  | iri (iri : Iri)
  | blank (id : String)
  | literal (literal : Literal)
  | plain (value : Plain)
  deriving DecidableEq, Repr

namespace Literal

/-- The literal with the given parts: its value is a text, a tag excludes a datatype, and a tag is
not empty. -/
def make (value : Plain) (language : Option String) (datatype : Option (Given Iri)) :
    Except Fault Literal :=
  match value with
  | .text text =>
    if language.isSome && datatype.isSome then .error .languageAndDatatype
    else if language = some "" then .error .languageEmpty
    else match datatype with
      | none => .ok ⟨text, language, none⟩
      | some (.proper iri) => .ok ⟨text, language, some iri⟩
      | some (.plain other) => .error (.datatypeNotIri other.kindName)
  | other => .error (.literalNotText other.kindName)

def display (literal : Literal) : String :=
  let language := match literal.language with
    | some tag => Text.quoted tag
    | none => "None"
  let datatype := match literal.datatype with
    | some iri => iri.display
    | none => "None"
  "LiteralNode(value=" ++ Text.quoted literal.value ++ ", language=" ++ language
    ++ ", datatype=" ++ datatype ++ ")"

end Literal

namespace Term

def ofIri : Given Iri → Except Fault Term
  | .proper name => .ok (.iri name)
  | .plain value => .error (.nodeNotIri value.kindName)

/-- The blank node with an id, which is a text that is not empty. -/
def ofBlankId : Plain → Except Fault Term
  | .text id => if id = "" then .error .blankIdInvalid else .ok (.blank id)
  | _ => .error .blankIdInvalid

def kindName : Term → String
  | .iri _ => "UriNode"
  | .blank _ => "BlankNode"
  | .literal _ => "LiteralNode"
  | .plain value => value.kindName

def display : Term → String
  | .iri name => "UriNode(uri=" ++ name.display ++ ")"
  | .blank id => "BlankNode(id=" ++ Text.quoted id ++ ")"
  | .literal content => content.display
  | .plain value => value.display

def isResource : Term → Bool
  | .iri _ | .blank _ => true
  | _ => false

def isIri : Term → Bool
  | .iri _ => true
  | _ => false

/-- Whether the value is a term of the data model. -/
def isTerm : Term → Bool
  | .plain _ => false
  | _ => true

def blankId? : Term → Option String
  | .blank id => some id
  | _ => none

/-- A term as it counts in comparisons. Only plain values may differ from their keys. -/
def key : Term → Term
  | .plain value => .plain value.key
  | term => term

theorem isTerm_key (t : Term) : t.key.isTerm = t.isTerm := by cases t <;> rfl

theorem key_of_isTerm {t : Term} (h : t.isTerm = true) : t.key = t := by
  cases t <;> first | rfl | simp [isTerm] at h

/-- A term of the data model has the key of no other. -/
theorem key_eq_key_iff {t u : Term} (h : t.isTerm = true) : u.key = t.key ↔ u = t := by
  constructor
  · intro hk
    have hu : u.isTerm = true := by rw [← isTerm_key u, hk, isTerm_key, h]
    rwa [key_of_isTerm hu, key_of_isTerm h] at hk
  · rintro rfl
    rfl

end Term

end Rdf
