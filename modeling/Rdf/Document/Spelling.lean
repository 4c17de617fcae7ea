import Rdf.Term.Label
import Rdf.Term.Triple
import Rdf.Token.Name

/-!
How terms are written, as far as N-Triples and Turtle agree.
-/

namespace Rdf

open Text

/-- Why a graph cannot be written. -/
inductive WriteFault where
  | blankLabel (id : String)
  | languageAndDatatype
  | languageTag (tag : String)
  | unsupported (kind : String)
  | subject (shown : String)
  | predicate (shown : String)
  | object (shown : String)
  | listMode (name : String)
  deriving DecidableEq, Repr

def WriteFault.message : WriteFault → String
  | blankLabel id => "blank node id " ++ quoted id ++ " is not a valid label"
  | languageAndDatatype => "literal has both a language tag and a datatype"
  | languageTag tag => "invalid language tag " ++ quoted tag
  | unsupported kind => "unsupported node type: " ++ kindMark kind
  | subject shown => "invalid subject node: " ++ shown
  | predicate shown => "invalid predicate node: " ++ shown
  | object shown => "invalid object node: " ++ shown
  | listMode name => "unsupported lists mode: " ++ name

/-- A text that has been written, or why there is none. -/
abbrev Written : Type := Except WriteFault (List Char)

namespace Spelling

/-- The escape of a code point below 65536. -/
def shortEscape (c : Char) : List Char := '\\' :: 'u' :: hexDigits .upper 4 c.toNat

/-- Whether a character of a string is written by its code point. -/
def isHidden (c : Char) : Bool :=
  c.toNat < 0x20 || c.toNat == 0x7F || c.toNat == 0xFFFE || c.toNat == 0xFFFF

def stringChar (c : Char) : List Char :=
  if c = '\\' then ['\\', '\\']
  else if c = '"' then ['\\', '"']
  else if c = '\t' then ['\\', 't']
  else if c = '\x08' then ['\\', 'b']
  else if c = '\n' then ['\\', 'n']
  else if c = '\r' then ['\\', 'r']
  else if c = '\x0c' then ['\\', 'f']
  else if isHidden c then shortEscape c
  else [c]

def stringBody (value : List Char) : List Char := value.flatMap stringChar

def string (value : String) : List Char := '"' :: stringBody value.toList ++ ['"']

/-- Characters of an identifier that angle brackets do not allow. -/
def isIriEscaped (c : Char) : Bool :=
  ['<', '>', '"', '\x7b', '\x7d', '|', '^', '\x60', '\\'].contains c || c.toNat ≤ 0x20

def iriChar (c : Char) : List Char := if isIriEscaped c then shortEscape c else [c]

def iriRef (value : String) : List Char := '<' :: value.toList.flatMap iriChar ++ ['>']

def blank (id : String) : Written :=
  if isBlankLabel id.toList then .ok ('_' :: ':' :: id.toList) else .error (.blankLabel id)

def checkLiteral (literal : Literal) : Except WriteFault Unit :=
  match literal.language, literal.datatype with
  | some _, some _ => .error .languageAndDatatype
  | some tag, none => if isLanguageTag tag.toList then .ok () else .error (.languageTag tag)
  | none, _ => .ok ()

/-- A literal in quotes, with its tag or its datatype, written as given. -/
def literal (literal : Literal) (datatype : Iri → List Char) : List Char :=
  string literal.value ++
    match literal.language, literal.datatype with
    | some tag, _ => '@' :: tag.toList
    | none, some iri => '^' :: '^' :: datatype iri
    | none, none => []

/-- Refuses triples with a term in a place that it may not have. -/
def checkTriple (t : Triple) : Except WriteFault Unit :=
  if !t.subject.isResource then .error (.subject t.subject.display)
  else if !t.predicate.isIri then .error (.predicate t.predicate.display)
  else if !t.object.isTerm then .error (.object t.object.display)
  else .ok ()

theorem checkTriple_eq_ok_iff (t : Triple) : checkTriple t = .ok () ↔ t.WellFormed := by
  unfold checkTriple Triple.WellFormed
  repeat' split
  all_goals simp_all

end Spelling

end Rdf
