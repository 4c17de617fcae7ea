import Rdf.Text.Quoted

/-!
Plain values: what may stand where a term or a triple is expected and is neither.

The constructors of terms and triples turn plain values away, and messages show them.
-/

namespace Rdf

/-- A value outside of the data model. Lists and tables are known by how they are shown. -/
inductive Plain where
  | absent
  | flag (value : Bool)
  | number (value : Int)
  | text (value : String)
  | list (shown : String)
  | table (shown : String)
  deriving DecidableEq, Repr

namespace Plain

def kindName : Plain → String
  | absent => "NoneType"
  | flag _ => "bool"
  | number _ => "int"
  | text _ => "str"
  | list _ => "list"
  | table _ => "dict"

def display : Plain → String
  | absent => "None"
  | flag true => "True"
  | flag false => "False"
  | number value => toString value
  | text value => Text.quoted value
  | list shown => shown
  | table shown => shown

/-- A value as it stands in running text, where a text is not quoted. -/
def toText : Plain → String
  | text value => value
  | value => value.display

def ofList (items : List Plain) : Plain :=
  .list ("[" ++ ", ".intercalate (items.map display) ++ "]")

def ofTable (entries : List (String × Plain)) : Plain :=
  let shown := entries.map fun entry => Text.quoted entry.1 ++ ": " ++ entry.2.display
  .table ("\x7b" ++ ", ".intercalate shown ++ "\x7d")

/-- A value as it counts in comparisons, where a truth value is the number zero or one. -/
def key : Plain → Plain
  | flag value => number (if value then 1 else 0)
  | value => value

/-- Whether a value can be looked up in a set. -/
def isKey : Plain → Bool
  | list _ => false
  | table _ => false
  | _ => true

end Plain

/-- An argument that should be an `α`, but may be a plain value. -/
inductive Given (α : Type) where
  | proper (value : α)
  | plain (value : Plain)
  deriving DecidableEq, Repr

end Rdf
