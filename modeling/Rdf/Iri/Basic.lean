import Rdf.Fault
import Rdf.Iri.Resolve

/-!
Identifiers of resources.

An identifier is kept as it was written, so two are equal when their texts are.
-/

namespace Rdf

/-- An absolute or relative identifier. `Iri.make` refuses the empty text. -/
structure Iri where
  value : String
  deriving DecidableEq, Repr

namespace Iri

def ofText (value : String) : Except Fault Iri :=
  if value = "" then .error .iriEmpty else .ok ⟨value⟩

def make : Plain → Except Fault Iri
  | .text value => ofText value
  | value => .error (.iriNotText value.kindName)

def isAbsolute (iri : Iri) : Bool := hasScheme iri.value.toList

/-- The scheme, or the empty text for a relative identifier. -/
def scheme (iri : Iri) : String :=
  match takeScheme? iri.value.toList with
  | some (scheme, _) => String.ofList scheme
  | none => ""

def resolve (iri base : Iri) : Except Fault Iri :=
  if iri.isAbsolute then .ok iri
  else if base.isAbsolute then
    ofText (String.ofList (resolveText base.value.toList iri.value.toList))
  else .error (.relativeBase base.value)

def display (iri : Iri) : String := "Uri(value=" ++ Text.quoted iri.value ++ ")"

end Iri

end Rdf
