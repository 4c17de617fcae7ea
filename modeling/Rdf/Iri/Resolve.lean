import Rdf.Iri.Path

/-!
Resolution of references against a base.

`Reference.resolve` is the transformation of references of the generic URI syntax: what a
reference leaves open is taken from the base.
-/

namespace Rdf

namespace Reference

def transform (base r : Reference) : Reference :=
  if r.authority.isSome then
    { r with scheme := base.scheme, path := Path.removeDots r.path }
  else if r.path.isEmpty then
    { base with query := if r.query.isSome then r.query else base.query, fragment := r.fragment }
  else
    let path := if r.path.head? = some '/' then r.path else Path.merge base r.path
    { r with scheme := base.scheme, authority := base.authority, path := Path.removeDots path }

end Reference

/-- The text of a reference, resolved against a base. A reference with a scheme is its own
target. -/
def resolveText (base text : List Char) : List Char :=
  if hasScheme text then text
  else ((Reference.split base).transform (Reference.split text)).unsplit

end Rdf
