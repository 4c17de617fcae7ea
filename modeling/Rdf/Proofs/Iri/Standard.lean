import Mathlib.Data.List.DropRight
import Rdf.Iri.Resolve

/-!
Resolution as the generic URI syntax defines it.

The definitions follow sections 5.2.2 to 5.2.4 and 5.3 of RFC 3986 word by word: dot segments are
removed by moving a path from an input buffer to an output buffer.
-/

namespace Rdf.Standard

/-- The output buffer without its last segment and the slash before it, if there is one. -/
def dropSegment (output : List Char) : List Char :=
  (output.rdropWhile (· != '/')).dropLast

/-- The output buffer when nothing is left in the input buffer (5.2.4). -/
def moveSegments (output : List Char) : List Char → List Char
  | [] => output
  | '.' :: '.' :: '/' :: rest => moveSegments output rest
  | '.' :: '/' :: rest => moveSegments output rest
  | '/' :: '.' :: '/' :: rest => moveSegments output ('/' :: rest)
  | ['/', '.'] => moveSegments output ['/']
  | '/' :: '.' :: '.' :: '/' :: rest => moveSegments (dropSegment output) ('/' :: rest)
  | ['/', '.', '.'] => moveSegments (dropSegment output) ['/']
  | ['.'] => output
  | ['.', '.'] => output
  | c :: rest =>
    moveSegments (output ++ c :: rest.takeWhile (· != '/')) (rest.dropWhile (· != '/'))
termination_by input => input.length
decreasing_by
  all_goals simp only [List.length_cons, List.length_nil]
  all_goals try omega
  exact Nat.lt_succ_of_le (List.length_dropWhile_le _ _)

def removeDots (path : List Char) : List Char := moveSegments [] path

/-- A relative path behind all but the last segment of the path of the base (5.2.3). -/
def merge (base : Reference) (path : List Char) : List Char :=
  if base.authority ≠ none ∧ base.path = [] then '/' :: path
  else base.path.rdropWhile (· != '/') ++ path

/-- The target of a reference, component by component (5.2.2). -/
def transform (base r : Reference) : Reference :=
  if r.scheme ≠ none then
    ⟨r.scheme, r.authority, removeDots r.path, r.query, r.fragment⟩
  else if r.authority ≠ none then
    ⟨base.scheme, r.authority, removeDots r.path, r.query, r.fragment⟩
  else if r.path = [] then
    ⟨base.scheme, base.authority, base.path,
      if r.query ≠ none then r.query else base.query, r.fragment⟩
  else if r.path.head? = some '/' then
    ⟨base.scheme, base.authority, removeDots r.path, r.query, r.fragment⟩
  else
    ⟨base.scheme, base.authority, removeDots (merge base r.path), r.query, r.fragment⟩

/-- The text of a reference, from the components that are defined (5.3). -/
def recompose (t : Reference) : List Char :=
  t.scheme.elim [] (· ++ [':']) ++ t.authority.elim [] ('/' :: '/' :: ·) ++ t.path
    ++ t.query.elim [] ('?' :: ·) ++ t.fragment.elim [] ('#' :: ·)

def resolve (base text : List Char) : List Char :=
  recompose (transform (Reference.split base) (Reference.split text))

end Rdf.Standard
