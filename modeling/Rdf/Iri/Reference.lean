import Rdf.Text.Class

/-!
References to resources, cut into the components of the generic URI syntax.

Every text is a reference: `Reference.split` takes no component as wrong, and decodes and strips
nothing, so that `Reference.unsplit` puts the same text together again.
-/

namespace Rdf

/-- The components of a reference. An absent component is told from an empty one. -/
structure Reference where
  scheme : Option (List Char)
  authority : Option (List Char)
  path : List Char
  query : Option (List Char)
  fragment : Option (List Char)
  deriving DecidableEq, Repr

def isSchemeChar (c : Char) : Bool :=
  Text.isLetter c || Text.isDigit c || c == '+' || c == '.' || c == '-'

/-- The scheme that a reference begins with, and what follows its colon. -/
def takeScheme? : List Char → Option (List Char × List Char)
  | [] => none
  | c :: rest =>
    if Text.isLetter c then
      match rest.dropWhile isSchemeChar with
      | ':' :: after => some (c :: rest.takeWhile isSchemeChar, after)
      | _ => none
    else none

theorem takeScheme?_eq_some {text scheme rest : List Char}
    (h : takeScheme? text = some (scheme, rest)) : scheme ++ ':' :: rest = text := by
  unfold takeScheme? at h
  split at h
  · simp at h
  · split at h
    · split at h
      · next hd =>
        simp only [Option.some.injEq, Prod.mk.injEq] at h
        obtain ⟨rfl, rfl⟩ := h
        rw [List.cons_append, ← hd, List.takeWhile_append_dropWhile]
      · simp at h
    · simp at h

def hasScheme (text : List Char) : Bool := (takeScheme? text).isSome

namespace Reference

def endsAuthority (c : Char) : Bool := c == '/' || c == '?' || c == '#'

def endsPath (c : Char) : Bool := c == '?' || c == '#'

def cutScheme (text : List Char) : Option (List Char) × List Char :=
  match takeScheme? text with
  | some (scheme, rest) => (some scheme, rest)
  | none => (none, text)

/-- The authority behind two slashes, if there is one, and the rest. -/
def cutAuthority : List Char → Option (List Char) × List Char
  | '/' :: '/' :: rest =>
    (some (rest.takeWhile fun c => !endsAuthority c), rest.dropWhile fun c => !endsAuthority c)
  | text => (none, text)

/-- The query behind a question mark, if there is one, and the rest. -/
def cutQuery : List Char → Option (List Char) × List Char
  | '?' :: rest => (some (rest.takeWhile (· != '#')), rest.dropWhile (· != '#'))
  | text => (none, text)

def cutFragment : List Char → Option (List Char)
  | '#' :: rest => some rest
  | _ => none

def split (text : List Char) : Reference :=
  let (scheme, rest) := cutScheme text
  let (authority, rest) := cutAuthority rest
  let path := rest.takeWhile fun c => !endsPath c
  let (query, rest) := cutQuery (rest.dropWhile fun c => !endsPath c)
  { scheme, authority, path, query, fragment := cutFragment rest }

def schemeText : Option (List Char) → List Char
  | some scheme => scheme ++ [':']
  | none => []

def authorityText : Option (List Char) → List Char
  | some authority => '/' :: '/' :: authority
  | none => []

def markedText (mark : Char) : Option (List Char) → List Char
  | some component => mark :: component
  | none => []

def unsplit (r : Reference) : List Char :=
  schemeText r.scheme ++ authorityText r.authority ++ r.path ++ markedText '?' r.query
    ++ markedText '#' r.fragment

/-! ### Nothing is lost -/

theorem cutScheme_append (text : List Char) :
    schemeText (cutScheme text).1 ++ (cutScheme text).2 = text := by
  unfold cutScheme
  cases h : takeScheme? text with
  | none => rfl
  | some found => simpa [schemeText] using takeScheme?_eq_some h

theorem cutAuthority_append (text : List Char) :
    authorityText (cutAuthority text).1 ++ (cutAuthority text).2 = text := by
  unfold cutAuthority
  split
  · simp [authorityText]
  · rfl

/-- What is left of a text behind its longest start of one kind begins with another kind. -/
theorem head?_dropWhile_all (kind : Char → Bool) (text : List Char) :
    (text.dropWhile fun c => !kind c).head?.all kind = true := by
  have h := List.head?_dropWhile_not (fun c => !kind c) text
  cases hd : (text.dropWhile fun c => !kind c).head? with
  | none => rfl
  | some c => simpa [hd] using h

/-- A number sign and what is behind it is a fragment. -/
theorem cutFragment_append {text : List Char} (h : text.head?.all (· == '#') = true) :
    markedText '#' (cutFragment text) = text := by
  cases text with
  | nil => rfl
  | cons c rest =>
    obtain rfl : c = '#' := by simpa using h
    rfl

/-- What is behind a path is a query and a fragment. -/
theorem cutQuery_append {text : List Char} (h : text.head?.all endsPath = true) :
    markedText '?' (cutQuery text).1 ++ markedText '#' (cutFragment (cutQuery text).2) = text := by
  cases text with
  | nil => rfl
  | cons c rest =>
    have hc : c = '?' ∨ c = '#' := by simpa [endsPath] using h
    obtain rfl | rfl := hc
    · have hrest := cutFragment_append (head?_dropWhile_all (· == '#') rest)
      simp only [cutQuery, markedText, bne, List.cons_append] at hrest ⊢
      rw [hrest, List.takeWhile_append_dropWhile]
    · rfl

theorem unsplit_split (text : List Char) : (split text).unsplit = text := by
  simp only [split, unsplit, List.append_assoc]
  rw [cutQuery_append (head?_dropWhile_all endsPath _), List.takeWhile_append_dropWhile,
    cutAuthority_append, cutScheme_append]

end Reference

end Rdf
