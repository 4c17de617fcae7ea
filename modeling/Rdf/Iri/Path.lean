import Rdf.Iri.Reference

/-!
Paths and their segments.

A path is cut at its slashes. A segment of one dot stands for the place it is at, and one of two
dots takes back the segment before it.
-/

namespace Rdf.Path

def segments : List Char → List (List Char)
  | [] => [[]]
  | c :: rest =>
    if c = '/' then [] :: segments rest
    else match segments rest with
      | segment :: others => (c :: segment) :: others
      | [] => [[c]]

def join (parts : List (List Char)) : List Char := ['/'].intercalate parts

theorem segments_ne_nil (path : List Char) : segments path ≠ [] := by
  unfold segments
  split
  · simp
  · split
    · simp
    · split <;> simp

theorem join_cons_cons (segment other : List Char) (parts : List (List Char)) :
    join (segment :: other :: parts) = segment ++ '/' :: join (other :: parts) := by
  simp [join, List.intercalate, List.intersperse]

theorem join_segments (path : List Char) : join (segments path) = path := by
  induction path with
  | nil => rfl
  | cons c rest ih =>
    have hne := segments_ne_nil rest
    simp only [segments]
    split
    · next hc =>
      obtain ⟨segment, others, hs⟩ := List.exists_cons_of_ne_nil hne
      rw [hs, join_cons_cons, ← hs, ih, hc, List.nil_append]
    · split
      · next segment others hs =>
        rw [hs] at ih
        cases others with
        | nil => simpa [join, List.intercalate] using ih
        | cons other others =>
          rw [join_cons_cons] at ih ⊢
          rw [List.cons_append, ih]
      · next hs => exact absurd hs hne

/-- The segments left when those of dots have had their effect, the last one first. `kept` holds
the segments so far in the same order. A dot segment at the end leaves an empty one, so that the
path still ends with a slash. -/
def settle (kept : List (List Char)) : List (List Char) → List (List Char)
  | [] => kept
  | segment :: rest =>
    if segment = ['.', '.'] then
      if rest.isEmpty then [] :: kept.tail else settle kept.tail rest
    else if segment = ['.'] then
      if rest.isEmpty then [] :: kept else settle kept rest
    else settle (segment :: kept) rest

def removeDots (path : List Char) : List Char :=
  if path.contains '.' then
    match path with
    | '/' :: relative => '/' :: join (settle [] (segments relative)).reverse
    | _ => join (settle [] (segments path)).reverse
  else path

/-- A path up to its last slash, which is kept. -/
def directory (path : List Char) : List Char := (path.reverse.dropWhile (· != '/')).reverse

/-- A relative path, put in the place of the last segment of the path of a base. -/
def merge (base : Reference) (relative : List Char) : List Char :=
  if base.authority.isSome && base.path.isEmpty then '/' :: relative
  else directory base.path ++ relative

end Rdf.Path
