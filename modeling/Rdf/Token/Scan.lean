import Rdf.Token.Fault

/-!
Scanners.

A scanner is a function from the unread text to a value and what is then unread. A scanner that
fails says where the fault is reported and how far it has read, both as what is unread there.
`gather` is the loop that all scanners of several pieces share.
-/

namespace Rdf

/-- A failed scan: what is wrong, the text from the place of the report on, and the text that is
left unread. -/
structure ScanFault where
  cause : LexicalFault
  site : List Char
  stop : List Char
  deriving DecidableEq, Repr

abbrev Scan (α : Type) : Type := Except ScanFault (α × List Char)

namespace Scan

def fail {α : Type} (cause : LexicalFault) (rest : List Char) : Scan α :=
  .error ⟨cause, rest, rest⟩

/-- Reads pieces of text until a step gives none. -/
def gather (step : List Char → Scan (Option (List Char)))
    (progress : ∀ {text piece rest}, step text = .ok (some piece, rest) →
      rest.length < text.length)
    (text : List Char) : Scan (List Char) :=
  match _h : step text with
  | .error fault => .error fault
  | .ok (none, rest) => .ok ([], rest)
  | .ok (some piece, rest) =>
    match gather step progress rest with
    | .error fault => .error fault
    | .ok (pieces, rest) => .ok (piece ++ pieces, rest)
termination_by text.length
decreasing_by exact progress _h

/-- A scanned character as a piece of a longer text. -/
def asPiece : Scan Char → Scan (Option (List Char))
  | .error fault => .error fault
  | .ok (c, rest) => .ok (some [c], rest)

theorem asPiece_eq_ok {scan : Scan Char} {piece : Option (List Char)} {rest : List Char}
    (h : asPiece scan = .ok (piece, rest)) : ∃ c, piece = some [c] ∧ scan = .ok (c, rest) := by
  unfold asPiece at h
  split at h
  · simp at h
  · simp only [Except.ok.injEq, Prod.mk.injEq] at h
    obtain ⟨rfl, rfl⟩ := h
    exact ⟨_, rfl, rfl⟩

/-- A loop that ends has left no more than it was given, and less where its last step reads. -/
theorem length_gather {step : List Char → Scan (Option (List Char))}
    (progress : ∀ {text piece rest}, step text = .ok (some piece, rest) →
      rest.length < text.length)
    {k : Nat}
    (last : ∀ {text rest}, step text = .ok (none, rest) → rest.length + k ≤ text.length)
    {text pieces rest : List Char}
    (h : gather step progress text = .ok (pieces, rest)) : rest.length + k ≤ text.length := by
  fun_induction gather step progress text generalizing pieces rest with
  | case1 => simp at h
  | case2 text left hs =>
    simp only [Except.ok.injEq, Prod.mk.injEq] at h
    obtain ⟨_, rfl⟩ := h
    exact last hs
  | case3 => simp at h
  | case4 text piece left hs more rest' hg ih =>
    simp only [Except.ok.injEq, Prod.mk.injEq] at h
    obtain ⟨_, rfl⟩ := h
    have hstep := progress hs
    have hloop := ih hg
    omega

end Scan

end Rdf
