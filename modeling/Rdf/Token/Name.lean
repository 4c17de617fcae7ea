import Rdf.Text.Class
import Rdf.Token.Scan

/-!
Names: labels, which may have dots inside, and the local parts of prefixed names, which may also
have escapes.
-/

namespace Rdf.Scan

open Text

/-- The longest start of a text that is made of accepted characters and dots and does not end with
a dot, and the rest. -/
def dotted (accept : Char → Bool) : List Char → List Char × List Char
  | [] => ([], [])
  | c :: rest =>
    if accept c || c == '.' then
      let (name, left) := dotted accept rest
      if accept c || !name.isEmpty then (c :: name, left) else ([], c :: rest)
    else ([], c :: rest)

/-- Nothing is lost between a dotted name and the rest. -/
theorem dotted_append (accept : Char → Bool) (text : List Char) :
    (dotted accept text).1 ++ (dotted accept text).2 = text := by
  induction text with
  | nil => rfl
  | cons c rest ih =>
    simp only [dotted]
    split
    · split
      · simp [ih]
      · rfl
    · rfl

theorem length_dotted (accept : Char → Bool) (text : List Char) :
    (dotted accept text).2.length ≤ text.length := by
  have h := congrArg List.length (dotted_append accept text)
  rw [List.length_append] at h
  omega

def blankLabel : List Char → Scan (List Char)
  | [] => fail .blankLabel []
  | c :: rest =>
    if isNameStart c || isDigit c then
      let (name, left) := dotted isNameChar rest
      .ok (c :: name, left)
    else fail .blankLabel (c :: rest)

theorem length_blankLabel {text label rest : List Char} (h : blankLabel text = .ok (label, rest)) :
    rest.length ≤ text.length := by
  unfold blankLabel fail at h
  split at h
  · simp at h
  · split at h
    · simp only [Except.ok.injEq, Prod.mk.injEq] at h
      rw [← h.2, List.length_cons]
      exact Nat.le_succ_of_le (length_dotted _ _)
    · simp at h

/-- Reads a percent sign, or whatever stands in its place, and two hexadecimal digits, all of which
stay as they are. -/
def percentEscape : List Char → Scan (List Char)
  | c :: high :: low :: rest =>
    if isHex high && isHex low then .ok ([c, high, low], rest)
    else fail .percentEscape (c :: high :: low :: rest)
  | text => fail .percentEscape text

/-- The characters that a local part may hold behind a backslash. -/
def localEscapes : List Char :=
  ['_', '~', '.', '-', '!', '$', '&', '\'', '(', ')', '*', '+', ',', ';', '=', '/', '?', '#', '@',
    '%']

/-- Reads a backslash, or whatever stands in its place, and gives the character behind it. -/
def localEscape : List Char → Scan Char
  | c :: escaped :: rest =>
    if localEscapes.contains escaped then .ok (escaped, rest)
    else fail .localEscape (c :: escaped :: rest)
  | text => fail .localEscape text

/-- Whether a character may follow the dots inside a local part. -/
def isLocalChar (c : Char) : Bool := c == ':' || c == '%' || c == '\\' || isNameChar c

/-- Whether a row of dots, perhaps empty, leads on to more of a local part. -/
def dotsLeadOn (text : List Char) : Bool := (text.dropWhile (· == '.')).head?.any isLocalChar

def localStep (text : List Char) : Scan (Option (List Char)) :=
  match text with
  | [] => .ok (none, [])
  | c :: rest =>
    if c = '%' then
      match percentEscape text with
      | .error fault => .error fault
      | .ok (piece, rest) => .ok (some piece, rest)
    else if c = '\\' then
      match localEscape text with
      | .error fault => .error fault
      | .ok (escaped, rest) => .ok (some [escaped], rest)
    else if c = ':' ∨ isNameChar c then .ok (some [c], rest)
    else if c = '.' ∧ dotsLeadOn text then .ok (some [c], rest)
    else .ok (none, text)

theorem length_percentEscape {text piece rest : List Char}
    (h : percentEscape text = .ok (piece, rest)) : rest.length < text.length := by
  unfold percentEscape fail at h
  repeat' split at h
  all_goals simp at h
  obtain ⟨_, rfl⟩ := h
  simp only [List.length_cons]
  omega

theorem length_localEscape {text rest : List Char} {c : Char}
    (h : localEscape text = .ok (c, rest)) : rest.length < text.length := by
  unfold localEscape fail at h
  repeat' split at h
  all_goals simp at h
  obtain ⟨_, rfl⟩ := h
  simp only [List.length_cons]
  omega

theorem length_localStep {text piece rest : List Char}
    (h : localStep text = .ok (some piece, rest)) : rest.length < text.length := by
  unfold localStep at h
  split at h
  · simp at h
  · repeat' split at h
    all_goals simp at h
    · next hp =>
      obtain ⟨rfl, rfl⟩ := h
      exact length_percentEscape hp
    · next hp =>
      obtain ⟨_, rfl⟩ := h
      exact length_localEscape hp
    · obtain ⟨_, rfl⟩ := h
      simp
    · obtain ⟨_, rfl⟩ := h
      simp

def startsLocal : List Char → Bool
  | [] => true
  | c :: _ => c == ':' || c == '%' || c == '\\' || isDigit c || isNameStart c

def localPart (text : List Char) : Scan (List Char) :=
  if startsLocal text then gather localStep length_localStep text else fail .localName text

theorem length_localPart {text value rest : List Char} (h : localPart text = .ok (value, rest)) :
    rest.length ≤ text.length := by
  unfold localPart at h
  split at h
  · refine length_gather length_localStep (k := 0) (fun {text rest} hs => ?_) h
    unfold localStep at hs
    repeat' split at hs
    all_goals simp at hs
    all_goals subst hs
    all_goals simp
  · simp [fail] at h

end Rdf.Scan
