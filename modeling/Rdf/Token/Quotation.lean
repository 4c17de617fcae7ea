import Rdf.Token.Escape

/-!
Identifiers in angle brackets and strings in quotes.
-/

namespace Rdf.Scan

def endsLine (c : Char) : Bool := c == '\r' || c == '\n'

def iriForbids (c : Char) : Bool :=
  ['<', '"', '\x7b', '\x7d', '|', '^', '\x60'].contains c || c.toNat ≤ 0x20

def isEscapeLetter (c : Char) : Bool := c == 'u' || c == 'U'

/-- One piece of an identifier, or none at its end. A missing end is reported at the opening. -/
def iriStep (opening : List Char) : List Char → Scan (Option (List Char))
  | [] => .error ⟨.iriUnterminated, opening, []⟩
  | c :: rest =>
    if endsLine c then .error ⟨.iriUnterminated, opening, c :: rest⟩
    else if c = '>' then .ok (none, rest)
    else if c = '\\' then
      if rest.head?.any isEscapeLetter then asPiece (unicodeEscape (c :: rest))
      else fail .iriEscape (c :: rest)
    else if iriForbids c then fail (.iriCharacter c) (c :: rest)
    else .ok (some [c], rest)

theorem length_iriStep {opening text piece rest : List Char}
    (h : iriStep opening text = .ok (some piece, rest)) : rest.length < text.length := by
  cases text with
  | nil => simp [iriStep] at h
  | cons c tail =>
    simp only [iriStep, fail] at h
    repeat' split at h
    all_goals try simp at h
    · obtain ⟨_, _, he⟩ := asPiece_eq_ok h
      exact length_unicodeEscape he
    · simp [h.2]

theorem length_iriStep_none {opening text rest : List Char}
    (h : iriStep opening text = .ok (none, rest)) : rest.length < text.length := by
  cases text with
  | nil => simp [iriStep] at h
  | cons c tail =>
    simp only [iriStep, fail] at h
    repeat' split at h
    all_goals try simp at h
    · simp [h]
    · obtain ⟨_, he, _⟩ := asPiece_eq_ok h
      simp at he

def iriRef : List Char → Scan (List Char)
  | '<' :: rest => gather (iriStep ('<' :: rest)) length_iriStep rest
  | text => fail (.expected "<") text

theorem length_iriRef {text value rest : List Char} (h : iriRef text = .ok (value, rest)) :
    rest.length < text.length := by
  unfold iriRef at h
  split at h
  · next tail =>
    have hg := length_gather length_iriStep (k := 1) length_iriStep_none h
    simp only [List.length_cons]
    omega
  · simp [fail] at h

/-- Whether quotes close a string at the start of a text. In a long string a quote directly before
the closing ones belongs to the string. -/
def closes (delimiter text : List Char) : Bool :=
  delimiter.isPrefixOf text && !(delimiter.length == 3 && text[3]? == delimiter.head?)

/-- One piece of a string, or none at its end. A line ends a string that is not long. -/
def stringStep (opening delimiter : List Char) : List Char → Scan (Option (List Char))
  | [] => .error ⟨.stringUnterminated, opening, []⟩
  | c :: rest =>
    if delimiter.length != 3 && endsLine c then .error ⟨.stringUnterminated, opening, c :: rest⟩
    else if c = '\\' then asPiece (stringEscape (c :: rest))
    else if closes delimiter (c :: rest) then .ok (none, (c :: rest).drop delimiter.length)
    else .ok (some [c], rest)

theorem length_stringStep {opening delimiter text piece rest : List Char}
    (h : stringStep opening delimiter text = .ok (some piece, rest)) :
    rest.length < text.length := by
  cases text with
  | nil => simp [stringStep] at h
  | cons c tail =>
    simp only [stringStep] at h
    repeat' split at h
    all_goals try simp at h
    · obtain ⟨_, _, he⟩ := asPiece_eq_ok h
      exact length_stringEscape he
    · simp [h.2]

theorem length_stringStep_none {opening delimiter text rest : List Char}
    (h : stringStep opening delimiter text = .ok (none, rest)) : rest.length ≤ text.length := by
  cases text with
  | nil => simp [stringStep] at h
  | cons c tail =>
    simp only [stringStep] at h
    repeat' split at h
    all_goals try simp at h
    · obtain ⟨_, he, _⟩ := asPiece_eq_ok h
      simp at he
    · rw [← h, List.length_drop]
      omega

/-- The quotes that open a string: three where three stand, else one. -/
def delimiterOf (quote : Char) (text : List Char) : List Char :=
  if [quote, quote, quote].isPrefixOf text then [quote, quote, quote] else [quote]

theorem length_delimiterOf_pos (quote : Char) (text : List Char) :
    0 < (delimiterOf quote text).length := by
  unfold delimiterOf
  split <;> simp

/-- Reads a string, whose first character is its quote, and gives the quotes with the value. -/
def quotation : List Char → Scan (List Char × List Char)
  | [] => fail .stringUnterminated []
  | quote :: tail =>
    let text := quote :: tail
    let delimiter := delimiterOf quote text
    match gather (stringStep text delimiter) length_stringStep (text.drop delimiter.length) with
    | .error fault => .error fault
    | .ok (value, rest) => .ok ((delimiter, value), rest)

theorem length_quotation {text rest : List Char} {value : List Char × List Char}
    (h : quotation text = .ok (value, rest)) : rest.length < text.length := by
  cases text with
  | nil => simp [quotation, fail] at h
  | cons quote tail =>
    simp only [quotation] at h
    split at h
    · simp at h
    · next hg =>
      simp only [Except.ok.injEq, Prod.mk.injEq] at h
      obtain ⟨_, rfl⟩ := h
      have hk := length_gather length_stringStep (k := 0) length_stringStep_none hg
      have hd := length_delimiterOf_pos quote (quote :: tail)
      rw [List.length_drop] at hk
      simp only [List.length_cons] at hk ⊢
      omega

end Rdf.Scan
